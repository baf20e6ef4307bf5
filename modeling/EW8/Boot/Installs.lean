import EW8.Boot.Partitions

/-!
# Installs before a boot

Between two boots any number of updates may be installed. The images of each are
written to the partitions not in use, and the next boot swaps the partitions of the kind
in `update_status`. That is the kind of the latest install alone: an install of one part
replaces what was pending for the other, whose image is then never mounted.

`installs_mounted` says that the next boot mounts the latest image of each part, and the
partition it had where there is none, if no install but one of both parts follows one of
another kind.
-/

namespace EW8.Boot

namespace System

variable {ι : Type*} {s t u : System ι}

/-- What happens to a device that does not lose power, but in order to boot. -/
inductive Event (ι : Type*)
  | boot
  | confirm
  | install (i : Install ι)

/-- The steps of an event. -/
def Event.actions : Event ι → List (SysAction ι)
  | .boot => .powerLoss :: bootActions
  | .confirm => [.confirm]
  | .install i => [.install i]

/-- An event, as a step. -/
def eventStep (s : System ι) (e : Event ι) : Option (System ι) :=
  Transition.run step s e.actions

/-- The latest image of the part among those installed. -/
def latest (p : Part) (installed : List (Install ι)) : Option ι :=
  (installed.find? fun i => i.kind.has p).map fun i => p.of i.images

/-- No boot is confirmed with an install pending; and an install of one part only does
    not follow one of another kind. -/
def Compatible (s : System ι) : Event ι → Prop
  | .boot => True
  | .confirm => s.installed = []
  | .install i =>
    i.kind = .all ∨ s.env.updateStatus = none ∨ s.env.updateStatus = some i.kind

instance (s : System ι) : DecidablePred s.Compatible
  | .boot => isTrue trivial
  | .confirm => decidable_of_iff (s.installed.isEmpty = true) List.isEmpty_iff
  | .install _ => inferInstanceAs (Decidable (_ ∨ _))

/-- What is pending: the partitions not in use hold the latest images, and the kind in
    `update_status` has just these parts. -/
structure Pending (s : System ι) : Prop where
  mounted : s.mounted = s.env.indices
  none_iff : s.env.updateStatus = none ↔ s.installed = []
  rollback : s.installed ≠ [] → s.env.rollbackStatus = none
  image : ∀ p, ∀ k ∈ s.env.updateStatus,
    k.has p = (latest p s.installed).isSome ∧
      ∀ image ∈ latest p s.installed, s.partition (p.of s.env.preinst) = image

/-- A boot without a power loss. -/
theorem eventStep_boot (s : System ι) : ∃ u, s.eventStep .boot = some u ∧
    u.env = (s.env.checkRollback.1.checkUpdate s.env.checkRollback.2).1 ∧
    u.mounted = u.env.indices ∧ u.partition = s.partition ∧ u.installed = [] := by
  refine ⟨_, rfl, ?_, ?_, rfl, rfl⟩
  · simp only [Env.checkRollback_written, Env.checkUpdate_written]
  · simp only [Env.checkRollback_written, Env.checkUpdate_written]

variable {e : Event ι} {l : List (Event ι)}

theorem updateStatus_checkUpdate (e : Env) (r : Bool) :
    (e.checkUpdate r).1.updateStatus = none := by
  cases h : e.updateStatus with
  | none => rwa [Env.checkUpdate_of_none h]
  | some k => rw [Env.checkUpdate_of_some h]; rfl

theorem latest_cons_of_has {i : Install ι} {p : Part} (h : i.kind.has p)
    (installed : List (Install ι)) : latest p (i :: installed) = some (p.of i.images) := by
  simp only [latest, List.find?_cons, h, Option.map_some]

theorem latest_cons_of_not_has {i : Install ι} {p : Part} (h : ¬i.kind.has p)
    (installed : List (Install ι)) : latest p (i :: installed) = latest p installed := by
  simp only [latest, List.find?_cons, h]

theorem Factory.pending (h : s.Factory) : s.Pending where
  mounted := by rw [h.mounted, h.env]; rfl
  none_iff := by rw [h.env, h.installed]; exact iff_of_true rfl rfl
  rollback hne := absurd h.installed hne
  image p k hk := by rw [h.env] at hk; cases hk

/-- Every compatible event keeps what is pending. -/
theorem Pending.step (h : s.Pending) (hc : s.Compatible e) (hstep : s.eventStep e = some t) :
    t.Pending := by
  cases e with
  | boot =>
    obtain ⟨u, hu, henv, hmounted, -, hinstalled⟩ := s.eventStep_boot
    obtain rfl := Option.some.inj (hu.symm.trans hstep)
    have hnone : u.env.updateStatus = none := by rw [henv, updateStatus_checkUpdate]
    refine ⟨hmounted, iff_of_true hnone hinstalled, fun hne => absurd hinstalled hne,
      fun p k hk => ?_⟩
    rw [hnone] at hk
    cases hk
  | confirm =>
    obtain ⟨t', hconfirm, ht'⟩ := Option.bind_eq_some_iff.1 hstep
    obtain rfl := Option.some.inj ht'
    rw [System.step] at hconfirm
    split_ifs at hconfirm
    obtain rfl := Option.some.inj hconfirm
    exact ⟨h.mounted, iff_of_true rfl hc, fun _ => rfl, fun p k hk => by cases hk⟩
  | install i =>
    obtain ⟨t', hinstall, ht'⟩ := Option.bind_eq_some_iff.1 hstep
    obtain rfl := Option.some.inj ht'
    rw [System.step] at hinstall
    split_ifs at hinstall
    obtain rfl := Option.some.inj hinstall
    refine ⟨h.mounted, iff_of_false (Option.some_ne_none _) (List.cons_ne_nil _ _), fun _ => rfl,
      fun p k hk => ?_⟩
    obtain rfl := Option.some.inj hk
    by_cases hp : i.kind.has p
    · rw [latest_cons_of_has hp]
      refine ⟨hp, fun image himage => ?_⟩
      obtain rfl := Option.some.inj himage
      exact writeImages_preinst s.env s.partition hp
    · -- no image of the part is pending
      have hlatest : latest p s.installed = none := by
        have hall : i.kind ≠ .all := fun hall => hp (by rw [hall]; rfl)
        rcases hc.resolve_left hall with hu | hu
        · rw [h.none_iff.1 hu]
          rfl
        · have hsome := (h.image p i.kind hu).1
          rwa [hsome, Option.isSome_iff_ne_none, not_not] at hp
      rw [latest_cons_of_not_has hp, hlatest]
      exact ⟨by simpa using hp, fun image himage => absurd himage.symm (Option.some_ne_none _)⟩

/-- The boot after some installs mounts the latest image of each part, and what was mounted
    of a part without one, if all installs were compatible. -/
theorem installs_mounted (hs : s.Factory) (hc : Transition.Meets eventStep Compatible s l)
    (hrun : Transition.run eventStep s l = some t) (hne : t.installed ≠ []) :
    ∃ u, t.eventStep .boot = some u ∧ ∀ p,
      match latest p t.installed with
      | some image => u.partition (p.of u.mounted) = image
      | none => p.of u.mounted = p.of t.mounted := by
  have h : t.Pending :=
    Transition.inv_of_meets (fun _ _ _ h hc hs => h.step hc hs) hs.pending hc hrun
  obtain ⟨u, hu, henv, hmounted, hpartition, -⟩ := t.eventStep_boot
  obtain ⟨k, hk⟩ := Option.ne_none_iff_exists'.1 (mt h.none_iff.1 hne)
  refine ⟨u, hu, fun p => ?_⟩
  have hof : p.of u.mounted = if k.has p then p.of t.env.preinst else p.of t.env.indices := by
    rw [hmounted, henv, Env.checkRollback_of_none (h.rollback hne), Env.checkUpdate_of_some hk,
      ← Env.of_indices_swapPartitions, ← hk]
    rfl
  obtain ⟨hhas, himage⟩ := h.image p k hk
  cases hl : latest p t.installed with
  | some image =>
    rw [hl] at hhas himage
    have hp : k.has p = true := hhas
    simp only [hof, if_pos hp, hpartition]
    exact himage image rfl
  | none =>
    rw [hl] at hhas
    have hp : ¬k.has p = true := by rw [hhas]; exact Bool.false_ne_true
    simp only [hof, if_neg hp, h.mounted]

/-- A media image is followed by an update of both parts. -/
theorem installs_mounted_all : ∃ t u,
    Transition.run eventStep delivered
        [.boot, .install ⟨.media, (0, 1)⟩, .install ⟨.all, (2, 3)⟩] = some t ∧
      t.eventStep .boot = some u ∧ u.partition u.mounted.1 = 2 ∧ u.partition u.mounted.2 = 3 := by
  have hend : (Transition.run eventStep delivered
      [.boot, .install ⟨.media, (0, 1)⟩, .install ⟨.all, (2, 3)⟩]).map
        (fun t => (t.installed.isEmpty, latest .firmware t.installed, latest .media t.installed)) =
      some (false, some 2, some 3) := by decide +kernel
  obtain ⟨t, hrun, ht⟩ := Option.map_eq_some_iff.1 hend
  simp only [Prod.mk.injEq] at ht
  obtain ⟨hne, hfw, hmedia⟩ := ht
  obtain ⟨u, hu, hmounted⟩ := installs_mounted factory_delivered (by decide +kernel) hrun
    (by rintro h; rw [h] at hne; cases hne)
  have h₁ := hmounted .firmware
  have h₂ := hmounted .media
  rw [hfw] at h₁
  rw [hmedia] at h₂
  exact ⟨t, u, hrun, hu, h₁, h₂⟩

/-- A firmware image followed by a media image is not mounted. -/
theorem installs_mounted_fails_of_media : ∃ t u,
    Transition.run eventStep delivered
        [.boot, .install ⟨.firmware, (1, 0)⟩, .install ⟨.media, (0, 2)⟩] = some t ∧
      latest .firmware t.installed = some 1 ∧
      t.eventStep .boot = some u ∧ u.partition u.mounted.1 = 0 := by
  have hend : (Transition.run eventStep delivered
      [.boot, .install ⟨.firmware, (1, 0)⟩, .install ⟨.media, (0, 2)⟩]).map
        (fun t => (latest .firmware t.installed,
          (t.eventStep .boot).map fun u => u.partition u.mounted.1)) =
      some (some 1, some 0) := by decide +kernel
  obtain ⟨t, hrun, ht⟩ := Option.map_eq_some_iff.1 hend
  obtain ⟨hlatest, hboot⟩ := Prod.mk.inj ht
  obtain ⟨u, hu, hmounted⟩ := Option.map_eq_some_iff.1 hboot
  exact ⟨t, u, hrun, hlatest, hu, hmounted⟩

end System

end EW8.Boot
