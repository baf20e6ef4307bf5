import EW8.Boot.Partitions

/-!
# Rollback of an update

A boot that activates an update swaps its partitions, keeps its kind in
`rollback_status`, and sets the restart count to zero. Until a boot is confirmed, or
something else is installed, every later boot counts up, before it mounts anything, and
the one that finds the count at its limit swaps the partitions back. Power losses only
make the count go up faster.

`ab_updates` says that the third later boot that mounts the partitions mounts what had
been mounted before the update; that no partition whose image was confirmed is swapped
back; and that no install writes to a partition in use.
-/

namespace EW8.Boot

/-- The device boots, loses power or starts its application, without a confirmation or an
    install. -/
def SysAction.IsBoot {ι : Type*} : SysAction ι → Prop
  | .confirm => False
  | .install _ => False
  | _ => True

/-- A boot that has counted up has not mounted anything yet. -/
def Phase.owed : Phase → ℕ
  | .rolled _ _ => 1
  | .updated _ _ => 1
  | _ => 0

namespace System

variable {ι : Type*} {s s₀ t : System ι} {a : SysAction ι} {l : List (SysAction ι)}

/-- The images mounted, or mounted last. -/
def images (s : System ι) : ι × ι := (s.partition s.mounted.1, s.partition s.mounted.2)

/-- The next step of the boot activates an update. -/
def Activates (s : System ι) : Prop :=
  ∃ vars resetCache, s.phase = .rolled vars resetCache ∧ vars.updateStatus ≠ none

/-- The action mounts the partitions. -/
def mountsBy (s : System ι) : SysAction ι → ℕ
  | .advance => match s.phase with
    | .updated _ _ => 1
    | _ => 0
  | _ => 0

/-- How often the actions `l` mount the partitions. -/
def mounts : System ι → List (SysAction ι) → ℕ
  | _, [] => 0
  | s, a :: l => s.mountsBy a + match s.step a with
    | some t => mounts t l
    | none => 0

/-- Of the update that the next step of the boot activates: once that boot has ended, with
    a loss of power, and the partitions have been mounted three times, without a
    confirmation or an install, what is mounted is what had been before. -/
def TrialEnds (s : System ι) : Prop :=
  ∀ s₁ l₁ s₂ s₃ l₂ t, s.step .advance = some s₁ →
    Transition.run step s₁ l₁ = some s₂ → (∀ a ∈ l₁, a.IsBoot) →
    s₂.step .powerLoss = some s₃ →
    Transition.run step s₃ l₂ = some t → (∀ a ∈ l₂, a.IsBoot) →
    3 ≤ mounts s₃ l₂ → t.images = s.images ∧ t.env.rollbackStatus = none

/-- If the next step of the boot rolls partitions back, then their images have not been
    confirmed. -/
def ConfirmedStays (s : System ι) : Prop :=
  ∀ vars, s.phase = .read vars → ¬vars.AttemptsLeft → ∀ k ∈ vars.rollbackStatus,
    ∀ p, k.has p → s.confirmed (p.of vars.indices) = false

/-- An install writes to no partition that is mounted. -/
def InstallsAside (s : System ι) : Prop :=
  ∀ i t, s.step (.install i) = some t → ∀ w ∈ installWrites s.env i,
    w.1 ≠ s.mounted.1 ∧ w.1 ≠ s.mounted.2

/-! ## Updates on trial -/

/-- An update is pending for what is mounted; and its images, or those on trial, are not
    confirmed. -/
structure TrialInv (s : System ι) : Prop where
  pending : s.env.updateStatus ≠ none → s.mounted = s.env.indices
  preinst : ∀ k ∈ s.env.updateStatus, ∀ p, k.has p → s.confirmed (p.of s.env.preinst) = false
  indices : ∀ k ∈ s.env.rollbackStatus, ∀ p, k.has p → s.confirmed (p.of s.env.indices) = false

theorem Factory.trialInv (h : s.Factory) : s.TrialInv where
  pending hne := by rw [h.env] at hne; exact absurd rfl hne
  preinst k hk := by rw [h.env] at hk; cases hk
  indices k hk := by rw [h.env] at hk; cases hk

theorem Boots.trialInv (hi : s.Inv) (h : s.TrialInv) (hb : s.Boots t) : t.TrialInv := by
  cases hb with
  | read hp => exact ⟨h.pending, h.preinst, h.indices⟩
  | rolled hp =>
    cases hk : s.env.rollbackStatus with
    | none =>
      simp only [Env.checkRollback_of_none hk]
      exact ⟨h.pending, h.preinst, h.indices⟩
    | some k =>
      -- with an update on trial, none is pending
      have hu : s.env.updateStatus = none := hi.env.exclusive.resolve_left (by simp [hk])
      by_cases hleft : s.env.AttemptsLeft
      · simp only [Env.checkRollback_of_left hk hleft]
        exact ⟨h.pending, h.preinst, h.indices⟩
      · simp only [Env.checkRollback_of_not_left hk hleft]
        have hu' := (s.env.updateStatus_performUpdateRollback).trans hu
        exact ⟨fun hne => absurd hu' hne, fun k hk => absurd (hu'.symm.trans hk) nofun, nofun⟩
  | @updated r hp =>
    cases hk : s.env.updateStatus with
    | none =>
      simp only [Env.checkUpdate_of_none hk]
      exact ⟨h.pending, h.preinst, h.indices⟩
    | some k =>
      simp only [Env.checkUpdate_of_some hk]
      refine ⟨fun hne => absurd rfl hne, nofun, fun k' hk' p hp => ?_⟩
      obtain rfl : k = k' := Option.some.inj (hk.symm.trans hk')
      rw [Env.indices_completePreviousUpdate hk, Env.of_indices_swapPartitions, if_pos hp]
      exact h.preinst k hk p hp
  | mounted hp => exact ⟨fun _ => rfl, h.preinst, h.indices⟩
  | up hp => exact ⟨h.pending, h.preinst, h.indices⟩

/-- Every step keeps it. -/
theorem TrialInv.step (hi : s.Inv) (h : s.TrialInv) (hstep : s.step a = some t) :
    t.TrialInv := by
  cases a with
  | powerOn =>
    rw [System.step] at hstep
    split_ifs at hstep
    obtain rfl := Option.some.inj hstep
    exact ⟨h.pending, h.preinst, h.indices⟩
  | advance => exact (hi.boots hstep).trialInv hi h
  | powerLoss =>
    obtain rfl := Option.some.inj hstep
    exact ⟨h.pending, h.preinst, h.indices⟩
  | confirm =>
    rw [System.step] at hstep
    split_ifs at hstep
    obtain rfl := Option.some.inj hstep
    refine ⟨fun hne => absurd rfl hne, fun k hk => ?_, fun k hk => ?_⟩
    · cases hk
    · cases hk
  | install i =>
    rw [System.step] at hstep
    split_ifs at hstep with hp
    obtain rfl := Option.some.inj hstep
    refine ⟨fun _ => hi.mounted (by rw [hp]; trivial), fun k hk p hp => ?_, fun k hk => ?_⟩
    swap
    · cases hk
    obtain rfl := Option.some.inj hk
    -- the images written are new
    have hmem : p.of s.env.preinst ∈ (installWrites s.env i).map Prod.fst := by
      simp only [installWrites, List.map_map, List.mem_map, List.mem_filter]
      exact ⟨p, ⟨by cases p <;> simp, hp⟩, rfl⟩
    have hcontains := List.contains_iff_mem.2 hmem
    change (s.confirmed (p.of s.env.preinst) &&
      !((installWrites s.env i).map Prod.fst).contains (p.of s.env.preinst)) = false
    rw [hcontains]
    exact Bool.and_false _
  | start forced testing =>
    rw [System.step] at hstep
    split_ifs at hstep
    obtain rfl := Option.some.inj hstep
    exact ⟨h.pending, h.preinst, h.indices⟩

/-! ## The end of a trial -/

/-- The partitions `before` were in use before an update of the kind `k`, which has not been
    confirmed since; the partitions hold the images `P`. Either the update is still on
    trial, or it has been rolled back. -/
structure OnTrial (before : ℕ × ℕ) (k : ImageKind) (P : ℕ → ι) (s : System ι) : Prop where
  partition : s.partition = P
  update : s.env.updateStatus = none
  trial : s.env.rollbackStatus = some k ∧ (s.env.swapPartitions (some k)).indices = before ∨
    s.env.rollbackStatus = none ∧ s.env.indices = before

/-- The partitions have been mounted `n` times since the boot that activated the update: no
    more often than the boots have been counted, while it is on trial. -/
structure Counted (before : ℕ × ℕ) (n : ℕ) (s : System ι) : Prop where
  count : s.env.rollbackStatus ≠ none → n + s.phase.owed ≤ s.env.rollbackRestartCount
  done : 3 ≤ n → s.mounted = before ∧ s.env.rollbackStatus = none

variable {before : ℕ × ℕ} {k : ImageKind} {P : ℕ → ι} {n : ℕ}

theorem Boots.onTrial (h : OnTrial before k P s) (hb : s.Boots t) : OnTrial before k P t := by
  cases hb with
  | read hp => exact ⟨h.partition, h.update, h.trial⟩
  | rolled hp =>
    rcases h.trial with ⟨hk, hbefore⟩ | ⟨hk, hbefore⟩
    · by_cases hleft : s.env.AttemptsLeft
      · simp only [Env.checkRollback_of_left hk hleft]
        refine ⟨h.partition, h.update, .inl ⟨hk, ?_⟩⟩
        rw [← hbefore]
        refine Env.indices_swapPartitions_of_indices ?_ k
        rfl
      · simp only [Env.checkRollback_of_not_left hk hleft]
        exact ⟨h.partition, s.env.updateStatus_performUpdateRollback.trans h.update,
          .inr ⟨rfl, (Env.indices_performUpdateRollback hk).trans hbefore⟩⟩
    · simp only [Env.checkRollback_of_none hk]
      exact ⟨h.partition, h.update, .inr ⟨hk, hbefore⟩⟩
  | updated hp =>
    simp only [Env.checkUpdate_of_none h.update]
    exact ⟨h.partition, h.update, h.trial⟩
  | mounted hp => exact ⟨h.partition, h.update, h.trial⟩
  | up hp => exact ⟨h.partition, h.update, h.trial⟩

theorem OnTrial.step (hi : s.Inv) (h : OnTrial before k P s) (ha : a.IsBoot)
    (hstep : s.step a = some t) : OnTrial before k P t := by
  cases a with
  | powerOn =>
    rw [System.step] at hstep
    split_ifs at hstep
    obtain rfl := Option.some.inj hstep
    exact ⟨h.partition, h.update, h.trial⟩
  | advance => exact (hi.boots hstep).onTrial h
  | powerLoss =>
    obtain rfl := Option.some.inj hstep
    exact ⟨h.partition, h.update, h.trial⟩
  | confirm => exact ha.elim
  | install i => exact ha.elim
  | start forced testing =>
    rw [System.step] at hstep
    split_ifs at hstep
    obtain rfl := Option.some.inj hstep
    exact ⟨h.partition, h.update, h.trial⟩

theorem Boots.counted (hi : s.Inv) (h : OnTrial before k P s) (hc : Counted before n s)
    (hb : s.Boots t) : Counted before (n + s.mountsBy .advance) t := by
  cases hb with
  | read hp =>
    rw [mountsBy, hp]
    have hcount := hc.count
    rw [hp] at hcount
    exact ⟨hcount, hc.done⟩
  | rolled hp =>
    rw [mountsBy, hp]
    have hcount := hc.count
    rw [hp] at hcount
    rcases h.trial with ⟨hk, -⟩ | ⟨hk, -⟩
    · have hlt : ¬3 ≤ n := fun h3 => by
        have := (hc.done h3).2
        rw [hk] at this
        cases this
      by_cases hleft : s.env.AttemptsLeft
      · simp only [Env.checkRollback_of_left hk hleft]
        exact ⟨fun _ => Nat.succ_le_succ (hcount (by simp [hk])), fun h3 => absurd h3 hlt⟩
      · simp only [Env.checkRollback_of_not_left hk hleft]
        exact ⟨fun hne => absurd rfl hne, fun h3 => absurd h3 hlt⟩
    · simp only [Env.checkRollback_of_none hk]
      exact ⟨fun hne => absurd hk hne, hc.done⟩
  | updated hp =>
    rw [mountsBy, hp]
    have hcount := hc.count
    rw [hp] at hcount
    simp only [Env.checkUpdate_of_none h.update]
    exact ⟨hcount, hc.done⟩
  | mounted hp =>
    rw [mountsBy, hp]
    have hcount := hc.count
    rw [hp] at hcount
    refine ⟨hcount, fun h3 => ?_⟩
    -- the count is at most 2, so that the third time the update is not on trial any more
    rcases h.trial with ⟨hk, -⟩ | ⟨hk, hbefore⟩
    · have hle : n + 1 ≤ s.env.rollbackRestartCount := hcount (by simp [hk])
      have hmax := hi.env.count_le
      change 3 ≤ n + 1 at h3
      omega
    · exact ⟨hbefore, hk⟩
  | up hp =>
    rw [mountsBy, hp]
    have hcount := hc.count
    rw [hp] at hcount
    exact ⟨hcount, hc.done⟩

theorem Counted.step (hi : s.Inv) (h : OnTrial before k P s) (hc : Counted before n s)
    (ha : a.IsBoot) (hstep : s.step a = some t) : Counted before (n + s.mountsBy a) t := by
  cases a with
  | powerOn =>
    rw [System.step] at hstep
    split_ifs at hstep with hp
    obtain rfl := Option.some.inj hstep
    have hcount := hc.count
    rw [hp] at hcount
    exact ⟨hcount, hc.done⟩
  | advance => exact (hi.boots hstep).counted hi h hc
  | powerLoss =>
    obtain rfl := Option.some.inj hstep
    exact ⟨fun hne => (Nat.le_add_right _ _).trans (hc.count hne), hc.done⟩
  | confirm => exact ha.elim
  | install i => exact ha.elim
  | start forced testing =>
    rw [System.step] at hstep
    split_ifs at hstep with hp
    obtain rfl := Option.some.inj hstep
    exact ⟨hc.count, hc.done⟩

theorem OnTrial.run (hi : s.Inv) (h : OnTrial before k P s) (ha : ∀ a ∈ l, a.IsBoot)
    (hrun : Transition.run System.step s l = some t) : OnTrial before k P t := by
  induction l generalizing s with
  | nil => exact Option.some.inj hrun ▸ h
  | cons a l ih =>
    obtain ⟨s', hs', hrun⟩ := Option.bind_eq_some_iff.1 hrun
    obtain ⟨ha, hl⟩ := List.forall_mem_cons.1 ha
    exact ih (hi.step hs') (h.step hi ha hs') hl hrun

theorem Counted.run (hi : s.Inv) (h : OnTrial before k P s) (hc : Counted before n s)
    (ha : ∀ a ∈ l, a.IsBoot) (hrun : Transition.run System.step s l = some t) :
    Counted before (n + mounts s l) t := by
  induction l generalizing s n with
  | nil => exact Option.some.inj hrun ▸ hc
  | cons a l ih =>
    obtain ⟨s', hs', hrun⟩ := Option.bind_eq_some_iff.1 hrun
    obtain ⟨ha, hl⟩ := List.forall_mem_cons.1 ha
    have hc' := ih (hi.step hs') (h.step hi ha hs') (hc.step hi h ha hs') hl hrun
    rwa [mounts, hs', ← Nat.add_assoc]

/-- The boot that activates an update starts its trial. -/
theorem onTrial_of_activates (hi : s.Inv) (ht : s.TrialInv) (hact : s.Activates)
    (hstep : s.step .advance = some t) : ∃ k, OnTrial s.mounted k s.partition t := by
  obtain ⟨vars, r, hp, hne⟩ := hact
  obtain rfl := hi.vars vars (by rw [hp]; rfl)
  obtain ⟨k, hk⟩ := Option.ne_none_iff_exists'.1 hne
  have hb := hi.boots hstep
  cases hb with
  | updated hp' =>
    simp only [Env.checkUpdate_of_some hk]
    have hindices := Env.indices_completePreviousUpdate hk
    refine ⟨k, rfl, rfl, .inl ⟨hk, ?_⟩⟩
    rw [ht.pending hne, ← hi.env.swapPartitions_swapPartitions k]
    exact Env.indices_swapPartitions_of_indices hindices k
  | read hp' => rw [hp] at hp'; cases hp'
  | rolled hp' => rw [hp] at hp'; cases hp'
  | mounted hp' => rw [hp] at hp'; cases hp'
  | up hp' => rw [hp] at hp'; cases hp'

theorem trialEnds (hi : s.Inv) (ht : s.TrialInv) (hact : s.Activates) : s.TrialEnds := by
  intro s₁ l₁ s₂ s₃ l₂ t h₁ hrun₁ hl₁ h₃ hrun₂ hl₂ hmounts
  obtain ⟨k, htrial₁⟩ := onTrial_of_activates hi ht hact h₁
  have hi₁ := hi.step h₁
  have hi₂ := hi₁.run hrun₁
  have hboot : (SysAction.powerLoss : SysAction ι).IsBoot := trivial
  have htrial₃ := (htrial₁.run hi₁ hl₁ hrun₁).step hi₂ hboot h₃
  have hi₃ := hi₂.step h₃
  have hcounted₃ : Counted s.mounted 0 s₃ := by
    obtain rfl := Option.some.inj h₃
    exact ⟨fun _ => Nat.zero_le _, fun h => absurd h (by decide)⟩
  have hcounted := hcounted₃.run hi₃ htrial₃ hl₂ hrun₂
  obtain ⟨hmounted, hnone⟩ := hcounted.done (by rwa [Nat.zero_add])
  refine ⟨?_, hnone⟩
  rw [images, images, hmounted, (htrial₃.run hi₃ hl₂ hrun₂).partition]

/-- In every run of boots, power losses, confirmations and installs, an update that is not
    confirmed is rolled back before the third boot after its activation mounts anything, no
    confirmed image is rolled back, and no install writes to a mounted partition. -/
theorem ab_updates (hs : s₀.Factory) (hrun : Transition.run step s₀ l = some s) :
    (s.Activates → s.TrialEnds) ∧ s.ConfirmedStays ∧ s.InstallsAside := by
  have hI : ∀ (s : System ι) (a : SysAction ι) (t : System ι), s.Inv ∧ s.TrialInv →
      s.step a = some t → t.Inv ∧ t.TrialInv :=
    fun _ _ _ hi hs => ⟨hi.1.step hs, hi.2.step hi.1 hs⟩
  obtain ⟨hi, ht⟩ := Transition.inv_of_run hI ⟨hs.inv, hs.trialInv⟩ hrun
  refine ⟨trialEnds hi ht, ?_, ?_⟩
  · intro vars hp _ k hk p hkp
    obtain rfl := hi.vars vars (by rw [hp]; rfl)
    exact ht.indices k hk p hkp
  · intro i t hstep w hw
    rw [System.step] at hstep
    split_ifs at hstep with hp
    have hmounted : s.mounted = s.env.indices := hi.mounted (by rw [hp]; trivial)
    obtain ⟨p, -, hpw⟩ := mem_installWrites (List.mem_map_of_mem hw)
    rw [hpw, hmounted]
    exact ⟨hi.env.of_preinst_ne p .firmware, hi.env.of_preinst_ne p .media⟩

/-- An update of both parts is installed, and about to be activated. -/
def updatePending : List (SysAction ℕ) :=
  bootActions ++ [.install ⟨.all, (1, 2)⟩, .powerLoss, .powerOn, .advance, .advance]

/-- Three boots without a confirmation. -/
def threeBoots : List (SysAction ℕ) :=
  bootActions ++ .powerLoss :: bootActions ++ .powerLoss :: bootActions

/-- Power is lost right after the activation; the third boot after it is back to the images
    as delivered. -/
theorem ab_updates_three_boots : ∃ s t, Transition.run step delivered updatePending = some s ∧
    Transition.run step s (.advance :: .powerLoss :: threeBoots) = some t ∧
      t.images = s.images ∧ t.env.rollbackStatus = none := by
  have hend : (Transition.run step delivered updatePending).map (fun s => (s.phase,
      (Transition.run step s (.advance :: .powerLoss :: threeBoots)).isSome,
      (Transition.run step s [.advance, .powerLoss]).map fun s => mounts s threeBoots)) =
      some (.rolled ⟨5, 3, 0, none, some .all⟩ false, true, some 3) := by decide +kernel
  obtain ⟨s, hrun, hs⟩ := Option.map_eq_some_iff.1 hend
  simp only [Prod.mk.injEq, Option.isSome_iff_exists, Option.map_eq_some_iff] at hs
  obtain ⟨hphase, ⟨t, ht⟩, s₃, hs₃, hmounts⟩ := hs
  have hact : s.Activates := ⟨_, _, hphase, by simp⟩
  have htrial := (ab_updates factory_delivered hrun).1 hact
  obtain ⟨s₁, h₁, hrun₁⟩ := Option.bind_eq_some_iff.1 ht
  obtain ⟨s₂, h₂, hrun₂⟩ := Option.bind_eq_some_iff.1 hrun₁
  have hs₂ : s₂ = s₃ := by
    simp only [Transition.run, h₁, h₂, Option.bind_some, Option.some.injEq] at hs₃
    exact hs₃
  have hboots : ∀ a ∈ threeBoots, a.IsBoot := by
    simp [threeBoots, bootActions, SysAction.IsBoot]
  exact ⟨s, t, hrun, ht, htrial s₁ [] s₁ s₂ threeBoots t h₁ rfl (by simp) h₂ hrun₂ hboots
    (by rw [hs₂, hmounts])⟩

end System

end EW8.Boot
