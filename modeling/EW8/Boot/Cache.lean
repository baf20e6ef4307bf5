import EW8.Boot.Partitions

/-!
# The cached signal configuration

The application keeps what it has parsed in `/home/root/config.dat`, and loads it when it
starts again. A boot that swaps partitions removes the file, as it belongs to what was
mounted before. But it does so only at its end, and only that boot knows that it has to:
after a power loss in between, no later boot removes it.

`config_current` says that the file is removed or current whenever the application
starts, if no power is lost in a boot that still has to remove it.
-/

namespace EW8.Boot

/-- A boot under way has swapped partitions, and has not removed the cache yet. -/
def Phase.ResetsCache : Phase → Prop
  | .rolled _ resetCache => resetCache = true
  | .updated _ resetCache => resetCache = true
  | .mounted resetCache => resetCache = true
  | _ => False

instance : DecidablePred Phase.ResetsCache
  | .rolled _ _ => inferInstanceAs (Decidable (_ = _))
  | .updated _ _ => inferInstanceAs (Decidable (_ = _))
  | .mounted _ => inferInstanceAs (Decidable (_ = _))
  | .off => isFalse id
  | .on => isFalse id
  | .read _ => isFalse id
  | .up => isFalse id

namespace System

variable {ι : Type*} {s t : System ι} {a : SysAction ι} {l : List (SysAction ι)}

/-- There is no cache file, or it was written since the last change of a mounted
    partition. -/
def ConfigCurrent (s : System ι) : Prop := s.configDat = none ∨ s.configDat = some s.epoch

/-- Power is not lost between the swap of a partition and the removal of a cache file. -/
def KeepsCache (s : System ι) : SysAction ι → Prop
  | .powerLoss => s.phase.ResetsCache → s.configDat = none
  | _ => True

instance (s : System ι) : DecidablePred s.KeepsCache
  | .powerLoss => inferInstanceAs (Decidable (_ → _))
  | .powerOn => isTrue trivial
  | .advance => isTrue trivial
  | .confirm => isTrue trivial
  | .install _ => isTrue trivial
  | .start _ _ => isTrue trivial

/-- The cache file is to be removed, or is not there, or is current, with no swap
    pending. -/
def CacheInv (s : System ι) : Prop :=
  s.phase.ResetsCache ∨ s.configDat = none ∨
    s.configDat = some s.epoch ∧ s.env.indices = s.mounted

theorem indices_checkRollback {e : Env} (h : e.checkRollback.2 = false) :
    e.checkRollback.1.indices = e.indices := by
  rw [Env.checkRollback] at h ⊢
  split_ifs at h ⊢ <;> rfl

theorem indices_checkUpdate {e : Env} {r : Bool} (h : (e.checkUpdate r).2 = false) :
    (e.checkUpdate r).1.indices = e.indices ∧ r = false := by
  rw [Env.checkUpdate] at h ⊢
  split_ifs at h ⊢
  · exact ⟨rfl, h⟩

theorem Boots.cacheInv (h : s.CacheInv) (hb : s.Boots t) : t.CacheInv := by
  cases hb with
  | read hp =>
    rw [CacheInv, hp] at h
    exact h
  | rolled hp =>
    rw [CacheInv, hp] at h
    cases hr : s.env.checkRollback.2 with
    | true => exact .inl rfl
    | false =>
      have hidx := indices_checkRollback hr
      exact .inr ((h.resolve_left id).imp_right fun hc => ⟨hc.1, hidx.trans hc.2⟩)
  | @updated r hp =>
    rw [CacheInv, hp] at h
    cases hr : (s.env.checkUpdate r).2 with
    | true => exact .inl rfl
    | false =>
      obtain ⟨hidx, rfl⟩ := indices_checkUpdate hr
      exact .inr ((h.resolve_left nofun).imp_right fun hc => ⟨hc.1, hidx.trans hc.2⟩)
  | mounted hp =>
    rw [CacheInv, hp] at h
    refine h.imp_right fun h => h.imp_right fun hc => ⟨?_, rfl⟩
    rw [if_pos hc.2]
    exact hc.1
  | @up r hp =>
    rw [CacheInv, hp] at h
    refine .inr ?_
    cases r with
    | true => exact .inl rfl
    | false => exact h.resolve_left nofun

theorem CacheInv.step (hi : s.Inv) (h : s.CacheInv) (hk : s.KeepsCache a)
    (hstep : s.step a = some t) : t.CacheInv := by
  cases a with
  | powerOn =>
    rw [System.step] at hstep
    split_ifs at hstep with hp
    obtain rfl := Option.some.inj hstep
    rw [CacheInv, hp] at h
    exact h
  | advance => exact (hi.boots hstep).cacheInv h
  | powerLoss =>
    obtain rfl := Option.some.inj hstep
    -- if the removal is lost, then there is nothing to be removed
    exact .inr (h.elim (fun hr => .inl (hk hr)) id)
  | confirm =>
    rw [System.step] at hstep
    split_ifs at hstep with hp
    obtain rfl := Option.some.inj hstep
    exact h
  | install i =>
    rw [System.step] at hstep
    split_ifs at hstep with hp
    obtain rfl := Option.some.inj hstep
    exact h
  | start forced testing =>
    rw [System.step] at hstep
    split_ifs at hstep with hp
    obtain rfl := Option.some.inj hstep
    rw [CacheInv, hp] at h
    have hmounted : s.mounted = s.env.indices := hi.mounted (by rw [hp]; trivial)
    refine .inr ?_
    simp only [startApplication]
    split_ifs
    · exact h.resolve_left id
    · exact .inr ⟨rfl, hmounted.symm⟩

/-- The application runs once, and an update is installed. -/
def updateInstalled : List (SysAction ℕ) :=
  bootActions ++ [.start false false, .install ⟨.all, (1, 1)⟩, .powerLoss]

end System

end EW8.Boot
