import EW8.Lib.Transition

/-!
# Updates by alternating partitions

The firmware and the media of the device each have two partitions, of which one is
mounted. An update is written to the others by `update.sh`, that leaves its kind in
`update_status`. The next boot, in `swupdate_mount_partitions`, swaps the partitions of
that kind, and keeps the kind in `rollback_status` until the boot is confirmed. If it
is not, it swaps them back after some boots. Every write of the environment is taken
as atomic.

* `Env` and the functions of the scripts on it;
* `System`, a device with its partitions, and its steps (`System.step`): a boot takes
  one step for each block of `swupdate_mount_partitions`, and power may be lost between
  any two of them;
* `System.Inv`, what holds in every state of a run.
-/

namespace EW8.Boot

/-- The kinds of updates; the status `none` is no kind. -/
inductive ImageKind
  | all
  | firmware
  | media
  deriving DecidableEq

/-- The environment variables. -/
structure Env where
  fwPartitionIndex : ℕ
  mediaPartitionIndex : ℕ
  rollbackRestartCount : ℕ
  rollbackStatus : Option ImageKind
  updateStatus : Option ImageKind
  deriving DecidableEq

/-- The built-in defaults. -/
def Env.default : Env where
  fwPartitionIndex := 5
  mediaPartitionIndex := 3
  rollbackRestartCount := 0
  rollbackStatus := none
  updateStatus := none

/-- `swap_media_partition_index`. -/
def swapMediaPartitionIndex (i : ℕ) : ℕ := if i = 3 then 6 else 3

/-- `swap_fw_partition_index`. -/
def swapFwPartitionIndex (i : ℕ) : ℕ := if i = 5 then 7 else 5

/-- The two parts of the software. -/
inductive Part
  | firmware
  | media
  deriving DecidableEq

/-- What a pair, of the firmware and the media, has for a part. -/
def Part.of {α : Type*} : Part → α × α → α
  | .firmware => Prod.fst
  | .media => Prod.snd

/-- An update of the kind has an image of the part. -/
def ImageKind.has : ImageKind → Part → Bool
  | .all, _ => true
  | .firmware, p => p = .firmware
  | .media, p => p = .media

namespace Env

/-- The partitions of a boot, of the firmware and the media. -/
def indices (e : Env) : ℕ × ℕ := (e.fwPartitionIndex, e.mediaPartitionIndex)

/-- The branches of `complete_previous_update` and `perform_update_rollback`: all, media,
    or else firmware. -/
def swapPartitions (e : Env) (status : Option ImageKind) : Env :=
  if status = some .all then
    { e with
      fwPartitionIndex := swapFwPartitionIndex e.fwPartitionIndex
      mediaPartitionIndex := swapMediaPartitionIndex e.mediaPartitionIndex }
  else if status = some .media then
    { e with mediaPartitionIndex := swapMediaPartitionIndex e.mediaPartitionIndex }
  else { e with fwPartitionIndex := swapFwPartitionIndex e.fwPartitionIndex }

/-- `complete_previous_update`. -/
def completePreviousUpdate (e : Env) : Env :=
  { e.swapPartitions e.updateStatus with
    rollbackStatus := e.updateStatus
    updateStatus := none
    rollbackRestartCount := 0 }

/-- `perform_update_rollback`. -/
def performUpdateRollback (e : Env) : Env :=
  { e.swapPartitions e.rollbackStatus with
    rollbackStatus := none
    rollbackRestartCount := 0 }

/-- `MAX_FAILED_BOOT_ATTEMTS`. -/
def maxFailedBootAttempts : ℕ := 2

/-- `rollback_restart_count < MAX_FAILED_BOOT_ATTEMTS`: the test compares strings. -/
def AttemptsLeft (e : Env) : Prop :=
  toString e.rollbackRestartCount < toString maxFailedBootAttempts

instance (e : Env) : Decidable e.AttemptsLeft := inferInstanceAs (Decidable (_ < _))

/-- The variables after the rollback block of `swupdate_mount_partitions`, and
    `do_reset_cache`. -/
def checkRollback (e : Env) : Env × Bool :=
  if e.rollbackStatus ≠ none then
    if e.AttemptsLeft then ({ e with rollbackRestartCount := e.rollbackRestartCount + 1 }, false)
    else (e.performUpdateRollback, true)
  else (e, false)

/-- The variables after its update block, and `do_reset_cache`. -/
def checkUpdate (e : Env) (resetCache : Bool) : Env × Bool :=
  if e.updateStatus ≠ none then (e.completePreviousUpdate, true) else (e, resetCache)

/-- What `updater_successful_boot.sh` writes. -/
def successfulBoot (e : Env) : Env :=
  { e with
    rollbackRestartCount := 0
    rollbackStatus := none
    updateStatus := none }

/-- The links `/dev/fwupdate` and `/dev/mediaupdate` set by the `preinst` phase of
    `update.sh`. -/
def preinst (e : Env) : ℕ × ℕ :=
  (swapFwPartitionIndex e.fwPartitionIndex, swapMediaPartitionIndex e.mediaPartitionIndex)

/-- What its `postinst` phase writes; it sets a variable `rollback_status_count`, not the
    restart count. -/
def postinst (e : Env) (kind : ImageKind) : Env :=
  { e with updateStatus := some kind, rollbackStatus := none }

end Env

/-! ## The system -/

/-- An update, with its images, of the firmware and the media; those its kind does not
    have are not used. -/
structure Install (ι : Type*) where
  kind : ImageKind
  images : ι × ι

/-- How far a boot has got. -/
inductive Phase
  | off
  /-- `canupdatesvc` starts. -/
  | on
  /-- `read_env_variables` is done. -/
  | read (vars : Env)
  /-- The rollback block is done. -/
  | rolled (vars : Env) (resetCache : Bool)
  /-- The update block is done. -/
  | updated (vars : Env) (resetCache : Bool)
  /-- `mount_partitions` is done. -/
  | mounted (resetCache : Bool)
  /-- `swupdate_mount_partitions` is done. -/
  | up
  deriving DecidableEq

/-- A device with images `ι` in its partitions. -/
structure System (ι : Type*) where
  env : Env
  partition : ℕ → ι
  phase : Phase
  /-- The firmware and the media partition mounted last. -/
  mounted : ℕ × ℕ
  /-- How often what is mounted has changed. -/
  epoch : ℕ
  /-- `/home/root/config.dat`: the epoch it was written in. -/
  configDat : Option ℕ
  /-- The image of the partition was mounted when a boot was confirmed. -/
  confirmed : ℕ → Bool
  /-- The installs since the last mount, the latest first. -/
  installed : List (Install ι)

/-- What can happen to the device. -/
inductive SysAction (ι : Type*)
  | powerOn
  /-- The boot takes its next step. -/
  | advance
  /-- At any time; also, the watchdog restarts the device. -/
  | powerLoss
  /-- `updater_successful_boot.sh`. -/
  | confirm
  /-- `update.sh preinst`, the images are written, `update.sh postinst`. -/
  | install (i : Install ι)
  /-- The application starts: with the parsing of the DBC forced, or in testing mode. -/
  | start (forced testing : Bool)

namespace System

variable {ι : Type*}

/-- The partitions an install writes to, with their images. -/
def installWrites (e : Env) (i : Install ι) : List (ℕ × ι) :=
  ([Part.firmware, .media].filter i.kind.has).map fun p => (p.of e.preinst, p.of i.images)

/-- The partitions with the images `w` written. -/
def writeImages (w : List (ℕ × ι)) (partition : ℕ → ι) : ℕ → ι :=
  w.foldl (fun p x => Function.update p x.1 x.2) partition

/-- `CanRxMsg::loadFromStorage`, unless forced, and then `CanRxMsg::saveToStorage`, unless
    testing: nothing is saved if something has been loaded. -/
def startApplication (s : System ι) (forced testing : Bool) : Option ℕ :=
  let isAlreadyLoaded := !forced && s.configDat.isSome
  if testing || isAlreadyLoaded then s.configDat else some s.epoch

/-- The next step of a boot. -/
def advance (s : System ι) : Option (System ι) :=
  match s.phase with
  | .on => some { s with phase := .read s.env }
  | .read vars =>
    let r := vars.checkRollback
    some { s with
      env := if vars.rollbackStatus ≠ none then r.1 else s.env
      phase := .rolled r.1 r.2 }
  | .rolled vars resetCache =>
    let r := vars.checkUpdate resetCache
    some { s with
      env := if vars.updateStatus ≠ none then r.1 else s.env
      phase := .updated r.1 r.2 }
  | .updated vars resetCache =>
    some { s with
      mounted := vars.indices
      epoch := if vars.indices = s.mounted then s.epoch else s.epoch + 1
      installed := []
      phase := .mounted resetCache }
  | .mounted resetCache =>
    some { s with
      configDat := if resetCache then none else s.configDat
      phase := .up }
  | _ => none

/-- One step of the device. -/
def step (s : System ι) : SysAction ι → Option (System ι)
  | .powerOn => if s.phase = .off then some { s with phase := .on } else none
  | .advance => s.advance
  | .powerLoss => some { s with phase := .off }
  | .confirm =>
    if s.phase = .up then
      some { s with
        env := s.env.successfulBoot
        confirmed := fun p => p = s.mounted.1 || p = s.mounted.2 || s.confirmed p }
    else none
  | .install i =>
    if s.phase = .up then
      let w := installWrites s.env i
      some { s with
        env := s.env.postinst i.kind
        partition := writeImages w s.partition
        confirmed := fun p => s.confirmed p && !(w.map Prod.fst).contains p
        installed := i :: s.installed }
    else none
  | .start forced testing =>
    if s.phase = .up then some { s with configDat := s.startApplication forced testing }
    else none

/-- The device as delivered. -/
structure Factory (s : System ι) : Prop where
  env : s.env = .default
  phase : s.phase = .off
  mounted : s.mounted = (5, 3)
  configDat : s.configDat = none
  installed : s.installed = []

end System

/-- A device with the images `0`. -/
def System.delivered : System ℕ where
  env := .default
  partition := fun _ => 0
  phase := .off
  mounted := (5, 3)
  epoch := 0
  configDat := none
  confirmed := fun _ => false
  installed := []

theorem System.factory_delivered : System.delivered.Factory := ⟨rfl, rfl, rfl, rfl, rfl⟩

/-- A boot that is not interrupted. -/
def bootActions {ι : Type*} : List (SysAction ι) :=
  [.powerOn, .advance, .advance, .advance, .advance, .advance]

/-! ## The indices and the statuses -/

/-- The indices and the restart count of a device in use. -/
structure Env.Wf (e : Env) : Prop where
  fw : e.fwPartitionIndex = 5 ∨ e.fwPartitionIndex = 7
  media : e.mediaPartitionIndex = 3 ∨ e.mediaPartitionIndex = 6
  count_le : e.rollbackRestartCount ≤ 2
  exclusive : e.rollbackStatus = none ∨ e.updateStatus = none

section

variable {i : ℕ}

theorem swapFwPartitionIndex_mem (i : ℕ) :
    swapFwPartitionIndex i = 5 ∨ swapFwPartitionIndex i = 7 := by
  rw [swapFwPartitionIndex]
  split_ifs <;> simp

theorem swapMediaPartitionIndex_mem (i : ℕ) :
    swapMediaPartitionIndex i = 3 ∨ swapMediaPartitionIndex i = 6 := by
  rw [swapMediaPartitionIndex]
  split_ifs <;> simp

theorem swapFwPartitionIndex_ne (i : ℕ) : swapFwPartitionIndex i ≠ i := by
  rw [swapFwPartitionIndex]
  split_ifs <;> omega

theorem swapMediaPartitionIndex_ne (i : ℕ) : swapMediaPartitionIndex i ≠ i := by
  rw [swapMediaPartitionIndex]
  split_ifs <;> omega

/-- Swapping twice changes nothing. -/
theorem swapFwPartitionIndex_swap (h : i = 5 ∨ i = 7) :
    swapFwPartitionIndex (swapFwPartitionIndex i) = i := by
  rcases h with rfl | rfl <;> rfl

theorem swapMediaPartitionIndex_swap (h : i = 3 ∨ i = 6) :
    swapMediaPartitionIndex (swapMediaPartitionIndex i) = i := by
  rcases h with rfl | rfl <;> rfl

end

namespace Env

variable {e : Env} {k : ImageKind}

/-- The swap of a kind goes to the partitions an install of the kind writes to. -/
theorem of_indices_swapPartitions (e : Env) (k : ImageKind) (p : Part) :
    p.of (e.swapPartitions (some k)).indices =
      if k.has p then p.of e.preinst else p.of e.indices := by
  cases k <;> cases p <;> rfl

theorem indices_swapPartitions_of_indices {e' : Env} (h : e.indices = e'.indices)
    (k : ImageKind) : (e.swapPartitions (some k)).indices = (e'.swapPartitions (some k)).indices := by
  obtain ⟨hfw, hmedia⟩ := Prod.mk.inj h
  cases k <;> simp [swapPartitions, indices, hfw, hmedia]

theorem updateStatus_performUpdateRollback (e : Env) :
    e.performUpdateRollback.updateStatus = e.updateStatus := by
  rw [performUpdateRollback, swapPartitions]
  split_ifs <;> rfl

theorem indices_performUpdateRollback (h : e.rollbackStatus = some k) :
    e.performUpdateRollback.indices = (e.swapPartitions (some k)).indices := by
  rw [← h]
  rfl

theorem indices_completePreviousUpdate (h : e.updateStatus = some k) :
    e.completePreviousUpdate.indices = (e.swapPartitions (some k)).indices := by
  rw [← h]
  rfl

/-- Counts up to the limit are compared as numbers. -/
theorem attemptsLeft_iff (h : e.rollbackRestartCount ≤ 2) :
    e.AttemptsLeft ↔ e.rollbackRestartCount < 2 := by
  rw [AttemptsLeft]
  generalize e.rollbackRestartCount = n at h ⊢
  interval_cases n <;> decide

theorem checkRollback_of_none (h : e.rollbackStatus = none) : e.checkRollback = (e, false) := by
  rw [checkRollback, if_neg (not_not.2 h)]

theorem checkRollback_of_left (h : e.rollbackStatus = some k) (hleft : e.AttemptsLeft) :
    e.checkRollback = ({ e with rollbackRestartCount := e.rollbackRestartCount + 1 }, false) := by
  rw [checkRollback, if_pos (by simp [h]), if_pos hleft]

theorem checkRollback_of_not_left (h : e.rollbackStatus = some k) (hleft : ¬e.AttemptsLeft) :
    e.checkRollback = (e.performUpdateRollback, true) := by
  rw [checkRollback, if_pos (by simp [h]), if_neg hleft]

theorem checkUpdate_of_none (h : e.updateStatus = none) (r : Bool) :
    e.checkUpdate r = (e, r) := by
  rw [checkUpdate, if_neg (not_not.2 h)]

theorem checkUpdate_of_some (h : e.updateStatus = some k) (r : Bool) :
    e.checkUpdate r = (e.completePreviousUpdate, true) := by
  rw [checkUpdate, if_pos (by simp [h])]

/-- A block that writes nothing has changed nothing. -/
theorem checkRollback_written (e : Env) :
    (if e.rollbackStatus ≠ none then e.checkRollback.1 else e) = e.checkRollback.1 := by
  split_ifs with h
  · rfl
  · rw [checkRollback_of_none (not_not.1 h)]

theorem checkUpdate_written (e : Env) (r : Bool) :
    (if e.updateStatus ≠ none then (e.checkUpdate r).1 else e) = (e.checkUpdate r).1 := by
  split_ifs with h
  · rfl
  · rw [checkUpdate_of_none (not_not.1 h)]

theorem wf_swapPartitions (h : e.Wf) (k : ImageKind) :
    ((e.swapPartitions (some k)).fwPartitionIndex = 5 ∨
        (e.swapPartitions (some k)).fwPartitionIndex = 7) ∧
      ((e.swapPartitions (some k)).mediaPartitionIndex = 3 ∨
        (e.swapPartitions (some k)).mediaPartitionIndex = 6) := by
  cases k with
  | all => exact ⟨swapFwPartitionIndex_mem _, swapMediaPartitionIndex_mem _⟩
  | firmware => exact ⟨swapFwPartitionIndex_mem _, h.media⟩
  | media => exact ⟨h.fw, swapMediaPartitionIndex_mem _⟩

namespace Wf

theorem checkRollback (h : e.Wf) : e.checkRollback.1.Wf := by
  cases hk : e.rollbackStatus with
  | none => rwa [checkRollback_of_none hk]
  | some k =>
    by_cases hleft : e.AttemptsLeft
    · rw [checkRollback_of_left hk hleft]
      have := (attemptsLeft_iff h.count_le).1 hleft
      exact ⟨h.fw, h.media, by simp only; omega, h.exclusive⟩
    · rw [checkRollback_of_not_left hk hleft]
      obtain ⟨hfw, hmedia⟩ := wf_swapPartitions h k
      rw [← hk] at hfw hmedia
      exact ⟨hfw, hmedia, Nat.zero_le 2, .inl rfl⟩

theorem checkUpdate (h : e.Wf) (r : Bool) : (e.checkUpdate r).1.Wf := by
  cases hk : e.updateStatus with
  | none => rwa [checkUpdate_of_none hk]
  | some k =>
    rw [checkUpdate_of_some hk]
    obtain ⟨hfw, hmedia⟩ := wf_swapPartitions h k
    rw [← hk] at hfw hmedia
    exact ⟨hfw, hmedia, Nat.zero_le 2, .inr rfl⟩

theorem successfulBoot (h : e.Wf) : e.successfulBoot.Wf :=
  ⟨h.fw, h.media, Nat.zero_le 2, .inl rfl⟩

theorem postinst (h : e.Wf) (k : ImageKind) : (e.postinst k).Wf :=
  ⟨h.fw, h.media, h.count_le, .inl rfl⟩

end Wf

end Env

/-- The partitions to be written are not those in use, whichever part they are of. -/
theorem Env.Wf.of_preinst_ne {e : Env} (h : e.Wf) (p q : Part) :
    p.of e.preinst ≠ q.of e.indices := by
  have hfw := swapFwPartitionIndex_mem e.fwPartitionIndex
  have hmedia := swapMediaPartitionIndex_mem e.mediaPartitionIndex
  have hfw' := h.fw
  have hmedia' := h.media
  cases p <;> cases q
  · exact swapFwPartitionIndex_ne _
  · change swapFwPartitionIndex e.fwPartitionIndex ≠ e.mediaPartitionIndex
    omega
  · change swapMediaPartitionIndex e.mediaPartitionIndex ≠ e.fwPartitionIndex
    omega
  · exact swapMediaPartitionIndex_ne _

/-- Swapping the partitions of a kind again gives them back. -/
theorem Env.Wf.swapPartitions_swapPartitions {e : Env} (h : e.Wf) (k : ImageKind) :
    ((e.swapPartitions (some k)).swapPartitions (some k)).indices = e.indices := by
  have hfw := swapFwPartitionIndex_swap h.fw
  have hmedia := swapMediaPartitionIndex_swap h.media
  cases k with
  | all => exact Prod.ext hfw hmedia
  | firmware => exact Prod.ext hfw rfl
  | media => exact Prod.ext rfl hmedia

namespace System

variable {ι : Type*} {e : Env} {i : Install ι} {partition : ℕ → ι}

/-- An install writes its images to the partitions not in use. -/
theorem writeImages_preinst (e : Env) (partition : ℕ → ι) {p : Part} (hp : i.kind.has p) :
    writeImages (installWrites e i) partition (p.of e.preinst) = p.of i.images := by
  have hne : e.preinst.1 ≠ e.preinst.2 := by
    have hfw := swapFwPartitionIndex_mem e.fwPartitionIndex
    have hmedia := swapMediaPartitionIndex_mem e.mediaPartitionIndex
    change swapFwPartitionIndex e.fwPartitionIndex ≠ swapMediaPartitionIndex e.mediaPartitionIndex
    omega
  obtain ⟨k, images⟩ := i
  cases k with
  | all =>
    cases p with
    | firmware => exact (Function.update_of_ne hne _ _).trans (Function.update_self _ _ _)
    | media => exact Function.update_self _ _ _
  | firmware =>
    cases p with
    | firmware => exact Function.update_self _ _ _
    | media => exact absurd hp Bool.false_ne_true
  | media =>
    cases p with
    | firmware => exact absurd hp Bool.false_ne_true
    | media => exact Function.update_self _ _ _

theorem mem_installWrites {n : ℕ} (h : n ∈ (installWrites e i).map Prod.fst) :
    ∃ p, i.kind.has p ∧ n = p.of e.preinst := by
  simp only [installWrites, List.map_map, List.mem_map, List.mem_filter] at h
  obtain ⟨p, hp, rfl⟩ := h
  exact ⟨p, hp.2, rfl⟩

end System

/-! ## Runs -/

/-- The variables of a boot under way. -/
def Phase.vars : Phase → Option Env
  | .read vars => some vars
  | .rolled vars _ => some vars
  | .updated vars _ => some vars
  | _ => none

/-- The partitions are mounted. -/
def Phase.Mounted : Phase → Prop
  | .mounted _ => True
  | .up => True
  | _ => False

namespace System

variable {ι : Type*} {s t : System ι} {a : SysAction ι}

/-- What holds in every state of a run: a boot has the variables of the environment, and
    mounts what they say. -/
structure Inv (s : System ι) : Prop where
  env : s.env.Wf
  vars : ∀ vars ∈ s.phase.vars, vars = s.env
  mounted : s.phase.Mounted → s.mounted = s.env.indices

theorem Factory.inv (h : s.Factory) : s.Inv where
  env := by
    rw [h.env]
    exact ⟨.inl rfl, .inl rfl, Nat.zero_le 2, .inl rfl⟩
  vars := by rw [h.phase]; exact nofun
  mounted := by rw [h.phase]; exact False.elim

/-- The steps of a boot. -/
inductive Boots (s : System ι) : System ι → Prop
  | read (hp : s.phase = .on) : Boots s { s with phase := .read s.env }
  | rolled (hp : s.phase = .read s.env) :
      Boots s { s with
        env := s.env.checkRollback.1
        phase := .rolled s.env.checkRollback.1 s.env.checkRollback.2 }
  | updated {r : Bool} (hp : s.phase = .rolled s.env r) :
      Boots s { s with
        env := (s.env.checkUpdate r).1
        phase := .updated (s.env.checkUpdate r).1 (s.env.checkUpdate r).2 }
  | mounted {r : Bool} (hp : s.phase = .updated s.env r) :
      Boots s { s with
        mounted := s.env.indices
        epoch := if s.env.indices = s.mounted then s.epoch else s.epoch + 1
        installed := []
        phase := .mounted r }
  | up {r : Bool} (hp : s.phase = .mounted r) :
      Boots s { s with configDat := if r then none else s.configDat, phase := .up }

/-- In a run, the environment decides what a boot does. -/
theorem Inv.boots (h : s.Inv) (hstep : s.advance = some t) : s.Boots t := by
  have hvars := h.vars
  cases hp : s.phase with
  | off => rw [advance, hp] at hstep; cases hstep
  | up => rw [advance, hp] at hstep; cases hstep
  | on =>
    rw [advance, hp] at hstep
    obtain rfl := Option.some.inj hstep
    exact .read hp
  | read vars =>
    rw [hp] at hvars
    obtain rfl := hvars vars rfl
    simp only [advance, hp, Env.checkRollback_written] at hstep
    obtain rfl := Option.some.inj hstep
    exact .rolled hp
  | rolled vars r =>
    rw [hp] at hvars
    obtain rfl := hvars vars rfl
    simp only [advance, hp, Env.checkUpdate_written] at hstep
    obtain rfl := Option.some.inj hstep
    exact .updated hp
  | updated vars r =>
    rw [hp] at hvars
    obtain rfl := hvars vars rfl
    rw [advance, hp] at hstep
    obtain rfl := Option.some.inj hstep
    exact .mounted hp
  | mounted r =>
    rw [advance, hp] at hstep
    obtain rfl := Option.some.inj hstep
    exact .up hp

theorem Boots.inv (h : s.Inv) (hb : s.Boots t) : t.Inv := by
  cases hb with
  | read hp => exact ⟨h.env, by rintro _ ⟨⟩; rfl, False.elim⟩
  | rolled hp => exact ⟨h.env.checkRollback, by rintro _ ⟨⟩; rfl, False.elim⟩
  | updated hp => exact ⟨h.env.checkUpdate _, by rintro _ ⟨⟩; rfl, False.elim⟩
  | mounted hp => exact ⟨h.env, nofun, fun _ => rfl⟩
  | up hp => exact ⟨h.env, nofun, fun _ => h.mounted (by rw [hp]; trivial)⟩

/-- Every step keeps the invariant. -/
theorem Inv.step (h : s.Inv) (hstep : s.step a = some t) : t.Inv := by
  cases a with
  | powerOn =>
    rw [System.step] at hstep
    split_ifs at hstep
    obtain rfl := Option.some.inj hstep
    exact ⟨h.env, nofun, False.elim⟩
  | advance => exact (h.boots hstep).inv h
  | powerLoss =>
    obtain rfl := Option.some.inj hstep
    exact ⟨h.env, nofun, False.elim⟩
  | confirm =>
    rw [System.step] at hstep
    split_ifs at hstep with hp
    obtain rfl := Option.some.inj hstep
    refine ⟨h.env.successfulBoot, ?_, fun _ => h.mounted (by rw [hp]; trivial)⟩
    rw [hp]
    exact nofun
  | install i =>
    rw [System.step] at hstep
    split_ifs at hstep with hp
    obtain rfl := Option.some.inj hstep
    refine ⟨h.env.postinst i.kind, ?_, fun _ => h.mounted (by rw [hp]; trivial)⟩
    rw [hp]
    exact nofun
  | start forced testing =>
    rw [System.step] at hstep
    split_ifs at hstep with hp
    obtain rfl := Option.some.inj hstep
    refine ⟨h.env, ?_, fun _ => h.mounted (by rw [hp]; trivial)⟩
    rw [hp]
    exact nofun

theorem Inv.run (h : s.Inv) {l : List (SysAction ι)}
    (hrun : Transition.run System.step s l = some t) :
    t.Inv :=
  Transition.inv_of_run (fun _ _ _ hi hs => hi.step hs) h hrun

end System

end EW8.Boot
