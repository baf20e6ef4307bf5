import EW8.Tree.RootedTree
import EW8.Lib.Transition

/-!
# Activation in the tree

A node counts its own activation and those of its children; the children of a mode group do not
count. The display items activate the nodes that are linked to them, and those deactivate
themselves; the counts of the nodes above change along with them, up to the nearest mode group.

* Without mutex groups, the counts are right after every run (`counts_of_run`).
* In a mutex group, a node that is activated takes the activation of its siblings away, but not
  what it counts for the nodes above. So the counts are right as long as no node is activated
  while a sibling in a mutex group is active (`balanced_of_run`); else a group stays active for
  ever.
-/

namespace EW8.Tree

namespace RootedTree

variable (t : RootedTree)

/-- `handleMutexGroup`. -/
def handleMutexGroup (p : ℕ) (activationSemaphore : ℕ → ℤ) : ℕ → ℤ :=
  fun c => if c ∈ t.children p then 0 else activationSemaphore c

/-- `RootedTreeNode::activate`. -/
def activate (n : ℕ) (activationSemaphore : ℕ → ℤ) : ℕ → ℤ :=
  match _h : t.parent n with
  | none => Function.update activationSemaphore n (activationSemaphore n + 1)
  | some p =>
    let s := if t.mutexGroup p then t.handleMutexGroup p activationSemaphore else activationSemaphore
    let s := Function.update s n (s n + 1)
    if t.modeGroup p then s else activate p s
termination_by n
decreasing_by exact t.lt_of_parent ‹_›

/-- `RootedTreeNode::deactivate`. -/
def deactivate (n : ℕ) (activationSemaphore : ℕ → ℤ) : ℕ → ℤ :=
  if activationSemaphore n = 0 then activationSemaphore
  else
    let s := Function.update activationSemaphore n (activationSemaphore n - 1)
    match _h : t.parent n with
    | none => s
    | some p => if t.modeGroup p then s else deactivate p s
termination_by n
decreasing_by exact t.lt_of_parent ‹_›

/-- `RootedTreeNode::forceDeactivation`. -/
def forceDeactivation (n : ℕ) (activationSemaphore : ℕ → ℤ) : ℕ → ℤ :=
  if activationSemaphore n = 0 then activationSemaphore else t.deactivate n activationSemaphore

/-- `findByEntityType`: the nodes that are linked to an item, in the order of their creation. -/
def findByEntityType (type : ℕ) : List ℕ :=
  (List.range t.size).filter fun n => t.type n = some type

/-- `MainProcess::activateInternal`. -/
def activateInternal (alert : ℕ) (activationSemaphore : ℕ → ℤ) : ℕ → ℤ :=
  if alert = ALERT_NONE then activationSemaphore
  else (t.findByEntityType alert).foldl
    (fun s n => if s n > 0 then s else t.activate n s) activationSemaphore

/-- `MainProcess::deactivate`. -/
def deactivateItem (alert : ℕ) (activationSemaphore : ℕ → ℤ) : ℕ → ℤ :=
  if alert = ALERT_NONE then activationSemaphore
  else (t.findByEntityType alert).foldl
    (fun s n => if s n = 0 then s else t.deactivate n s) activationSemaphore

/-- What can happen. -/
inductive Event
  | activate (alert : ℕ)
  | deactivate (alert : ℕ)
  | forceDeactivation (n : ℕ)
  deriving DecidableEq

/-- A step. -/
def step (activationSemaphore : ℕ → ℤ) : Event → ℕ → ℤ
  | .activate alert => t.activateInternal alert activationSemaphore
  | .deactivate alert => t.deactivateItem alert activationSemaphore
  | .forceDeactivation n => t.forceDeactivation n activationSemaphore

/-- One event after the other, with no node active at first. -/
def run (l : List Event) : ℕ → ℤ := l.foldl t.step fun _ => 0

/-! ## One node -/

/-- The nodes that are linked are atomic, or mode groups. -/
def Linked : Prop := ∀ n, t.type n ≠ none → t.children n = [] ∨ t.modeGroup n = true

/-- The children of a mutex group are atomic. -/
def Atomic : Prop := ∀ p, t.mutexGroup p = true → ∀ c ∈ t.children p, t.children c = []

/-- No sibling in a mutex group is active. -/
def Alone (s : ℕ → ℤ) (n : ℕ) : Prop :=
  ∀ p, t.parent n = some p → t.mutexGroup p = true → ∀ c ∈ t.children p, s c = 0

variable {t} {s own : ℕ → ℤ} {n m p : ℕ}

theorem activate_of_none (hp : t.parent n = none) :
    t.activate n s = Function.update s n (s n + 1) := by
  rw [activate]
  split
  · rfl
  · simp_all

theorem activate_of_some (hp : t.parent n = some p) : t.activate n s =
    let s := if t.mutexGroup p then t.handleMutexGroup p s else s
    let s := Function.update s n (s n + 1)
    if t.modeGroup p then s else t.activate p s := by
  rw [activate]
  split
  · simp_all
  · obtain rfl := Option.some.inj (hp.symm.trans ‹_›)
    rfl

theorem deactivate_of_none (hp : t.parent n = none) (hn : s n ≠ 0) :
    t.deactivate n s = Function.update s n (s n - 1) := by
  rw [deactivate, if_neg hn]
  dsimp only
  split
  · rfl
  · simp_all

theorem deactivate_of_some (hp : t.parent n = some p) (hn : s n ≠ 0) : t.deactivate n s =
    if t.modeGroup p then Function.update s n (s n - 1)
    else t.deactivate p (Function.update s n (s n - 1)) := by
  rw [deactivate, if_neg hn]
  dsimp only
  split
  · simp_all
  · obtain rfl := Option.some.inj (hp.symm.trans ‹_›)
    rfl

theorem handleMutexGroup_eq_self (h : ∀ c ∈ t.children p, s c = 0) : t.handleMutexGroup p s = s := by
  funext c
  unfold handleMutexGroup
  split_ifs with hc
  · exact (h c hc).symm
  · rfl

/-- A node above another one is not in a mutex group. -/
theorem Atomic.alone (h : t.Atomic) (hp : t.parent n = some p) : t.Alone s p := by
  intro q hq hmutex
  have hnil := h q hmutex p (t.mem_children.2 hq)
  have hn := t.mem_children.2 hp
  rw [hnil] at hn
  exact absurd hn List.not_mem_nil

/-- What is owed to a node is made up for by its activation, up to the nearest mode group. -/
theorem counts_activate_of_owes (hatomic : t.Atomic) (h : t.Owes t.modeGroup own s n 1)
    (halone : t.Alone s n) : t.Counts t.modeGroup own (t.activate n s) := by
  induction n using Nat.strong_induction_on generalizing s with
  | _ n ih =>
    cases hp : t.parent n with
    | none =>
      rw [activate_of_none hp]
      exact h.counts fun p hp' => by rw [hp] at hp'; cases hp'
    | some p =>
      have hsame : (if t.mutexGroup p then t.handleMutexGroup p s else s) = s := by
        split_ifs with hmutex
        · exact handleMutexGroup_eq_self (halone p hp hmutex)
        · rfl
      rw [activate_of_some hp, hsame]
      dsimp only
      split_ifs with hmode
      · exact h.counts fun q hq => by rwa [← Option.some.inj (hp.symm.trans hq)]
      · exact ih p (t.lt_of_parent hp) (h.raise hp (Bool.eq_false_iff.2 hmode)) (hatomic.alone hp)

/-- And its deactivation does not stop before, at a count of zero. -/
theorem counts_deactivate_of_owes (hown : ∀ m, 0 ≤ own m) (h : t.Owes t.modeGroup own s n (-1)) :
    t.Counts t.modeGroup own (t.deactivate n s) := by
  induction n using Nat.strong_induction_on generalizing s with
  | _ n ih =>
    have hbelow : ∀ m, n < m → 0 ≤ s m :=
      Forest.nonneg_of_lt hown fun m hm => by simpa [hm.ne'] using h m
    have hcounted : 0 ≤ t.counted t.modeGroup s n :=
      Forest.counted_nonneg fun c hc => hbelow c (Forest.lt_of_mem_children hc)
    have hn : s n ≠ 0 := by
      have hn := h n
      rw [if_pos rfl] at hn
      have := hown n
      omega
    cases hp : t.parent n with
    | none =>
      rw [deactivate_of_none hp hn]
      exact h.counts fun p hp' => by rw [hp] at hp'; cases hp'
    | some p =>
      rw [deactivate_of_some hp hn]
      split_ifs with hmode
      · exact h.counts fun q hq => by rwa [← Option.some.inj (hp.symm.trans hq)]
      · exact ih p (t.lt_of_parent hp) (h.raise hp (Bool.eq_false_iff.2 hmode))

theorem counts_activate (hatomic : t.Atomic) (h : t.Counts t.modeGroup own s) (halone : t.Alone s n) :
    t.Counts t.modeGroup (Function.update own n (own n + 1)) (t.activate n s) :=
  counts_activate_of_owes hatomic (h.owes n 1) halone

theorem counts_deactivate (h : t.Counts t.modeGroup own s) (hown : ∀ m, 0 ≤ own m) (hn : 0 < own n) :
    t.Counts t.modeGroup (Function.update own n (own n - 1)) (t.deactivate n s) := by
  refine counts_deactivate_of_owes (fun m => ?_) (h.owes n (-1))
  by_cases hm : m = n
  · subst hm
    rw [Function.update_self]
    omega
  · rw [Function.update_of_ne hm]
    exact hown m

/-- A node that no child counts for. -/
theorem eq_own (h : t.Counts t.modeGroup own s) (hn : t.children n = [] ∨ t.modeGroup n = true) :
    s n = own n := by
  rw [h n]
  rcases hn with hn | hn
  · rw [Forest.counted_of_children_eq_nil hn, add_zero]
  · rw [Forest.counted_of_closed hn, add_zero]

theorem type_of_mem (h : n ∈ t.findByEntityType m) : t.type n ≠ none := by
  have htype := of_decide_eq_true (List.mem_filter.1 h).2
  rw [htype]
  exact Option.some_ne_none m

/-! ## Trees without mutex groups -/

section

variable (t)

/-- What display items and nodes ask for: the nodes that are activated themselves. -/
def activated (o : ℕ → Bool) : Event → ℕ → Bool
  | .activate alert => fun n => o n || (alert ≠ ALERT_NONE && n ∈ t.findByEntityType alert)
  | .deactivate alert => fun n => o n && !(alert ≠ ALERT_NONE && n ∈ t.findByEntityType alert)
  | .forceDeactivation k => fun n => o n && n ≠ k

/-- The same after a run. -/
def activatedAfter (l : List Event) : ℕ → Bool := l.foldl t.activated fun _ => false

end

variable {o : ℕ → Bool} {l : List ℕ}

/-- The counts are right, where the nodes of `o` are activated themselves. -/
structure Active (t : RootedTree) (o : ℕ → Bool) (s : ℕ → ℤ) : Prop where
  counts : t.Counts t.modeGroup (fun n => (o n).toNat) s
  linked : ∀ n, o n = true → t.type n ≠ none

theorem alone_of_not_mutexGroup (h : ∀ p, t.mutexGroup p = false) : t.Alone s n := fun p _ hp => by
  rw [h p] at hp
  cases hp

theorem Active.eq (h : Active t o s) (hlinked : t.Linked) (hn : t.type n ≠ none) :
    s n = (o n).toNat := eq_own h.counts (hlinked n hn)

theorem Active.activate (h : Active t o s) (hmutex : ∀ p, t.mutexGroup p = false)
    (hn : t.type n ≠ none) (hoff : o n = false) :
    Active t (fun m => o m || m = n) (t.activate n s) where
  counts := by
    have hatomic : t.Atomic := fun p hp => by rw [hmutex p] at hp; cases hp
    have hcounts := counts_activate hatomic h.counts (alone_of_not_mutexGroup hmutex (n := n))
    convert hcounts using 1
    funext m
    by_cases hm : m = n
    · simp [hm, hoff]
    · simp [hm]
  linked m hm := by
    rcases Bool.or_eq_true_iff.1 hm with hm | hm
    · exact h.linked m hm
    · rwa [of_decide_eq_true hm]

theorem Active.deactivate (h : Active t o s) (hon : o n = true) :
    Active t (fun m => o m && m ≠ n) (t.deactivate n s) where
  counts := by
    have hcounts := counts_deactivate h.counts (fun m => Int.natCast_nonneg _)
      (n := n) (by simp [hon])
    convert hcounts using 1
    funext m
    by_cases hm : m = n
    · simp [hm, hon]
    · simp [hm]
  linked m hm := h.linked m (Bool.and_eq_true_iff.1 hm).1

/-- The nodes of an item are activated one after the other. -/
theorem Active.activateAll (h : Active t o s) (hlinked : t.Linked)
    (hmutex : ∀ p, t.mutexGroup p = false) (hl : ∀ n ∈ l, t.type n ≠ none) :
    Active t (fun m => o m || m ∈ l) (l.foldl (fun s n => if s n > 0 then s else t.activate n s) s) := by
  induction l generalizing o s with
  | nil => simpa using h
  | cons n l ih =>
    obtain ⟨hn, hl⟩ := List.forall_mem_cons.1 hl
    have heq := h.eq hlinked hn
    rw [List.foldl_cons]
    -- the node is activated, if it has not been before
    have hnode : Active t (fun m => o m || m = n) (if s n > 0 then s else t.activate n s) := by
      cases hoff : o n with
      | false =>
        rw [if_neg (by simp [heq, hoff])]
        exact h.activate hmutex hn hoff
      | true =>
        rw [if_pos (by simp [heq, hoff])]
        convert h using 2 with m
        by_cases hm : m = n
        · simp [hm, hoff]
        · simp [hm]
    convert ih hnode hl using 2 with m
    simp [Bool.or_assoc]

/-- And deactivated. -/
theorem Active.deactivateAll (h : Active t o s) (hlinked : t.Linked)
    (hl : ∀ n ∈ l, t.type n ≠ none) :
    Active t (fun m => o m && m ∉ l) (l.foldl (fun s n => if s n = 0 then s else t.deactivate n s) s) := by
  induction l generalizing o s with
  | nil => simpa using h
  | cons n l ih =>
    obtain ⟨hn, hl⟩ := List.forall_mem_cons.1 hl
    have heq := h.eq hlinked hn
    rw [List.foldl_cons]
    have hnode : Active t (fun m => o m && m ≠ n) (if s n = 0 then s else t.deactivate n s) := by
      cases hon : o n with
      | false =>
        rw [if_pos (by simp [heq, hon])]
        convert h using 2 with m
        by_cases hm : m = n
        · simp [hm, hon]
        · simp [hm]
      | true =>
        rw [if_neg (by simp [heq, hon])]
        exact h.deactivate hon
    convert ih hnode hl using 2 with m
    simp [Bool.and_assoc]

/-- No event makes a count wrong. -/
theorem Active.step (h : Active t o s) (hlinked : t.Linked) (hmutex : ∀ p, t.mutexGroup p = false)
    {e : Event} (he : ∀ n, e = .forceDeactivation n → t.type n ≠ none) :
    Active t (t.activated o e) (t.step s e) := by
  cases e with
  | activate alert =>
    simp only [RootedTree.step, activateInternal, activated]
    split_ifs with hnone
    · simpa [hnone] using h
    · simpa [hnone] using h.activateAll hlinked hmutex fun n => type_of_mem
  | deactivate alert =>
    simp only [RootedTree.step, deactivateItem, activated]
    split_ifs with hnone
    · simpa [hnone] using h
    · simpa [hnone] using h.deactivateAll hlinked fun n => type_of_mem
  | forceDeactivation n =>
    have hforce := h.deactivateAll hlinked (l := [n]) (by simpa using he n rfl)
    simpa [RootedTree.step, forceDeactivation, activated] using hforce

/-- Without mutex groups, and where the nodes that are linked are atomic or mode groups, every count
    is right after every run: a node counts its own activation and, if not a mode group, the counts
    of its children. So a group is active just if a child is. -/
theorem counts_of_run (t : RootedTree) (hlinked : t.Linked) (hmutex : ∀ p, t.mutexGroup p = false)
    (l : List Event) (hl : ∀ n, .forceDeactivation n ∈ l → t.type n ≠ none) (n : ℕ) :
    t.run l n = (t.activatedAfter l n).toNat +
        (if t.modeGroup n then 0 else ((t.children n).map (t.run l)).sum) ∧
      0 ≤ t.run l n ∧
      (t.modeGroup n = false → t.children n ≠ [] →
        (0 < t.run l n ↔ ∃ c ∈ t.children n, 0 < t.run l c)) := by
  have hactive : Active t (t.activatedAfter l) (t.run l) := by
    induction l using List.reverseRecOn with
    | nil => exact ⟨fun n => by simp [activatedAfter, run, Forest.counted], by simp [activatedAfter]⟩
    | append_singleton l e ih =>
      unfold run activatedAfter
      rw [List.foldl_concat, List.foldl_concat]
      refine (ih fun n hn => hl n (List.mem_append_left _ hn)).step hlinked hmutex fun n hn => ?_
      exact hl n (List.mem_append_right _ (List.mem_singleton.2 hn.symm))
  have hnonneg := hactive.counts.nonneg fun _ => Int.natCast_nonneg _
  refine ⟨hactive.counts n, hnonneg n, fun hmode hne => ?_⟩
  -- a group is not linked
  have hoff : t.activatedAfter l n = false := by
    rw [← Bool.not_eq_true]
    intro hon
    rcases hlinked n (hactive.linked n hon) with hnil | hmode'
    · exact hne hnil
    · rw [hmode] at hmode'
      cases hmode'
  rw [← Forest.counted_pos_iff hmode hnonneg, hactive.counts n]
  simp [hoff]

/-- An atomic item. -/
def atomicItem (type : ℕ) : QObject := .mk ⟨none, some type, none, none⟩ []

/-- A mode group that is an item itself, with another item in it, in a group. -/
def modeItem : RootedTree :=
  (QObject.mk ⟨none, some QtQG, none, none⟩
    [.mk ⟨none, some 4, some true, none⟩ [atomicItem 5], atomicItem 5]).rootedTree

theorem counts_of_run_modeItem :
    let s := modeItem.run [.activate 4, .activate 5, .forceDeactivation 3]
    s 0 = ((modeItem.activatedAfter [.activate 4, .activate 5, .forceDeactivation 3] 0).toNat : ℤ) +
        (if modeItem.modeGroup 0 then 0 else ((modeItem.children 0).map s).sum) ∧
      0 ≤ s 0 ∧ (modeItem.modeGroup 0 = false → modeItem.children 0 ≠ [] →
        (0 < s 0 ↔ ∃ c ∈ modeItem.children 0, 0 < s c)) := by
  refine counts_of_run modeItem (fun n => ?_) (fun p => ?_) _ (fun n hn => ?_) 0
  · match n with
    | 0 | 1 | 2 | 3 => decide +kernel
    | n + 4 => exact fun h => absurd rfl h
  · match p with
    | 0 | 1 | 2 | 3 => rfl
    | p + 4 => rfl
  · have hn : n = 3 := by simpa using hn
    rw [hn]
    decide +kernel

/-! ## Mutex groups -/

/-- The counts are right, and one child of a mutex group is active at most. -/
structure Balanced (t : RootedTree) (s : ℕ → ℤ) : Prop where
  linked : ∀ n, t.type n ≠ none → s n = 0 ∨ s n = 1
  counts : t.Counts t.modeGroup (fun n => if t.type n = none then 0 else s n) s
  exclusive : ∀ p, t.mutexGroup p = true → ∀ a ∈ t.children p, ∀ b ∈ t.children p,
    s a ≠ 0 → s b ≠ 0 → a = b

/-- No node is activated while a sibling in a mutex group is active, or is activated as well; unless
    the mutex group is a mode group, too. And only a node that is linked deactivates itself. -/
def Undisturbed (t : RootedTree) (s : ℕ → ℤ) : Event → Prop
  | .activate alert => alert ≠ ALERT_NONE → ∀ n ∈ t.findByEntityType alert, s n = 0 →
    ∀ p, t.parent n = some p → t.mutexGroup p = true → t.modeGroup p = false →
      ∀ c ∈ t.children p, c ≠ n → s c = 0 ∧ c ∉ t.findByEntityType alert
  | .deactivate _ => True
  | .forceDeactivation n => t.type n ≠ none

instance (s : ℕ → ℤ) : ∀ e, Decidable (t.Undisturbed s e)
  | .activate alert =>
    inferInstanceAs (Decidable (alert ≠ ALERT_NONE → ∀ n ∈ t.findByEntityType alert, s n = 0 →
      ∀ p ∈ t.parent n, t.mutexGroup p = true → t.modeGroup p = false →
        ∀ c ∈ t.children p, c ≠ n → s c = 0 ∧ c ∉ t.findByEntityType alert))
  | .deactivate _ => isTrue trivial
  | .forceDeactivation n => inferInstanceAs (Decidable (t.type n ≠ none))

/-- The numbers of the nodes that nothing counts for. -/
theorem Balanced.of_counts (hlinked : t.Linked) (hatomic : t.Atomic)
    (hown : ∀ n, own n = 0 ∨ own n = 1) (hnone : ∀ n, t.type n = none → own n = 0)
    (h : t.Counts t.modeGroup own s)
    (hexcl : ∀ p, t.mutexGroup p = true → ∀ a ∈ t.children p, ∀ b ∈ t.children p,
      own a ≠ 0 → own b ≠ 0 → a = b) : t.Balanced s where
  linked n hn := by
    rw [eq_own h (hlinked n hn)]
    exact hown n
  counts := by
    have heq : (fun n => if t.type n = none then 0 else s n) = own := by
      funext n
      split_ifs with hn
      · exact (hnone n hn).symm
      · exact eq_own h (hlinked n hn)
    rwa [heq]
  exclusive p hp a ha b hb hsa hsb := by
    rw [eq_own h (.inl (hatomic p hp a ha))] at hsa
    rw [eq_own h (.inl (hatomic p hp b hb))] at hsb
    exact hexcl p hp a ha b hb hsa hsb

/-- What the nodes count by themselves. -/
theorem Balanced.zero_or_one (h : t.Balanced s) (n : ℕ) :
    (if t.type n = none then 0 else s n) = 0 ∨ (if t.type n = none then 0 else s n) = 1 := by
  split_ifs with hn
  · exact .inl rfl
  · exact h.linked n hn

/-- The nodes of a mutex group are leaves: all that they count, they count by themselves. -/
theorem Balanced.eq_of_mutexGroup (h : t.Balanced s) (hatomic : t.Atomic) {c : ℕ}
    (hp : t.mutexGroup p = true) (hc : c ∈ t.children p) :
    s c = if t.type c = none then 0 else s c :=
  eq_own h.counts (.inl (hatomic p hp c hc))

/-- A node is activated that has no active sibling in a mutex group: the others that nothing counts
    for stay as they are. -/
theorem Balanced.activate_alone (h : t.Balanced s) (hlinked : t.Linked) (hatomic : t.Atomic)
    (hn : t.type n ≠ none) (h0 : s n = 0) (halone : t.Alone s n) :
    t.Balanced (t.activate n s) ∧
      ∀ m, m ≠ n → t.children m = [] ∨ t.modeGroup m = true → t.activate n s m = s m := by
  have hcounts := counts_activate hatomic h.counts halone
  refine ⟨.of_counts hlinked hatomic (fun m => ?_) (fun m hm => ?_) hcounts ?_, fun m hm hm' => ?_⟩
  · by_cases hm : m = n
    · simp [hm, hn, h0]
    · rw [Function.update_of_ne hm]
      exact h.zero_or_one m
  · have hmn : m ≠ n := fun hmn => hn (hmn ▸ hm)
    rw [Function.update_of_ne hmn, if_pos hm]
  · intro p hp a ha b hb hsa hsb
    by_cases han : a = n
    · -- a sibling of `n` is not active
      by_contra hab
      have hbn : b ≠ n := fun hbn => hab (han.trans hbn.symm)
      rw [Function.update_of_ne hbn, ← h.eq_of_mutexGroup hatomic hp hb] at hsb
      exact hsb (halone p (t.mem_children.1 (han ▸ ha)) hp b hb)
    · by_cases hbn : b = n
      · rw [Function.update_of_ne han, ← h.eq_of_mutexGroup hatomic hp ha] at hsa
        exact absurd (halone p (t.mem_children.1 (hbn ▸ hb)) hp a ha) hsa
      · rw [Function.update_of_ne han, ← h.eq_of_mutexGroup hatomic hp ha] at hsa
        rw [Function.update_of_ne hbn, ← h.eq_of_mutexGroup hatomic hp hb] at hsb
        exact h.exclusive p hp a ha b hb hsa hsb
  · rw [eq_own hcounts hm', Function.update_of_ne hm, ← eq_own h.counts hm']

/-- In a mutex group that is a mode group, too, nothing counts: the siblings are deactivated. -/
theorem Balanced.activate_mode (h : t.Balanced s) (hlinked : t.Linked) (hatomic : t.Atomic)
    (hn : t.type n ≠ none) (hp : t.parent n = some p) (hmutex : t.mutexGroup p = true)
    (hmode : t.modeGroup p = true) :
    t.Balanced (t.activate n s) ∧
      ∀ m, m ≠ n → t.activate n s m = if m ∈ t.children p then 0 else s m := by
  have hact : ∀ m, t.activate n s m = if m = n then 1 else if m ∈ t.children p then 0 else s m := by
    intro m
    rw [activate_of_some hp]
    simp only [hmutex, hmode, if_true, Function.update_apply, handleMutexGroup,
      t.mem_children.2 hp, zero_add]
  have hframe : ∀ m, m ≠ n → t.activate n s m = if m ∈ t.children p then 0 else s m :=
    fun m hm => by rw [hact, if_neg hm]
  have hown : ∀ m, (if t.type m = none then 0 else t.activate n s m) = 0 ∨
      (if t.type m = none then 0 else t.activate n s m) = 1 := by
    intro m
    split_ifs with hm
    · exact .inl rfl
    · rw [hact]
      split_ifs
      · exact .inr rfl
      · exact .inl rfl
      · exact h.linked m hm
  refine ⟨.of_counts hlinked hatomic hown (fun m hm => if_pos hm) (fun m => ?_) ?_, hframe⟩
  · -- the children that have changed do not count
    have hcounted : t.counted t.modeGroup (t.activate n s) m = t.counted t.modeGroup s m := by
      by_cases hmp : m = p
      · rw [hmp, Forest.counted_of_closed hmode, Forest.counted_of_closed hmode]
      · refine Forest.counted_congr fun c hc => ?_
        have hcp : c ∉ t.children p := fun hcp => hmp
          (Option.some.inj ((t.mem_children.1 hc).symm.trans (t.mem_children.1 hcp)))
        have hcn : c ≠ n := fun hcn => hcp (hcn ▸ t.mem_children.2 hp)
        rw [hframe c hcn, if_neg hcp]
    rw [hcounted]
    split_ifs with hm
    · have hmn : m ≠ n := fun hmn => hn (hmn ▸ hm)
      have hcount : s m = (if t.type m = none then 0 else s m) + t.counted t.modeGroup s m := h.counts m
      rw [if_pos hm] at hcount
      rw [hframe m hmn, ← hcount]
      split_ifs with hmp
      · -- an atomic sibling that is not linked
        rw [hcount, Forest.counted_of_children_eq_nil (hatomic p hmutex m hmp), add_zero]
      · rfl
    · rcases hlinked m hm with hm' | hm'
      · rw [Forest.counted_of_children_eq_nil hm', add_zero]
      · rw [Forest.counted_of_closed hm', add_zero]
  · intro q hq a ha b hb hsa hsb
    have hsa := (ite_ne_left_iff.1 hsa).2.symm
    have hsb := (ite_ne_left_iff.1 hsb).2.symm
    rw [hact] at hsa hsb
    by_cases hqp : q = p
    · -- the group of `n`
      subst hqp
      have hof : ∀ {c}, c ∈ t.children q →
          (if c = n then (1 : ℤ) else if c ∈ t.children q then 0 else s c) ≠ 0 → c = n := by
        intro c hc hne
        by_contra hcn
        rw [if_neg hcn, if_pos hc] at hne
        exact hne rfl
      rw [hof ha hsa, hof hb hsb]
    · have hnot : ∀ {c}, c ∈ t.children q → c ∉ t.children p ∧ c ≠ n := by
        intro c hc
        have hcp : c ∉ t.children p := fun hcp => hqp
          (Option.some.inj ((t.mem_children.1 hc).symm.trans (t.mem_children.1 hcp)))
        exact ⟨hcp, fun hcn => hcp (hcn ▸ t.mem_children.2 hp)⟩
      rw [if_neg (hnot ha).2, if_neg (hnot ha).1] at hsa
      rw [if_neg (hnot hb).2, if_neg (hnot hb).1] at hsb
      exact h.exclusive q hq a ha b hb hsa hsb

theorem Balanced.deactivate (h : t.Balanced s) (hlinked : t.Linked) (hatomic : t.Atomic)
    (hn : t.type n ≠ none) (h1 : s n ≠ 0) : t.Balanced (t.deactivate n s) := by
  have hone : s n = 1 := (h.linked n hn).resolve_left h1
  have hnonneg : ∀ m, 0 ≤ if t.type m = none then 0 else s m := fun m => by
    have := h.zero_or_one m
    omega
  have hcounts := counts_deactivate h.counts hnonneg (n := n) (by rw [if_neg hn, hone]; decide)
  rw [if_neg hn, hone] at hcounts
  -- no other node is active than before
  have hless : ∀ m, Function.update (fun m => if t.type m = none then 0 else s m) n (1 - 1) m ≠ 0 →
      (if t.type m = none then 0 else s m) ≠ 0 := by
    intro m hm
    by_cases hmn : m = n
    · rw [hmn, Function.update_self] at hm
      exact absurd rfl hm
    · rwa [Function.update_of_ne hmn] at hm
  refine .of_counts hlinked hatomic (fun m => ?_) (fun m hm => ?_) hcounts ?_
  · by_cases hmn : m = n
    · rw [hmn, Function.update_self]
      exact .inl rfl
    · rw [Function.update_of_ne hmn]
      exact h.zero_or_one m
  · have hmn : m ≠ n := fun hmn => hn (hmn ▸ hm)
    rw [Function.update_of_ne hmn, if_pos hm]
  · intro p hp a ha b hb hsa hsb
    refine h.exclusive p hp a ha b hb ?_ ?_
    · rw [h.eq_of_mutexGroup hatomic hp ha]
      exact hless a hsa
    · rw [h.eq_of_mutexGroup hatomic hp hb]
      exact hless b hsb

/-- The nodes of an item are activated one after the other. -/
theorem Balanced.activateAll {l : List ℕ} (h : t.Balanced s) (hlinked : t.Linked)
    (hatomic : t.Atomic) (hl : ∀ n ∈ l, t.type n ≠ none) (hnodup : l.Nodup)
    (hundisturbed : ∀ n ∈ l, s n = 0 → ∀ p, t.parent n = some p → t.mutexGroup p = true →
      t.modeGroup p = false → ∀ c ∈ t.children p, c ≠ n → s c = 0 ∧ c ∉ l) :
    t.Balanced (l.foldl (fun s n => if s n > 0 then s else t.activate n s) s) := by
  induction l generalizing s with
  | nil => exact h
  | cons n l ih =>
    obtain ⟨hn, hl⟩ := List.forall_mem_cons.1 hl
    obtain ⟨hnl, hnodup⟩ := List.nodup_cons.1 hnodup
    rw [List.foldl_cons]
    by_cases hpos : s n > 0
    · rw [if_pos hpos]
      refine ih h hl hnodup fun m hm hm0 p hp hmutex hmode c hc hcm => ?_
      have hc := hundisturbed m (List.mem_cons_of_mem n hm) hm0 p hp hmutex hmode c hc hcm
      exact ⟨hc.1, fun hcl => hc.2 (List.mem_cons_of_mem n hcl)⟩
    · rw [if_neg hpos]
      have h0 : s n = 0 := by
        have := h.linked n hn
        omega
      -- what becomes of the nodes of a mutex group that is not a mode group
      obtain ⟨hbalanced, hframe⟩ : t.Balanced (t.activate n s) ∧ ∀ p, t.mutexGroup p = true →
          t.modeGroup p = false → ∀ c ∈ t.children p, c ≠ n → t.activate n s c = s c := by
        by_cases hgroup : ∃ p, t.parent n = some p ∧ t.mutexGroup p = true ∧ t.modeGroup p = true
        · obtain ⟨p, hp, hmutex, hmode⟩ := hgroup
          have hact := h.activate_mode hlinked hatomic hn hp hmutex hmode
          refine ⟨hact.1, fun q _ hq c hc hcn => ?_⟩
          have hcp : c ∉ t.children p := fun hcp => by
            rw [← Option.some.inj ((t.mem_children.1 hc).symm.trans (t.mem_children.1 hcp)), hq] at hmode
            cases hmode
          rw [hact.2 c hcn, if_neg hcp]
        · have halone : t.Alone s n := by
            intro p hp hmutex c hc
            by_cases hcn : c = n
            · rw [hcn, h0]
            · have hmode : t.modeGroup p = false :=
                Bool.eq_false_iff.2 fun hmode => hgroup ⟨p, hp, hmutex, hmode⟩
              exact (hundisturbed n List.mem_cons_self h0 p hp hmutex hmode c hc hcn).1
          have hact := h.activate_alone hlinked hatomic hn h0 halone
          exact ⟨hact.1, fun q hmutex _ c hc hcn => hact.2 c hcn (.inl (hatomic q hmutex c hc))⟩
      refine ih hbalanced hl hnodup fun m hm hm0 p hp hmutex hmode c hc hcm => ?_
      have hmn : m ≠ n := fun hmn => hnl (hmn ▸ hm)
      have hm0 : s m = 0 := (hframe p hmutex hmode m (t.mem_children.2 hp) hmn).symm.trans hm0
      have hc' := hundisturbed m (List.mem_cons_of_mem n hm) hm0 p hp hmutex hmode c hc hcm
      have hcn : c ≠ n := fun hcn => hc'.2 (hcn ▸ List.mem_cons_self)
      exact ⟨(hframe p hmutex hmode c hc hcn).trans hc'.1,
        fun hcl => hc'.2 (List.mem_cons_of_mem n hcl)⟩

theorem Balanced.deactivateAll {l : List ℕ} (h : t.Balanced s) (hlinked : t.Linked)
    (hatomic : t.Atomic) (hl : ∀ n ∈ l, t.type n ≠ none) :
    t.Balanced (l.foldl (fun s n => if s n = 0 then s else t.deactivate n s) s) := by
  induction l generalizing s with
  | nil => exact h
  | cons n l ih =>
    obtain ⟨hn, hl⟩ := List.forall_mem_cons.1 hl
    rw [List.foldl_cons]
    split_ifs with h0
    · exact ih h hl
    · exact ih (h.deactivate hlinked hatomic hn h0) hl

/-- An event that disturbs no group keeps the counts right. -/
theorem Balanced.step (h : t.Balanced s) (hlinked : t.Linked) (hatomic : t.Atomic) {e : Event}
    (he : t.Undisturbed s e) : t.Balanced (t.step s e) := by
  cases e with
  | activate alert =>
    simp only [RootedTree.step, activateInternal]
    split_ifs with hnone
    · exact h
    · exact h.activateAll hlinked hatomic (fun n => type_of_mem) (List.nodup_range.filter _) (he hnone)
  | deactivate alert =>
    simp only [RootedTree.step, deactivateItem]
    split_ifs
    · exact h
    · exact h.deactivateAll hlinked hatomic fun n => type_of_mem
  | forceDeactivation n =>
    simp only [RootedTree.step, forceDeactivation]
    split_ifs with h0
    · exact h
    · exact h.deactivate hlinked hatomic he h0

theorem balanced_zero (t : RootedTree) : t.Balanced fun _ => 0 where
  linked _ _ := .inl rfl
  counts n := by simp [Forest.counted]
  exclusive _ _ _ _ _ _ h := absurd rfl h

/-- The steps of a run. -/
def steps (t : RootedTree) (s : ℕ → ℤ) (e : Event) : Option (ℕ → ℤ) := some (t.step s e)

/-- A mutex group with the items 4 and 5, under the root. -/
def twoItems : RootedTree :=
  (QObject.mk ⟨none, none, none, none⟩
    [.mk ⟨none, some QtQG, none, some true⟩ [atomicItem 4, atomicItem 5]]).rootedTree

theorem linked_twoItems : twoItems.Linked := by
  intro n
  match n with
  | 0 | 1 | 2 | 3 => decide +kernel
  | n + 4 => exact fun h => absurd rfl h

theorem atomic_twoItems : twoItems.Atomic := by
  intro p
  match p with
  | 0 | 1 | 2 | 3 => decide +kernel
  | p + 4 => exact fun h => Bool.noConfusion h

end RootedTree

end EW8.Tree
