import Mathlib

/-!
# Forests

Finitely many nodes, numbered so that a parent comes before its children.

* `Above`: a node and those above it;
* `Counts`: a number for each node that is its own one together with the numbers of its children,
  those of a closed node excepted;
* `Owes`: all numbers are right, but for one node that still has to be raised. Raising it
  (`Owes.raise`) leaves its parent to be raised, unless that is closed (`Owes.counts`).
-/

/-- A forest. -/
structure Forest where
  size : ℕ
  parent : ℕ → Option ℕ
  children : ℕ → List ℕ
  lt_of_parent : ∀ {c p}, parent c = some p → p < c
  lt_size : ∀ {c p}, parent c = some p → c < size
  mem_children : ∀ {c p}, c ∈ children p ↔ parent c = some p
  nodup_children : ∀ p, (children p).Nodup

namespace Forest

variable (F : Forest)

/-- `a` is `n`, or above it. -/
def Above : ℕ → ℕ → Prop := Relation.ReflTransGen fun a n => F.parent n = some a

variable {F} {a b c n m p : ℕ}

theorem lt_of_mem_children (h : c ∈ F.children n) : n < c := F.lt_of_parent (F.mem_children.1 h)

theorem lt_size_of_mem_children (h : c ∈ F.children n) : c < F.size :=
  F.lt_size (F.mem_children.1 h)

namespace Above

theorem refl (n : ℕ) : F.Above n n := Relation.ReflTransGen.refl

theorem le (h : F.Above a n) : a ≤ n := by
  induction h with
  | refl => exact le_rfl
  | tail _ hp ih => exact ih.trans (F.lt_of_parent hp).le

/-- What is below a node is the node itself, or below one of its children. -/
theorem iff_children : F.Above n m ↔ m = n ∨ ∃ c ∈ F.children n, F.Above c m := by
  constructor
  · intro h
    rcases Relation.ReflTransGen.cases_head h with rfl | ⟨c, hc, hcm⟩
    · exact .inl rfl
    · exact .inr ⟨c, F.mem_children.2 hc, hcm⟩
  · rintro (rfl | ⟨c, hc, hcm⟩)
    · exact refl m
    · exact .head (F.mem_children.1 hc) hcm

/-- The nodes above one are on a line. -/
theorem total (ha : F.Above a m) (hb : F.Above b m) : F.Above a b ∨ F.Above b a := by
  induction ha with
  | refl => exact .inr hb
  | tail _ hp ih =>
    rcases Relation.ReflTransGen.cases_tail hb with rfl | ⟨q, hq, hqm⟩
    · exact .inl (.tail ‹_› hp)
    · obtain rfl := Option.some.inj (hp.symm.trans hqm)
      exact ih hq

/-- Nothing is below two children of a node. -/
theorem eq_of_children (ha : F.Above a m) (hb : F.Above b m) (hac : a ∈ F.children n)
    (hbc : b ∈ F.children n) : a = b := by
  -- the one above the other has a parent below, or equal to, the parent of both
  have key : ∀ {x y}, x ∈ F.children n → y ∈ F.children n → F.Above x y → x = y := by
    intro x y hx hy h
    rcases Relation.ReflTransGen.cases_tail h with rfl | ⟨q, hq, hqy⟩
    · rfl
    · obtain rfl := Option.some.inj (hqy.symm.trans (F.mem_children.1 hy))
      exact absurd (le hq) (not_le.2 (lt_of_mem_children hx))
  rcases total ha hb with h | h
  · exact key hac hbc h
  · exact (key hbc hac h).symm

end Above

/-! ### Counting -/

variable (F) in
/-- What the children count for a node. -/
def counted (closed : ℕ → Bool) (s : ℕ → ℤ) (n : ℕ) : ℤ :=
  if closed n then 0 else ((F.children n).map s).sum

variable (F) in
/-- The number of a node is its own one, and what its children count for it. -/
def Counts (closed : ℕ → Bool) (own s : ℕ → ℤ) : Prop := ∀ n, s n = own n + F.counted closed s n

variable (F) in
/-- The number of `n` still has to be raised by `d`. -/
def Owes (closed : ℕ → Bool) (own s : ℕ → ℤ) (n : ℕ) (d : ℤ) : Prop :=
  ∀ m, s m + (if m = n then d else 0) = own m + F.counted closed s m

variable {closed : ℕ → Bool} {own s t : ℕ → ℤ} {d v : ℤ}

theorem counted_of_children_eq_nil (h : F.children n = []) : F.counted closed s n = 0 := by
  simp [counted, h]

theorem counted_of_closed (h : closed n = true) : F.counted closed s n = 0 := if_pos h

theorem counted_congr (h : ∀ c ∈ F.children n, s c = t c) :
    F.counted closed s n = F.counted closed t n := by
  unfold counted
  rw [List.map_congr_left h]

theorem counted_nonneg (h : ∀ c ∈ F.children n, 0 ≤ s c) : 0 ≤ F.counted closed s n := by
  unfold counted
  split_ifs
  · exact le_rfl
  · refine List.sum_nonneg fun x hx => ?_
    obtain ⟨c, hc, rfl⟩ := List.mem_map.1 hx
    exact h c hc

/-- Something counts just if a child does. -/
theorem counted_pos_iff (hopen : closed n = false) (h : ∀ m, 0 ≤ s m) :
    0 < F.counted closed s n ↔ ∃ c ∈ F.children n, 0 < s c := by
  simp only [counted, hopen, Bool.false_eq_true, if_false]
  induction F.children n with
  | nil => simp
  | cons c l ih =>
    have hsum : 0 ≤ (l.map s).sum := by
      refine List.sum_nonneg fun x hx => ?_
      obtain ⟨c, -, rfl⟩ := List.mem_map.1 hx
      exact h c
    have hc := h c
    rw [List.map_cons, List.sum_cons, List.exists_mem_cons_iff, ← ih]
    omega

/-- A change counts for the parent. -/
theorem counted_update : F.counted closed (Function.update s n v) m =
    F.counted closed s m + if F.parent n = some m ∧ closed m = false then v - s n else 0 := by
  unfold counted
  cases hclosed : closed m with
  | true => simp
  | false =>
    simp only [Bool.false_eq_true, if_false, and_true, ← F.mem_children]
    have hnodup := F.nodup_children m
    generalize F.children m = l at hnodup ⊢
    induction l with
    | nil => simp
    | cons c l ih =>
      obtain ⟨hc, hnodup⟩ := List.nodup_cons.1 hnodup
      rw [List.map_cons, List.sum_cons, List.map_cons, List.sum_cons, ih hnodup]
      by_cases hnc : n = c
      · subst hnc
        simp [hc]
        ring
      · simp [hnc, Function.update_of_ne (Ne.symm hnc)]
        ring

theorem Counts.owes (h : F.Counts closed own s) (n : ℕ) (d : ℤ) :
    F.Owes closed (Function.update own n (own n + d)) s n d := by
  intro m
  rw [h m]
  by_cases hm : m = n
  · subst hm
    simp
    ring
  · simp [hm]

/-- The parent, if open, is the next one to be raised. -/
theorem Owes.raise (h : F.Owes closed own s n d) (hp : F.parent n = some p)
    (hopen : closed p = false) : F.Owes closed own (Function.update s n (s n + d)) p d := by
  intro m
  have hm := h m
  have hne : p ≠ n := (F.lt_of_parent hp).ne
  rw [counted_update, hp]
  by_cases hmn : m = n
  · subst hmn
    simp only [Function.update_self, if_neg hne.symm, if_true] at hm ⊢
    rw [hm]
    simp [hne]
  · rw [Function.update_of_ne hmn]
    rw [if_neg hmn] at hm
    by_cases hmp : m = p
    · subst hmp
      simp [hopen]
      linarith
    · simp [hmp, Ne.symm hmp]
      linarith

/-- Or nothing is left to be raised. -/
theorem Owes.counts (h : F.Owes closed own s n d) (hp : ∀ p, F.parent n = some p → closed p = true) :
    F.Counts closed own (Function.update s n (s n + d)) := by
  intro m
  have hm := h m
  have hnone : ¬(F.parent n = some m ∧ closed m = false) := fun ⟨hpm, hopen⟩ => by
    rw [hp m hpm] at hopen
    cases hopen
  rw [counted_update, if_neg hnone, add_zero, ← hm]
  by_cases hmn : m = n
  · subst hmn
    simp
  · simp [hmn]

/-- Numbers count up from the last nodes. -/
theorem nonneg_of_lt (hown : ∀ m, 0 ≤ own m) (h : ∀ m, n < m → s m = own m + F.counted closed s m) :
    ∀ m, n < m → 0 ≤ s m := by
  -- induction on the number of nodes from `m` on
  have key : ∀ k m, F.size - m = k → n < m → 0 ≤ s m := by
    intro k
    induction k using Nat.strong_induction_on with
    | _ k ih =>
      intro m hk hm
      rw [h m hm]
      refine add_nonneg (hown m) (counted_nonneg fun c hc => ?_)
      have hlt := lt_of_mem_children hc
      have hsize := lt_size_of_mem_children hc
      exact ih (F.size - c) (by omega) c rfl (hm.trans hlt)
  exact fun m hm => key _ m rfl hm

theorem Counts.nonneg (h : F.Counts closed own s) (hown : ∀ m, 0 ≤ own m) (m : ℕ) : 0 ≤ s m := by
  rw [h m]
  refine add_nonneg (hown m) (counted_nonneg fun c hc => ?_)
  exact nonneg_of_lt hown (fun k _ => h k) c (lt_of_mem_children hc)

/-- Where nothing counts by itself, all numbers are zero. -/
theorem Counts.eq_zero (h : F.Counts closed (fun _ => 0) s) (n : ℕ) : s n = 0 := by
  have key : ∀ k n, F.size - n = k → s n = 0 := by
    intro k
    induction k using Nat.strong_induction_on with
    | _ k ih =>
      intro n hk
      have hzero : F.counted closed s n = F.counted closed (fun _ => 0) n := by
        refine counted_congr fun c hc => ?_
        have hlt := lt_of_mem_children hc
        have hsize := lt_size_of_mem_children hc
        exact ih (F.size - c) (by omega) c rfl
      rw [h n, hzero]
      simp [counted]
  exact key _ n rfl

end Forest
