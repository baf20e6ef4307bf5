import Mathlib

/-!
# Maps in the order of their keys

A map as the list of its entries, in the order of the keys. An assignment (`assign`) puts a new key
at its place, and replaces the value of one that is there; a list without a key twice is built by
assigning its entries (`assignAll_of_sorted`). Strings of bytes are ordered lexicographically.
-/

namespace SortedMap

/-- The order of the bytes by their values. -/
scoped instance linearOrderUInt8 : LinearOrder UInt8 where
  le_refl := UInt8.le_refl
  le_trans _ _ _ := UInt8.le_trans
  le_antisymm _ _ := UInt8.le_antisymm
  le_total := UInt8.le_total
  lt_iff_le_not_ge a b := by
    rw [UInt8.not_le]
    exact ⟨fun h => ⟨UInt8.le_of_lt h, h⟩, And.right⟩
  toDecidableLE := inferInstance
  toDecidableLT := inferInstance
  toDecidableEq := inferInstance

/-- Membership in a list of bytes is decided by their equality, not by way of the order. -/
scoped instance lawfulBEqUInt8 : LawfulBEq UInt8 := inferInstance

variable {κ ν : Type*} [LinearOrder κ]

/-- The entries are in the order of their keys, and no key is there twice. -/
def Sorted (l : List (κ × ν)) : Prop := l.Pairwise fun x y => x.1 < y.1

instance (l : List (κ × ν)) : Decidable (Sorted l) :=
  inferInstanceAs (Decidable (l.Pairwise _))

/-- `map[key] = value`. -/
def assign (key : κ) (value : ν) : List (κ × ν) → List (κ × ν)
  | [] => [(key, value)]
  | x :: l =>
    if key < x.1 then (key, value) :: x :: l
    else if key = x.1 then (key, value) :: l
    else x :: assign key value l

/-- One assignment after the other. -/
def assignAll (l l' : List (κ × ν)) : List (κ × ν) := l'.foldl (fun l x => assign x.1 x.2 l) l

/-- The value of a key. -/
def find? (key : κ) (l : List (κ × ν)) : Option ν := (l.find? fun x => x.1 = key).map Prod.snd

variable {key k : κ} {value v : ν} {l l' : List (κ × ν)}

theorem mem_keys_assign :
    k ∈ (assign key value l).map Prod.fst ↔ k = key ∨ k ∈ l.map Prod.fst := by
  induction l with
  | nil => simp [assign]
  | cons x l ih =>
    rw [assign]
    split_ifs with hlt heq
    · simp
    · simp [heq]
    · rw [List.map_cons, List.mem_cons, ih, List.map_cons, List.mem_cons]
      exact or_left_comm

theorem sorted_cons {x : κ × ν} :
    Sorted (x :: l) ↔ (∀ k ∈ l.map Prod.fst, x.1 < k) ∧ Sorted l := by
  rw [Sorted, List.pairwise_cons, List.forall_mem_map]
  rfl

theorem Sorted.nodup_keys (h : Sorted l) : (l.map Prod.fst).Nodup :=
  (List.pairwise_map.2 h).imp ne_of_lt

theorem Sorted.assign (h : Sorted l) : Sorted (assign key value l) := by
  induction l with
  | nil => exact List.pairwise_singleton _ _
  | cons x l ih =>
    obtain ⟨hx, hl⟩ := sorted_cons.1 h
    rw [SortedMap.assign]
    split_ifs with hlt heq
    · refine sorted_cons.2 ⟨fun k hk => ?_, h⟩
      rcases List.mem_cons.1 hk with rfl | hk
      · exact hlt
      · exact hlt.trans (hx k hk)
    · exact sorted_cons.2 ⟨heq ▸ hx, hl⟩
    · refine sorted_cons.2 ⟨fun k hk => ?_, ih hl⟩
      rcases mem_keys_assign.1 hk with rfl | hk
      · exact lt_of_le_of_ne (not_lt.1 hlt) (Ne.symm heq)
      · exact hx k hk

theorem Sorted.assignAll (h : Sorted l) (l' : List (κ × ν)) : Sorted (assignAll l l') := by
  induction l' generalizing l with
  | nil => exact h
  | cons x l' ih => exact ih h.assign

/-- A key behind all others. -/
theorem assign_of_lt (h : ∀ k ∈ l.map Prod.fst, k < key) :
    assign key value l = l ++ [(key, value)] := by
  induction l with
  | nil => rfl
  | cons x l ih =>
    obtain ⟨hx, hl⟩ := List.forall_mem_cons.1 h
    rw [assign, if_neg hx.not_gt, if_neg hx.ne', ih hl, List.cons_append]

theorem assignAll_of_sorted (h : Sorted (l ++ l')) : assignAll l l' = l ++ l' := by
  induction l' generalizing l with
  | nil => exact (List.append_nil l).symm
  | cons x l' ih =>
    have hlt : ∀ k ∈ l.map Prod.fst, k < x.1 := by
      intro k hk
      obtain ⟨y, hy, rfl⟩ := List.mem_map.1 hk
      exact (List.pairwise_append.1 h).2.2 y hy x List.mem_cons_self
    rw [List.append_cons] at h
    rw [assignAll, List.foldl_cons, assign_of_lt hlt]
    exact (ih h).trans (List.append_assoc ..)

theorem mem_keys_assignAll :
    k ∈ (assignAll l l').map Prod.fst ↔ k ∈ l.map Prod.fst ∨ k ∈ l'.map Prod.fst := by
  induction l' generalizing l with
  | nil => simp [assignAll]
  | cons x l' ih =>
    rw [assignAll, List.foldl_cons]
    refine ih.trans ?_
    rw [mem_keys_assign, List.map_cons, List.mem_cons, or_assoc, or_left_comm]

theorem mem_of_mem_assign {x : κ × ν} (h : x ∈ assign key value l) : x = (key, value) ∨ x ∈ l := by
  induction l with
  | nil => exact .inl (List.mem_singleton.1 h)
  | cons y l ih =>
    rw [assign] at h
    split_ifs at h with hlt heq
    · exact List.mem_cons.1 h
    · exact (List.mem_cons.1 h).imp_right (List.mem_cons_of_mem y)
    · rcases List.mem_cons.1 h with rfl | h
      · exact .inr List.mem_cons_self
      · exact (ih h).imp_right (List.mem_cons_of_mem y)

theorem mem_of_mem_assignAll {x : κ × ν} (h : x ∈ assignAll l l') : x ∈ l ∨ x ∈ l' := by
  induction l' generalizing l with
  | nil => exact .inl h
  | cons y l' ih =>
    rcases ih h with h | h
    · rcases mem_of_mem_assign h with rfl | h
      · exact .inr List.mem_cons_self
      · exact .inl h
    · exact .inr (List.mem_cons_of_mem y h)

theorem find?_assign_self (l : List (κ × ν)) : find? key (assign key value l) = some value := by
  induction l with
  | nil => simp [assign, find?]
  | cons x l ih =>
    rw [assign]
    split_ifs with hlt heq
    · simp [find?]
    · simp [find?]
    · have hne : x.1 ≠ key := fun h => heq h.symm
      rw [find?, List.find?_cons_of_neg (by simpa using hne)]
      exact ih

theorem find?_assign_of_ne (h : k ≠ key) (l : List (κ × ν)) :
    find? k (assign key value l) = find? k l := by
  induction l with
  | nil => simp [assign, find?, h.symm]
  | cons x l ih =>
    rw [assign]
    split_ifs with hlt heq
    · simp [find?, h.symm]
    · simp [find?, h.symm, ← heq]
    · by_cases hx : x.1 = k
      · simp [find?, hx]
      · rw [find?, find?, List.find?_cons_of_neg (by simpa using hx),
          List.find?_cons_of_neg (by simpa using hx)]
        exact ih

theorem find?_eq_none_iff : find? k l = none ↔ k ∉ l.map Prod.fst := by
  simp only [find?, Option.map_eq_none_iff, List.find?_eq_none, decide_eq_true_eq, List.mem_map,
    not_exists, not_and]

end SortedMap
