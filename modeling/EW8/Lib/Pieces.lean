import EW8.Lib.Memory

/-!
# Numbered pieces

A buffer is filled by pieces of 8 bytes arriving in any order, each with its
number. Of pieces with distinct numbers below `n` there are at most `n`, and
they cover the buffer exactly when there are `n` of them
(`length_le`, `covers_iff_length`). Then the bytes of the buffer are those of
the pieces (`assemble`).
-/

namespace Pieces

variable {β : Type*} {num : β → ℕ} {l : List β} {n : ℕ}

/-- Every number below `n` is that of a piece. -/
def Covers (num : β → ℕ) (l : List β) (n : ℕ) : Prop := ∀ u < n, ∃ x ∈ l, num x = u

/-- The last piece that is missing. -/
theorem Covers.concat {x : β} (h : ∀ u < n, u ≠ num x → u ∈ l.map num) :
    Covers num (l ++ [x]) n := by
  intro u hu
  by_cases hux : u = num x
  · exact ⟨x, by simp, hux.symm⟩
  · obtain ⟨y, hy, rfl⟩ := List.mem_map.1 (h u hu hux)
    exact ⟨y, List.mem_append_left _ hy, rfl⟩

theorem toFinset_subset (hlt : ∀ x ∈ l, num x < n) :
    (l.map num).toFinset ⊆ Finset.range n := by
  intro u hu
  obtain ⟨x, hx, rfl⟩ := List.mem_map.1 (List.mem_toFinset.1 hu)
  exact Finset.mem_range.2 (hlt x hx)

theorem card_toFinset (hnd : (l.map num).Nodup) : (l.map num).toFinset.card = l.length := by
  rw [List.toFinset_card_of_nodup hnd, List.length_map]

/-- There are at most `n` pieces with distinct numbers below `n`. -/
theorem length_le (hnd : (l.map num).Nodup) (hlt : ∀ x ∈ l, num x < n) : l.length ≤ n := by
  have h := Finset.card_le_card (toFinset_subset hlt)
  rwa [card_toFinset hnd, Finset.card_range] at h

/-- Pieces with distinct numbers below `n` cover `n` exactly when there are `n` of them. -/
theorem covers_iff_length (hnd : (l.map num).Nodup) (hlt : ∀ x ∈ l, num x < n) :
    Covers num l n ↔ l.length = n := by
  have hcard := card_toFinset hnd
  constructor
  · intro h
    have hsub : Finset.range n ⊆ (l.map num).toFinset := fun u hu => by
      obtain ⟨x, hx, rfl⟩ := h u (Finset.mem_range.1 hu)
      exact List.mem_toFinset.2 (List.mem_map_of_mem hx)
    have := Finset.card_le_card hsub
    rw [Finset.card_range] at this
    exact le_antisymm (length_le hnd hlt) (hcard ▸ this)
  · intro h u hu
    have heq : (l.map num).toFinset = Finset.range n :=
      Finset.eq_of_subset_of_card_le (toFinset_subset hlt) (by rw [hcard, Finset.card_range, h])
    have hmem : u ∈ (l.map num).toFinset := by rw [heq]; exact Finset.mem_range.2 hu
    exact List.mem_map.1 (List.mem_toFinset.1 hmem)

/-- Two pieces with the same number are the same. -/
theorem eq_of_num_eq (hnd : (l.map num).Nodup) {x y : β} (hx : x ∈ l) (hy : y ∈ l)
    (h : num x = num y) : x = y :=
  List.inj_on_of_nodup_map hnd hx hy h

/-! ## Reassembly -/

variable {data : β → Bytes 8}

/-- The first `len` bytes of the buffer that the pieces `l` fill: byte `8 * u + j`
    is the `j`-th of the piece number `u`. -/
def assemble (num : β → ℕ) (data : β → Bytes 8) (l : List β) (len : ℕ) : List UInt8 :=
  (List.range len).map fun k =>
    ((l.find? fun x => num x = k / 8).map fun x => (data x).byteAt (k % 8)).getD 0

@[simp] theorem length_assemble (len : ℕ) : (assemble num data l len).length = len := by
  simp [assemble]

theorem getD_assemble (hnd : (l.map num).Nodup) {x : β} (hx : x ∈ l) {len j : ℕ} (hj : j < 8)
    (hlen : 8 * num x + j < len) :
    (assemble num data l len).getD (8 * num x + j) 0 = (data x).byteAt j := by
  have hdiv : (8 * num x + j) / 8 = num x := by omega
  have hmod : (8 * num x + j) % 8 = j := by omega
  have hfind : (l.find? fun y => num y = num x) = some x := by
    cases h : l.find? fun y => num y = num x with
    | none => simpa using List.find?_eq_none.1 h x hx
    | some y =>
      have hy : num y = num x := by simpa using List.find?_some h
      rw [eq_of_num_eq hnd (List.mem_of_find?_eq_some h) hx hy]
  rw [List.getD_eq_getElem _ _ (by simpa using hlen)]
  simp [assemble, hdiv, hmod, hfind]

/-- A buffer holding the bytes of pieces that cover its first `len` bytes starts
    with their reassembly. -/
theorem slice_eq_assemble {k : ℕ} {m : Bytes k} (hnd : (l.map num).Nodup) {len : ℕ}
    (hcov : Covers num l ((len + 7) / 8))
    (hm : ∀ x ∈ l, ∀ j < 8, m.byteAt (8 * num x + j) = (data x).byteAt j) :
    m.slice 0 len = assemble num data l len := by
  refine Bytes.slice_eq_iff.2 ⟨length_assemble len, fun i hi => ?_⟩
  obtain ⟨x, hx, hnum⟩ := hcov (i / 8) (by omega)
  have hi' : 8 * num x + i % 8 = i := by omega
  have h := @getD_assemble _ _ _ data hnd _ hx len (i % 8) (by omega) (by omega)
  rw [hi'] at h
  rw [h, Nat.zero_add, ← hm x hx _ (by omega), hi']

end Pieces
