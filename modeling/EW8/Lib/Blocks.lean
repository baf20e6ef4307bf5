import Mathlib

/-!
# Data in blocks of one size

A machine takes a stream in blocks of `n` items: `f` is what it does with one. Of the items
that came so far it has taken the complete blocks, and holds back what is left of them, fewer
than `n` (`Taken`). A piece that does not complete the next block is added to what is held
back (`Taken.keep`), one that completes it is taken with it (`Taken.take`), and complete blocks
are taken as they come (`Taken.takeAll`): in which pieces the items come makes no difference
(`Taken.length`, `Taken.eq_take`).
-/

namespace Blocks

variable {σ α : Type*} {f : σ → List α → σ} {n : ℕ} {s₀ s t : σ} {data l r : List α}

/-- Of the items `data` that came from `s₀` on, the complete blocks are taken, which leads to the
    state `s`, and `r` is held back. -/
structure Taken (f : σ → List α → σ) (n : ℕ) (s₀ : σ) (data : List α) (s : σ) (r : List α) :
    Prop where
  blocks : ∃ blocks : List (List α), (∀ b ∈ blocks, b.length = n) ∧
    data = blocks.flatten ++ r ∧ s = blocks.foldl f s₀
  lt : r.length < n

/-- The first `k` blocks of `data`, one after the other. -/
def take (f : σ → List α → σ) (n : ℕ) : ℕ → σ → List α → σ
  | 0, s, _ => s
  | k + 1, s, data => take f n k (f s (data.take n)) (data.drop n)

theorem length_flatten {blocks : List (List α)} (h : ∀ b ∈ blocks, b.length = n) :
    blocks.flatten.length = blocks.length * n := by
  rw [List.length_flatten, List.map_congr_left h, List.map_const', List.sum_replicate, smul_eq_mul]

theorem take_flatten {blocks : List (List α)} (h : ∀ b ∈ blocks, b.length = n) (s : σ)
    (r : List α) : take f n blocks.length s (blocks.flatten ++ r) = blocks.foldl f s := by
  induction blocks generalizing s with
  | nil => rfl
  | cons b blocks ih =>
    have hb : b.length = n := h b List.mem_cons_self
    rw [List.length_cons, take, List.flatten_cons, List.append_assoc, List.take_left' hb,
      List.drop_left' hb, List.foldl_cons, ih fun c hc => h c (List.mem_cons_of_mem b hc)]

theorem Taken.nil (hn : 0 < n) : Taken f n s₀ [] s₀ [] :=
  ⟨⟨[], by simp, rfl, rfl⟩, hn⟩

theorem Taken.keep (h : Taken f n s₀ data s r) (hlt : (r ++ l).length < n) :
    Taken f n s₀ (data ++ l) s (r ++ l) := by
  obtain ⟨blocks, hlen, rfl, rfl⟩ := h.blocks
  exact ⟨⟨blocks, hlen, by rw [List.append_assoc], rfl⟩, hlt⟩

theorem Taken.take (h : Taken f n s₀ data s r) (heq : (r ++ l).length = n) :
    Taken f n s₀ (data ++ l) (f s (r ++ l)) [] := by
  obtain ⟨blocks, hlen, rfl, rfl⟩ := h.blocks
  refine ⟨⟨blocks ++ [r ++ l], ?_, by simp, by simp⟩, ?_⟩
  · intro b hb
    rcases List.mem_append.1 hb with hb | hb
    · exact hlen b hb
    · rw [List.mem_singleton.1 hb, heq]
  · exact (Nat.zero_le _).trans_lt h.lt

/-- Where nothing is held back, the blocks of the next piece are taken as they come. -/
theorem Taken.takeAll (h : Taken f n s₀ data s []) {k : ℕ} (hk : k * n ≤ l.length) :
    Taken f n s₀ (data ++ l.take (k * n)) (Blocks.take f n k s l) [] := by
  induction k generalizing data s l with
  | zero => simpa [Blocks.take] using h
  | succ k ih =>
    have hlen : ([] ++ l.take n).length = n := by
      rw [List.nil_append, List.length_take, Nat.min_eq_left]
      exact (Nat.le_mul_of_pos_left n k.succ_pos).trans hk
    have hnext := ih (h.take hlen) (l := l.drop n) (by rw [List.length_drop]; grind)
    rw [List.nil_append, List.append_assoc] at hnext
    rwa [Blocks.take, Nat.succ_mul, Nat.add_comm, List.take_add]

/-- The items alone say how many of them are held back, -/
theorem Taken.length (h : Taken f n s₀ data s r) : r.length = data.length % n := by
  obtain ⟨blocks, hlen, rfl, -⟩ := h.blocks
  rw [List.length_append, length_flatten hlen, Nat.mul_add_mod_self_right, Nat.mod_eq_of_lt h.lt]

/-- and which state they lead to. -/
theorem Taken.eq_take (h : Taken f n s₀ data s r) :
    s = Blocks.take f n (data.length / n) s₀ data := by
  obtain ⟨blocks, hlen, rfl, rfl⟩ := h.blocks
  have hn : 0 < n := (Nat.zero_le _).trans_lt h.lt
  rw [List.length_append, length_flatten hlen, Nat.add_comm,
    Nat.add_mul_div_right _ _ hn, Nat.div_eq_of_lt h.lt, Nat.zero_add, take_flatten hlen]

end Blocks
