import Mathlib

/-!
# Navigation

A way through a tree goes move by move: down to a child of the place, up to its parent, or nowhere.
Moves may be impossible at a place; but a move up takes back a move down, and from the top it goes
nowhere (`Places`).

A way is *reduced* (`Reduced`) to some moves up followed by some moves down, without moves up if it
begins at the top. Wherever a way leads, the reduced way leads as well (`Places.follow_reduce`).
-/

namespace Navigation

/-- A move. -/
inductive Move (α : Type*)
  | stay
  | up
  | down (a : α)

/-- A reduced way, the moves down from the last one to the first. -/
@[ext]
structure Reduced (α : Type*) (top : Bool) where
  ups : ℕ
  downs : List α
  ups_of_top : top → ups = 0

namespace Reduced

variable {α : Type*} {top : Bool}

/-- No moves. -/
def empty : Reduced α top where
  ups := 0
  downs := []
  ups_of_top _ := rfl

/-- The way with a move at its end. -/
def push (r : Reduced α top) : Move α → Reduced α top
  | .stay => r
  | .down a => { r with downs := a :: r.downs }
  | .up =>
    match r.downs with
    | _ :: downs => { r with downs := downs }
    | [] => if h : top then r else ⟨r.ups + 1, [], fun htop => absurd htop h⟩

/-- The moves of the way. -/
def moves (r : Reduced α top) : List (Move α) :=
  List.replicate r.ups .up ++ r.downs.reverse.map .down

variable (r : Reduced α top)

@[simp]
theorem push_stay : r.push .stay = r := rfl

@[simp]
theorem downs_push_down (a : α) : (r.push (.down a)).downs = a :: r.downs := rfl

@[simp]
theorem ups_push_down (a : α) : (r.push (.down a)).ups = r.ups := rfl

variable {r}

theorem push_up_of_cons {a : α} {downs : List α} (h : r.downs = a :: downs) :
    r.push .up = { r with downs := downs } := by
  rw [push, h]

theorem push_up_of_top (h : r.downs = []) (htop : top) : r.push .up = r := by
  rw [push, h]
  exact dif_pos htop

theorem push_up_of_not_top (h : r.downs = []) (htop : ¬ top) :
    r.push .up = ⟨r.ups + 1, [], fun h => absurd h htop⟩ := by
  rw [push, h]
  exact dif_neg htop

theorem moves_push_down (a : α) : (r.push (.down a)).moves = r.moves ++ [.down a] := by
  simp [moves]

end Reduced

variable {α σ : Type*} {top : Bool}

/-- The way reduced. -/
def reduce (top : Bool) (xs : List (Move α)) : Reduced α top := xs.foldl Reduced.push .empty

theorem reduce_append_singleton (xs : List (Move α)) (x : Move α) :
    reduce top (xs ++ [x]) = (reduce top xs).push x := by
  simp [reduce]

theorem foldl_push_stay (r : Reduced α top) (k : ℕ) :
    (List.replicate k Move.stay).foldl Reduced.push r = r := by
  induction k with
  | zero => rfl
  | succ k ih => simpa [List.replicate_succ] using ih

theorem foldl_push_up (htop : ¬ top) (n k : ℕ) :
    (List.replicate k Move.up).foldl Reduced.push
      (⟨n, [], fun h => absurd h htop⟩ : Reduced α top) =
        ⟨n + k, [], fun h => absurd h htop⟩ := by
  induction k generalizing n with
  | zero => rfl
  | succ k ih =>
    rw [List.replicate_succ, List.foldl_cons, Reduced.push_up_of_not_top rfl htop, ih]
    ext <;> simp [Nat.add_right_comm, Nat.add_assoc]

theorem foldl_push_down (r : Reduced α top) (l : List α) :
    (l.map Move.down).foldl Reduced.push r = { r with downs := l.reverse ++ r.downs } := by
  induction l generalizing r with
  | nil => rfl
  | cons a l ih =>
    rw [List.map_cons, List.foldl_cons, ih]
    ext <;> simp

/-- A reduced way stays as it is, moves that go nowhere before it do not matter. -/
theorem reduce_moves (r : Reduced α top) (k : ℕ) :
    reduce top (List.replicate k .stay ++ r.moves) = r := by
  have hups : (List.replicate r.ups Move.up).foldl Reduced.push (.empty : Reduced α top) =
      ⟨r.ups, [], r.ups_of_top⟩ := by
    by_cases htop : top
    · simp [r.ups_of_top htop, Reduced.empty]
    · simpa [Reduced.empty] using foldl_push_up htop 0 r.ups
  rw [reduce, List.foldl_append, foldl_push_stay, Reduced.moves, List.foldl_append, hups,
    foldl_push_down]
  ext <;> simp

/-- Places of a tree, and where the moves lead that are possible there. -/
structure Places (σ α : Type*) where
  move : σ → Move α → Option σ
  eq_of_stay {s t : σ} : move s .stay = some t → t = s
  eq_of_up {s t u : σ} {a : α} : move s (.down a) = some t → move t .up = some u → u = s

namespace Places

variable (P : Places σ α) {s t u : σ}

/-- Where a way leads. -/
def follow (s : σ) (xs : List (Move α)) : Option σ := xs.foldlM P.move s

variable {P}

@[simp]
theorem follow_nil : P.follow s [] = some s := rfl

theorem follow_append {xs ys : List (Move α)} :
    P.follow s (xs ++ ys) = some t ↔ ∃ u, P.follow s xs = some u ∧ P.follow u ys = some t := by
  simp [follow, List.foldlM_append, Option.bind_eq_some_iff]

theorem follow_append_singleton {xs : List (Move α)} {x : Move α} :
    P.follow s (xs ++ [x]) = some t ↔ ∃ u, P.follow s xs = some u ∧ P.move u x = some t := by
  rw [follow_append]
  simp [follow]

/-- Moves that go nowhere, where they are possible. -/
theorem follow_stay (hs : P.move s .stay = some s) (k : ℕ) (xs : List (Move α)) :
    P.follow s (List.replicate k .stay ++ xs) = P.follow s xs := by
  induction k with
  | zero => rfl
  | succ k ih =>
    rw [List.replicate_succ, List.cons_append, ← ih]
    simp [follow, hs]

theorem follow_push {r : Reduced α top} {x : Move α}
    (htop : top → ∀ t, P.move s .up = some t → t = s)
    (h : P.follow s (r.moves ++ [x]) = some t) : P.follow s (r.push x).moves = some t := by
  cases x with
  | stay =>
    obtain ⟨u, hu, hstay⟩ := follow_append_singleton.1 h
    rw [P.eq_of_stay hstay]
    exact hu
  | down a => rwa [Reduced.moves_push_down]
  | up =>
    cases hdowns : r.downs with
    | cons a downs =>
      rw [Reduced.push_up_of_cons hdowns]
      -- the last move down is taken back
      have hmoves : r.moves = Reduced.moves { r with downs := downs } ++ [.down a] := by
        simp [Reduced.moves, hdowns]
      obtain ⟨v, hv, hup⟩ := follow_append_singleton.1 h
      rw [hmoves] at hv
      obtain ⟨u, hu, hdown⟩ := follow_append_singleton.1 hv
      rw [P.eq_of_up hdown hup]
      exact hu
    | nil =>
      by_cases htop' : top
      · rw [Reduced.push_up_of_top hdowns htop']
        have hmoves : r.moves = [] := by simp [Reduced.moves, hdowns, r.ups_of_top htop']
        rw [hmoves] at h ⊢
        obtain ⟨u, hu, hup⟩ := follow_append_singleton.1 h
        obtain rfl := Option.some.inj hu
        rw [htop htop' t hup, follow_nil]
      · rw [Reduced.push_up_of_not_top hdowns htop']
        have hmoves : r.moves ++ [.up] = List.replicate (r.ups + 1) .up := by
          simp [Reduced.moves, hdowns, List.replicate_succ']
        rw [hmoves] at h
        simpa [Reduced.moves] using h

/-- The reduced way leads to where the way leads. -/
theorem follow_reduce {xs : List (Move α)} (htop : top → ∀ t, P.move s .up = some t → t = s)
    (h : P.follow s xs = some t) : P.follow s (reduce top xs).moves = some t := by
  induction xs using List.reverseRecOn generalizing t with
  | nil => simpa [reduce, Reduced.empty, Reduced.moves] using h
  | append_singleton xs x ih =>
    obtain ⟨u, hu, hx⟩ := follow_append_singleton.1 h
    rw [reduce_append_singleton]
    exact follow_push htop (follow_append_singleton.2 ⟨u, ih hu, hx⟩)

end Places

end Navigation
