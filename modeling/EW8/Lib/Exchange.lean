import Mathlib

/-!
# Requests and answers over lossy links

A client sends requests to a server, that takes them one at a time and answers each once.
Both links keep the order, and both may lose messages at any place. A request has a number,
which its answer repeats: this is how statements tell which request an answer belongs to,
and no party needs to look at it.

* `Exchange`: what is under way, and the operations on it;
* `Ordered`: the numbers under way, from the answers back to the requests, go up to the
  number of the latest request. Every operation keeps this;
* `Ordered.idle_of_latest`: when the answer to the latest request arrives, nothing else is
  under way.
-/

/-- What is under way between a client and a server. -/
structure Exchange (α β : Type*) where
  /-- The number of the latest request. -/
  sent : ℕ
  /-- The requests on the way to the server, the oldest first. -/
  requests : List (ℕ × α)
  /-- The request that the server has taken and not answered. -/
  serving : Option ℕ
  /-- The answers on the way to the client, the oldest first. -/
  answers : List (ℕ × β)

namespace Exchange

variable {α β : Type*} (x : Exchange α β)

/-- The client sends a request; `none` is one that never gets on the link. -/
def send (a : Option α) : Exchange α β :=
  { x with sent := x.sent + 1, requests := x.requests ++ a.toList.map (x.sent + 1, ·) }

/-- The server takes the next request. -/
def take : Option (α × Exchange α β) :=
  match x.serving, x.requests with
  | none, (n, a) :: l => some (a, { x with serving := some n, requests := l })
  | _, _ => none

/-- The server answers the request taken. -/
def answer (b : β) : Exchange α β :=
  { x with serving := none, answers := x.answers ++ x.serving.toList.map (·, b) }

/-- The next answer arrives. -/
def receive : Option ((ℕ × β) × Exchange α β) :=
  match x.answers with
  | [] => none
  | a :: l => some (a, { x with answers := l })

/-- A request is lost. -/
def loseRequest (i : ℕ) : Exchange α β := { x with requests := x.requests.eraseIdx i }

/-- An answer is lost. -/
def loseAnswer (i : ℕ) : Exchange α β := { x with answers := x.answers.eraseIdx i }

/-- Nothing is under way. -/
structure Idle : Prop where
  requests : x.requests = []
  serving : x.serving = none
  answers : x.answers = []

/-- The numbers under way, in the order in which the client meets them. -/
def numbers : List ℕ := x.answers.map Prod.fst ++ (x.serving.toList ++ x.requests.map Prod.fst)

/-- The numbers under way go up, to the latest one at most. -/
structure Ordered : Prop where
  pairwise : x.numbers.Pairwise (· < ·)
  le_sent : ∀ n ∈ x.numbers, n ≤ x.sent

variable {x} {y : Exchange α β} {a : α} {b : β} {n : ℕ}

theorem take_eq_some : x.take = some (a, y) ↔
    ∃ n l, x.serving = none ∧ x.requests = (n, a) :: l ∧
      y = { x with serving := some n, requests := l } := by
  unfold take
  split
  · rename_i m a' l hs hr
    simp only [Option.some.injEq, Prod.mk.injEq, hs, hr, List.cons.injEq, true_and]
    constructor
    · rintro ⟨rfl, rfl⟩
      exact ⟨m, l, ⟨⟨rfl, rfl⟩, rfl⟩, rfl⟩
    · rintro ⟨n, l', ⟨⟨rfl, rfl⟩, rfl⟩, rfl⟩
      exact ⟨rfl, rfl⟩
  · rename_i hne
    refine iff_of_false (by simp) ?_
    rintro ⟨n, l, hs, hr, -⟩
    exact hne n a l hs hr

theorem receive_eq_some : x.receive = some ((n, b), y) ↔
    ∃ l, x.answers = (n, b) :: l ∧ y = { x with answers := l } := by
  unfold receive
  split
  · rename_i hx
    simp [hx]
  · rename_i p l hx
    simp only [Option.some.injEq, Prod.mk.injEq, hx, List.cons.injEq]
    constructor
    · rintro ⟨rfl, rfl⟩
      exact ⟨l, ⟨rfl, rfl⟩, rfl⟩
    · rintro ⟨l', ⟨rfl, rfl⟩, rfl⟩
      exact ⟨rfl, rfl⟩

/-- A request under way is an earlier one, or the one just sent. -/
theorem mem_send {o : Option α} {r : ℕ × α} (h : r ∈ (x.send o).requests) :
    r ∈ x.requests ∨ r.2 ∈ o := by
  rcases List.mem_append.1 h with h | h
  · exact .inl h
  · obtain ⟨a, ha, rfl⟩ := List.mem_map.1 h
    exact .inr (Option.mem_toList.1 ha)

theorem pairwise_send {R : ℕ × α → ℕ × α → Prop} {o : Option α} (h : x.requests.Pairwise R)
    (hR : ∀ r ∈ x.requests, ∀ a ∈ o, R r (x.sent + 1, a)) : (x.send o).requests.Pairwise R := by
  refine List.pairwise_append.2 ⟨h, ?_, fun r hr r' hr' => ?_⟩
  · cases o <;> simp
  · obtain ⟨a, ha, rfl⟩ := List.mem_map.1 hr'
    exact hR r hr a (Option.mem_toList.1 ha)

/-- An answer under way is an earlier one, or the one just given. -/
theorem mem_answer {r : ℕ × β} (h : r ∈ (x.answer b).answers) : r ∈ x.answers ∨ r.2 = b := by
  rcases List.mem_append.1 h with h | h
  · exact .inl h
  · obtain ⟨n, -, rfl⟩ := List.mem_map.1 h
    exact .inr rfl

theorem Idle.ordered (h : x.Idle) : x.Ordered := by
  have hnil : x.numbers = [] := by simp [numbers, h.requests, h.serving, h.answers]
  exact ⟨by simp [hnil], by simp [hnil]⟩

namespace Ordered

/-- Fewer numbers under way are in order as well. -/
theorem of_sublist (h : x.Ordered) (hsent : x.sent ≤ y.sent) (hsub : y.numbers.Sublist x.numbers) :
    y.Ordered where
  pairwise := h.pairwise.sublist hsub
  le_sent n hn := (h.le_sent n (hsub.subset hn)).trans hsent

theorem send (h : x.Ordered) (a : Option α) : (x.send a).Ordered := by
  cases a with
  | none => exact h.of_sublist (Nat.le_succ _) (by simp [numbers, Exchange.send])
  | some a =>
    have hnum : (x.send (some a)).numbers = x.numbers ++ [x.sent + 1] := by
      simp [numbers, Exchange.send]
    constructor
    · rw [hnum, List.pairwise_append]
      refine ⟨h.pairwise, List.pairwise_singleton .., fun n hn m hm => ?_⟩
      rw [List.mem_singleton.1 hm]
      exact Nat.lt_succ_of_le (h.le_sent n hn)
    · intro n hn
      rw [hnum, List.mem_append, List.mem_singleton] at hn
      rcases hn with hn | rfl
      · exact (h.le_sent n hn).trans (Nat.le_succ _)
      · exact le_rfl

theorem take (h : x.Ordered) (ht : x.take = some (a, y)) : y.Ordered := by
  obtain ⟨n, l, hs, hr, rfl⟩ := take_eq_some.1 ht
  exact h.of_sublist le_rfl (by simp [numbers, hs, hr])

theorem answer (h : x.Ordered) (b : β) : (x.answer b).Ordered :=
  h.of_sublist le_rfl (by simp [numbers, Exchange.answer, Function.comp_def])

theorem receive (h : x.Ordered) (ht : x.receive = some ((n, b), y)) : y.Ordered := by
  obtain ⟨l, hx, rfl⟩ := receive_eq_some.1 ht
  exact h.of_sublist le_rfl (by simp [numbers, hx])

theorem loseRequest (h : x.Ordered) (i : ℕ) : (x.loseRequest i).Ordered :=
  h.of_sublist le_rfl <| .append_left (.append_left ((List.eraseIdx_sublist ..).map _) _) _

theorem loseAnswer (h : x.Ordered) (i : ℕ) : (x.loseAnswer i).Ordered :=
  h.of_sublist le_rfl <| .append_right ((List.eraseIdx_sublist ..).map _) _

/-- The answers under way are older than a request that the server has. -/
theorem lt_of_mem (h : x.Ordered) {m : ℕ} (hm : (m, b) ∈ x.answers)
    (hn : n ∈ x.serving.toList ++ x.requests.map Prod.fst) : m < x.sent := by
  have hpair := h.pairwise
  rw [numbers, List.pairwise_append] at hpair
  have hlt := hpair.2.2 m (List.mem_map_of_mem (f := Prod.fst) hm) n hn
  exact hlt.trans_le (h.le_sent n (List.mem_append_right _ hn))

/-- When the answer to the latest request arrives, nothing else is under way. -/
theorem idle_of_latest (h : x.Ordered) (ht : x.receive = some ((n, b), y)) (hn : n = x.sent) :
    y.Idle := by
  obtain ⟨l, hx, rfl⟩ := receive_eq_some.1 ht
  have hpair := h.pairwise
  have hle := h.le_sent
  simp only [numbers, hx, List.map_cons, List.cons_append, List.pairwise_cons] at hpair hle
  have hnil : ({ x with answers := l } : Exchange α β).numbers = [] := by
    refine List.eq_nil_iff_forall_not_mem.2 fun m hm => ?_
    have hlt := hpair.1 m hm
    have hle' := hle m (List.mem_cons_of_mem _ hm)
    omega
  simp only [numbers, List.append_eq_nil_iff, List.map_eq_nil_iff] at hnil
  exact ⟨hnil.2.2, by simpa using hnil.2.1, hnil.1⟩

end Ordered

end Exchange
