import EW8.Update.Client

/-!
# When an upload gives up

The loop of `UploadFile` over the chunks, with the results of `GetNextChunk` and `PushChunk` given.
Where a chunk cannot be pushed, the next one is asked for, and the loop counts how often in a row
the answer is none to go on with. But it starts to count again with each positive answer, whether
or not the chunk can be pushed then: as long as `GetNextChunk` gives one, it goes on for ever.

* `ChunkLoop.iterate`: an iteration, which is what the client does between its calls
  (`afterGetNextChunk_eq`, `afterPushData_eq`);
* where no chunk can be pushed any more, the loop ends with an error just if there are ten answers
  in a row that are not positive, before one that ends it otherwise (`givesUp_iff`).
-/

namespace EW8.Update

/-- The results of the calls, in the order in which they are made. -/
structure Results where
  getNextChunk : ℕ → ℤ
  pushChunk : ℕ → ℤ

/-- How the loop ends. -/
inductive LoopEnd
  /-- `return -6`. -/
  | connectionLost
  /-- `break`. -/
  | allDone
  deriving DecidableEq, Repr

/-- The variables of the loop, and how many calls have been made. -/
structure ChunkLoop where
  next_chunk : ℤ
  err_count : ℕ
  gets : ℕ
  pushes : ℕ
  deriving DecidableEq, Repr

namespace ChunkLoop

variable (u : Upload) (x : Results) (s : ChunkLoop)

/-- An iteration. -/
def iterate : Except LoopEnd ChunkLoop :=
  if s.next_chunk = chunkNumberError then
    let next_chunk := x.getNextChunk s.gets
    if next_chunk > 0 then
      .ok { s with next_chunk := next_chunk, err_count := 0, gets := s.gets + 1 }
    else if s.err_count > 8 then .error .connectionLost
    else .ok { s with next_chunk := next_chunk, err_count := s.err_count + 1, gets := s.gets + 1 }
  else if s.next_chunk = allChunksAreDone then .error .allDone
  else if u.readChunk s.next_chunk = [] then .error .allDone
  else .ok { s with next_chunk := x.pushChunk s.pushes, pushes := s.pushes + 1 }

/-- Some iterations. -/
def iterations : ℕ → ChunkLoop → Except LoopEnd ChunkLoop
  | 0, s => .ok s
  | k + 1, s => (s.iterate u x).bind (iterations k)

/-! ## The iterations of the client -/

/-- The result of a call that asks for a chunk. -/
def result (a : Client) (ack : AckCode) : ℤ :=
  if ack = .ackChunk then a.intBuffer else chunkNumberError

/-- The loop of the client, with the next results of its calls. -/
def ofClient (a : Client) : ChunkLoop := ⟨a.nextChunk, a.errCount, 0, 0⟩

/-- The client, with the variables of the loop. -/
def toClient (a : Client) : Client :=
  { a with commandInFly := .noCommand, nextChunk := s.next_chunk, errCount := s.err_count }

variable {u x s}

theorem afterGetNextChunk_eq (a : Client) (ack : AckCode) :
    a.resume u (.getNextChunk true) ack =
      match ({ ofClient a with next_chunk := chunkNumberError } : ChunkLoop).iterate u
        ⟨fun _ => result a ack, x.pushChunk⟩ with
      | .ok s => (s.toClient a, (s.toClient a).chunkLoop u)
      | .error _ => (toClient ⟨result a ack, a.errCount + 1, 0, 0⟩ a, .exit (-6)) := by
  simp only [Client.resume, Client.afterGetNextChunk, iterate, ofClient, result, if_true,
    Bool.not_true, Bool.false_eq_true, if_false]
  split_ifs <;> rfl

theorem afterPushData_eq {a : Client} (hnext : a.nextChunk ≠ chunkNumberError)
    (hdone : a.nextChunk ≠ allChunksAreDone) (hread : u.readChunk a.nextChunk ≠ [])
    (chunk : List UInt8) (ack : AckCode) :
    ∃ s, (ofClient a).iterate u ⟨x.getNextChunk, fun _ => result a ack⟩ = .ok s ∧
      a.resume u (.pushData chunk) ack = (s.toClient a, (s.toClient a).chunkLoop u) :=
  ⟨_, by rw [iterate, ofClient, if_neg hnext, if_neg hdone, if_neg hread], rfl⟩

/-! ## Where no chunk can be pushed -/

variable (u) in
/-- The loop goes on with a number: to push the chunk, or to ask again. -/
def GoesOn (c : ℤ) : Prop :=
  c = chunkNumberError ∨ c ≠ allChunksAreDone ∧ u.readChunk c ≠ []

variable (x) in
/-- How many answers in a row are not positive, before the `n`-th one. -/
def misses (err_count gets : ℕ) : ℕ → ℕ
  | 0 => err_count
  | n + 1 => if x.getNextChunk (gets + n) > 0 then 0 else misses err_count gets n + 1

variable (u x) in
/-- Ten answers in a row are not positive, and the loop goes on with those before. -/
def Silent (err_count gets : ℕ) : Prop :=
  ∃ n, x.getNextChunk (gets + n) ≤ 0 ∧ 8 < misses x err_count gets n ∧
    ∀ i < n, GoesOn u (x.getNextChunk (gets + i))

variable {e g n : ℕ}

theorem misses_succ (e g n : ℕ) : misses x e g (n + 1) =
    misses x (if x.getNextChunk g > 0 then 0 else e + 1) (g + 1) n := by
  induction n with
  | zero => rfl
  | succ n ih =>
    have hadd : g + (n + 1) = g + 1 + n := by omega
    rw [misses, ih, misses, hadd]

/-- The next answer is the tenth one, or the loop goes on with it. -/
theorem silent_iff (e g : ℕ) : Silent u x e g ↔
    (x.getNextChunk g ≤ 0 ∧ 8 < e) ∨
      GoesOn u (x.getNextChunk g) ∧ Silent u x (if x.getNextChunk g > 0 then 0 else e + 1) (g + 1) := by
  constructor
  · rintro ⟨n, hn, hmisses, hgoes⟩
    cases n with
    | zero => exact .inl ⟨hn, hmisses⟩
    | succ n =>
      refine .inr ⟨hgoes 0 (Nat.succ_pos n), n, ?_, ?_, fun i hi => ?_⟩
      · rwa [Nat.add_right_comm]
      · rwa [misses_succ] at hmisses
      · have := hgoes (i + 1) (Nat.succ_lt_succ hi)
        rwa [Nat.add_right_comm g 1 i]
  · rintro (⟨hn, hmisses⟩ | ⟨hgoes, n, hn, hmisses, hgoes'⟩)
    · exact ⟨0, hn, hmisses, fun i hi => absurd hi (Nat.not_lt_zero i)⟩
    · refine ⟨n + 1, ?_, ?_, fun i hi => ?_⟩
      · rwa [Nat.add_right_comm] at hn
      · rwa [misses_succ]
      · cases i with
        | zero => exact hgoes
        | succ i =>
          have := hgoes' i (Nat.lt_of_succ_lt_succ hi)
          rwa [Nat.add_right_comm] at this

/-- The next answer, and what the loop makes of it. -/
theorem iterate_of_error (hnext : s.next_chunk = chunkNumberError) : s.iterate u x =
    if x.getNextChunk s.gets ≤ 0 ∧ 8 < s.err_count then .error .connectionLost
    else .ok { s with
      next_chunk := x.getNextChunk s.gets
      err_count := if x.getNextChunk s.gets > 0 then 0 else s.err_count + 1
      gets := s.gets + 1 } := by
  rw [iterate, if_pos hnext]
  by_cases hpos : x.getNextChunk s.gets > 0
  · simp [hpos]
  · by_cases herr : s.err_count > 8
    · simp [hpos, herr, not_lt.1 hpos]
    · simp [hpos, herr]

/-- A chunk that cannot be pushed. -/
theorem iterate_of_goesOn (hnext : s.next_chunk ≠ chunkNumberError) (hgoes : GoesOn u s.next_chunk)
    (hfail : x.pushChunk s.pushes = chunkNumberError) :
    s.iterate u x = .ok { s with next_chunk := chunkNumberError, pushes := s.pushes + 1 } := by
  obtain ⟨hdone, hread⟩ := hgoes.resolve_left hnext
  rw [iterate, if_neg hnext, if_neg hdone, if_neg hread, hfail]

theorem iterate_of_not_goesOn (h : ¬GoesOn u s.next_chunk) : s.iterate u x = .error .allDone := by
  obtain ⟨hnext, hdone⟩ := not_or.1 h
  rw [iterate, if_neg hnext]
  split_ifs with hall hread
  · rfl
  · rfl
  · exact absurd ⟨hall, hread⟩ hdone

theorem iterations_of_ok {s' : ChunkLoop} (h : s.iterate u x = .ok s') (k : ℕ) :
    s.iterations u x (k + 1) = s'.iterations u x k := by
  rw [iterations, h]
  rfl

theorem iterations_of_error {r : LoopEnd} (h : s.iterate u x = .error r) (k : ℕ) :
    s.iterations u x (k + 1) = .error r := by
  rw [iterations, h]
  rfl

/-- The loop ends with an error after some iterations. -/
theorem silent_of_iterations (hfail : ∀ n ≥ s.pushes, x.pushChunk n = chunkNumberError) {k : ℕ}
    (h : s.iterations u x k = .error .connectionLost) :
    GoesOn u s.next_chunk ∧ Silent u x s.err_count s.gets := by
  induction k generalizing s with
  | zero => cases h
  | succ k ih =>
    by_cases hgoes : GoesOn u s.next_chunk
    · refine ⟨hgoes, ?_⟩
      by_cases hnext : s.next_chunk = chunkNumberError
      · rw [silent_iff]
        by_cases hlost : x.getNextChunk s.gets ≤ 0 ∧ 8 < s.err_count
        · exact .inl hlost
        · have hok := (iterate_of_error (u := u) (x := x) hnext).trans (if_neg hlost)
          rw [iterations_of_ok hok] at h
          refine .inr (ih ?_ h)
          exact hfail
      · rw [iterations_of_ok (iterate_of_goesOn hnext hgoes (hfail _ le_rfl))] at h
        exact (ih (fun n hn => hfail n (Nat.le_of_succ_le hn)) h).2
    · rw [iterations_of_error (iterate_of_not_goesOn hgoes)] at h
      cases h

/-- The chunk is pushed, if there is one, and then the next one asked for. -/
theorem exists_iterations {r : LoopEnd} (hfail : ∀ n ≥ s.pushes, x.pushChunk n = chunkNumberError)
    (hgoes : GoesOn u s.next_chunk)
    (h : ∀ pushes ≥ s.pushes,
      ∃ k, iterations u x k { s with next_chunk := chunkNumberError, pushes := pushes } = .error r) :
    ∃ k, s.iterations u x k = .error r := by
  by_cases hnext : s.next_chunk = chunkNumberError
  · obtain ⟨k, hk⟩ := h s.pushes le_rfl
    rw [← hnext] at hk
    exact ⟨k, hk⟩
  · obtain ⟨k, hk⟩ := h (s.pushes + 1) (Nat.le_succ _)
    exact ⟨k + 1, (iterations_of_ok (iterate_of_goesOn hnext hgoes (hfail _ le_rfl)) k).trans hk⟩

theorem iterations_of_silent (hfail : ∀ n ≥ s.pushes, x.pushChunk n = chunkNumberError)
    (hgoes : GoesOn u s.next_chunk) (h : Silent u x s.err_count s.gets) :
    ∃ k, s.iterations u x k = .error .connectionLost := by
  obtain ⟨n, hn, hmisses, hgoes'⟩ := h
  -- induction on the answers before the last one
  induction n generalizing s with
  | zero =>
    refine exists_iterations hfail hgoes fun pushes _ => ⟨1, iterations_of_error ?_ 0⟩
    exact (iterate_of_error rfl).trans (if_pos ⟨hn, hmisses⟩)
  | succ n ih =>
    refine exists_iterations hfail hgoes fun pushes hpushes => ?_
    by_cases hlost : x.getNextChunk s.gets ≤ 0 ∧ 8 < s.err_count
    · refine ⟨1, iterations_of_error ?_ 0⟩
      exact (iterate_of_error rfl).trans (if_pos hlost)
    · have hok := (iterate_of_error (u := u) (x := x) (s := { s with
        next_chunk := chunkNumberError, pushes := pushes }) rfl).trans (if_neg hlost)
      rw [misses_succ] at hmisses
      obtain ⟨k, hk⟩ := ih (s := { s with
        next_chunk := x.getNextChunk s.gets
        err_count := if x.getNextChunk s.gets > 0 then 0 else s.err_count + 1
        gets := s.gets + 1
        pushes := pushes }) (fun n hn => hfail n (hpushes.le.trans hn)) (hgoes' 0 (Nat.succ_pos n))
        (by rwa [Nat.add_right_comm]) hmisses fun i hi => by
          rw [Nat.add_right_comm]
          exact hgoes' (i + 1) (Nat.succ_lt_succ hi)
      exact ⟨k + 1, (iterations_of_ok hok k).trans hk⟩

/-- Where no chunk can be pushed any more, the loop ends with an error just if it goes on with the
    chunk at hand, and ten answers in a row are not positive before one ends it. -/
theorem givesUp_iff (u : Upload) (x : Results) (s : ChunkLoop)
    (hfail : ∀ n ≥ s.pushes, x.pushChunk n = chunkNumberError) :
    (∃ k, s.iterations u x k = .error .connectionLost) ↔
      GoesOn u s.next_chunk ∧ Silent u x s.err_count s.gets :=
  ⟨fun ⟨_, h⟩ => silent_of_iterations hfail h, fun h => iterations_of_silent hfail h.1 h.2⟩

/-- All answers are errors: the connection is lost. -/
theorem givesUp_iff_silent :
    (∃ k, (⟨0, 0, 0, 0⟩ : ChunkLoop).iterations .twoBytes
      ⟨fun _ => chunkNumberError, fun _ => chunkNumberError⟩ k = .error .connectionLost) ↔
      GoesOn .twoBytes 0 ∧ Silent .twoBytes ⟨fun _ => chunkNumberError, fun _ => chunkNumberError⟩ 0 0 :=
  givesUp_iff .twoBytes ⟨fun _ => chunkNumberError, fun _ => chunkNumberError⟩ ⟨0, 0, 0, 0⟩
    fun _ _ => rfl

/-- The second chunk is asked for again and again, and cannot be pushed: the loop does not end. -/
theorem givesUp_fails_of_positive :
    ¬ ∀ (u : Upload) (x : Results) (s : ChunkLoop),
      (∀ n ≥ s.pushes, x.pushChunk n = chunkNumberError) →
        ∃ k, s.iterations u x k = .error .connectionLost := by
  intro hall
  have hfail : ∀ n ≥ 0, (⟨fun _ => 1, fun _ => chunkNumberError⟩ : Results).pushChunk n =
      chunkNumberError := fun _ _ => rfl
  obtain ⟨k, hk⟩ := hall .twoBytes _ ⟨1, 0, 0, 0⟩ hfail
  obtain ⟨-, n, hn, -⟩ := silent_of_iterations hfail hk
  have hn : (1 : ℤ) ≤ 0 := hn
  exact absurd hn (by decide)

end ChunkLoop

end EW8.Update
