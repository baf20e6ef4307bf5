import EW8.Lib.Transition

/-!
# Signals and slots

A `core::Signal` keeps the slots that are connected to it, and `fire` calls a copy of them one after
the other; meanwhile the slots may connect others, or disconnect some. Each call gets the
arguments by `std::forward`: what `fire` has taken by value is moved into the slot, and what the move
leaves is what the next slot gets.

* The slots that `fire` calls are those that are connected when it begins (`refines_run`);
* all of them get the arguments that have been given exactly if there is only one of them, or a move
  leaves the arguments as they are (`delivers_iff`).
-/

namespace EW8.Core

/-! ## The signal -/

/-- A `Connection`. -/
structure Connection where
  id_ : UInt32
  valid_ : Bool
  deriving DecidableEq, Repr

/-- What can be done with the slots of a signal. -/
inductive Change (S : Type*)
  | connect (slot : S)
  | disconnect (conn : Connection)
  | disconnectAll
  deriving DecidableEq, Repr

/-- A `Signal` with slots in `S`. -/
structure Signal (S : Type*) where
  slots_ : List (UInt32 × S)
  nextId_ : UInt32
  deriving DecidableEq, Repr

namespace Signal

variable {S : Type*} (s : Signal S)

def new : Signal S := ⟨[], 1⟩

def connect (slot : S) : Connection × Signal S :=
  (⟨s.nextId_, true⟩, ⟨s.slots_ ++ [(s.nextId_, slot)], s.nextId_ + 1⟩)

def disconnect (conn : Connection) : Signal S :=
  if conn.valid_ then { s with slots_ := s.slots_.filter fun entry => entry.1 ≠ conn.id_ } else s

def disconnectAll : Signal S := { s with slots_ := [] }

def change : Change S → Signal S
  | .connect slot => (s.connect slot).2
  | .disconnect conn => s.disconnect conn
  | .disconnectAll => s.disconnectAll

end Signal

/-- What happens with a signal: its slots are changed, or one of them is called. -/
inductive Event (S A : Type*)
  | changed (c : Change S)
  | called (slot : S) (args : A)

/-- A signal, and what has happened with it. -/
structure Fired (S A : Type*) where
  signal : Signal S
  events : List (Event S A)

namespace Fired

section

variable {S A : Type*} (w : Fired S A)

def new : Fired S A := ⟨.new, []⟩

def change (c : Change S) : Fired S A := ⟨w.signal.change c, w.events ++ [.changed c]⟩

/-- A slot is called, and makes the changes `body`, which may depend on all that has happened. -/
def call (body : S → List (Event S A) → List (Change S)) (slot : S) (args : A) : Fired S A :=
  let w : Fired S A := { w with events := w.events ++ [.called slot args] }
  (body slot w.events).foldl change w

end

variable {S ι : Type*} {τ : ι → Type*} (moved : ∀ i, τ i → τ i)
  (body : S → List (Event S (∀ i, τ i)) → List (Change S))

/-- The slots of the copy are called, each with what the one before has left of the arguments. -/
def callAll : List S → (∀ i, τ i) → Fired S (∀ i, τ i) → Fired S (∀ i, τ i)
  | [], _, w => w
  | slot :: slots, args, w => callAll slots (fun i => moved i (args i)) (w.call body slot args)

/-- `fire`, where `moved i` is what a move leaves of the `i`-th argument. -/
def fire (args : ∀ i, τ i) (w : Fired S (∀ i, τ i)) : Fired S (∀ i, τ i) :=
  callAll moved body (w.signal.slots_.map Prod.snd) args w

end Fired

/-- A call of a function of the signal. -/
inductive SignalCall (S A : Type*)
  | change (c : Change S)
  | fire (args : A)

section

variable {S ι : Type*} {τ : ι → Type*} (moved : ∀ i, τ i → τ i)
  (body : S → List (Event S (∀ i, τ i)) → List (Change S))

def Fired.step (w : Fired S (∀ i, τ i)) : SignalCall S (∀ i, τ i) → Fired S (∀ i, τ i)
  | .change c => w.change c
  | .fire args => w.fire moved body args

/-- One call after the other, from a new signal on. -/
def Fired.run (l : List (SignalCall S (∀ i, τ i))) : Fired S (∀ i, τ i) :=
  l.foldl (Fired.step moved body) .new

end

/-! ## What is to be delivered -/

/-- The connections of a signal, in their order and with numbers that are not used again. -/
structure Connections (S : Type*) where
  count : ℕ
  live : List (ℕ × S)

namespace Connections

variable {S A : Type*}

def change (c : Connections S) : Change S → Connections S
  | .connect slot => ⟨c.count + 1, c.live ++ [(c.count + 1, slot)]⟩
  | .disconnect conn =>
    if conn.valid_ then { c with live := c.live.filter fun x => x.1 ≠ conn.id_.toNat } else c
  | .disconnectAll => { c with live := [] }

/-- The connections after `events`. -/
def after (events : List (Event S A)) : Connections S :=
  events.foldl (fun c e => match e with
    | .changed x => c.change x
    | .called .. => c) ⟨0, []⟩

end Connections

/-- The calls of slots. -/
def calls {S A : Type*} (events : List (Event S A)) : List (S × A) :=
  events.filterMap fun e => match e with
    | .changed _ => none
    | .called slot args => some (slot, args)

/-- Each slot that is connected is called once, in the order of the connections, and with the
    arguments that have been given. -/
def Delivers {S ι : Type*} {τ : ι → Type*} (moved : ∀ i, τ i → τ i)
    (body : S → List (Event S (∀ i, τ i)) → List (Change S)) (w : Fired S (∀ i, τ i))
    (args : ∀ i, τ i) : Prop :=
  calls (w.fire moved body args).events =
    calls w.events ++ (Connections.after w.events).live.map fun x => (x.2, args)

/-! ## The slots -/

section

variable {S A : Type*} {s : Signal S} {c : Connections S} {events : List (Event S A)}

@[simp] theorem after_changed (x : Change S) :
    Connections.after (events ++ [.changed x]) = (Connections.after events).change x := by
  simp [Connections.after]

@[simp] theorem after_called (slot : S) (args : A) :
    Connections.after (events ++ [.called slot args]) = Connections.after events := by
  simp [Connections.after]

/-- As long as the numbers of the connections fit into a `size_t`, they are the ids. -/
structure Refines (s : Signal S) (c : Connections S) : Prop where
  slots : s.slots_ = c.live.map fun x => (.ofNat x.1, x.2)
  nextId : s.nextId_ = .ofNat (c.count + 1)
  le : ∀ x ∈ c.live, x.1 ≤ c.count

theorem Connections.count_le_change (x : Change S) : c.count ≤ (c.change x).count := by
  cases x with
  | connect slot => exact Nat.le_succ _
  | disconnect conn => rw [Connections.change]; split_ifs <;> exact le_rfl
  | disconnectAll => exact le_rfl

/-- A change of the slots is one of the connections. -/
theorem Refines.change (h : Refines s c) (x : Change S) (hcount : (c.change x).count < 2 ^ 32) :
    Refines (s.change x) (c.change x) := by
  cases x with
  | connect slot =>
    refine ⟨?_, ?_, fun y hy => ?_⟩
    · simp [Signal.change, Signal.connect, Connections.change, h.slots, h.nextId]
    · simp only [Signal.change, Signal.connect, Connections.change, h.nextId]
      simp [UInt32.ofNat_add]
    · rcases List.mem_append.1 hy with hy | hy
      · exact (h.le y hy).trans (Nat.le_succ _)
      · rw [List.mem_singleton.1 hy]
        exact le_rfl
  | disconnect conn =>
    rw [Signal.change, Signal.disconnect, Connections.change]
    have hlt : c.count < 2 ^ 32 := (Connections.count_le_change _).trans_lt hcount
    split_ifs with hvalid
    · refine ⟨?_, h.nextId, fun y hy => h.le y (List.mem_filter.1 hy).1⟩
      rw [h.slots, List.filter_map]
      refine congrArg _ (List.filter_congr fun y hy => ?_)
      have hy := (h.le y hy).trans_lt hlt
      simp only [Function.comp_apply, decide_eq_decide]
      rw [not_iff_not, ← UInt32.toNat_inj, UInt32.toNat_ofNat_of_lt' hy]
    · exact h
  | disconnectAll => exact ⟨rfl, h.nextId, fun y hy => absurd hy List.not_mem_nil⟩

namespace Fired

variable {w : Fired S A}

/-- The slots are those of the connections, as long as there are ids for them. -/
def Connected (w : Fired S A) : Prop :=
  (Connections.after w.events).count < 2 ^ 32 → Refines w.signal (Connections.after w.events)

theorem connected_new : (new : Fired S A).Connected := fun _ =>
  ⟨rfl, rfl, fun _ hx => absurd hx List.not_mem_nil⟩

theorem Connected.change (h : w.Connected) (x : Change S) : (w.change x).Connected := by
  intro hcount
  simp only [Fired.change, after_changed] at hcount ⊢
  exact (h ((Connections.count_le_change x).trans_lt hcount)).change x hcount

theorem Connected.foldl_change (h : w.Connected) (l : List (Change S)) :
    (l.foldl Fired.change w).Connected := by
  induction l generalizing w with
  | nil => exact h
  | cons x l ih => exact ih (h.change x)

theorem Connected.call (h : w.Connected) (body : S → List (Event S A) → List (Change S)) (slot : S)
    (args : A) : (w.call body slot args).Connected := by
  refine Connected.foldl_change (fun hcount => ?_) _
  rw [after_called] at hcount ⊢
  exact h hcount

end Fired

/-! ## The calls -/

@[simp] theorem calls_changed (x : Change S) : calls (events ++ [.changed x]) = calls events := by
  simp [calls]

@[simp] theorem calls_called (slot : S) (args : A) :
    calls (events ++ [.called slot args]) = calls events ++ [(slot, args)] := by
  simp [calls]

/-- A slot is called once, whatever it does with the slots. -/
theorem calls_call (w : Fired S A) (body : S → List (Event S A) → List (Change S)) (slot : S)
    (args : A) : calls (w.call body slot args).events = calls w.events ++ [(slot, args)] := by
  have hchanges (l : List (Change S)) (w : Fired S A) :
      calls (l.foldl Fired.change w).events = calls w.events := by
    induction l generalizing w with
    | nil => rfl
    | cons x l ih => rw [List.foldl_cons, ih, Fired.change, calls_changed]
  rw [Fired.call, hchanges, calls_called]

end

section

variable {S ι : Type*} {τ : ι → Type*} {moved : ∀ i, τ i → τ i}
  {body : S → List (Event S (∀ i, τ i)) → List (Change S)} {w : Fired S (∀ i, τ i)}

theorem Fired.Connected.callAll (h : w.Connected) (slots : List S) (args : ∀ i, τ i) :
    (callAll moved body slots args w).Connected := by
  induction slots generalizing args w with
  | nil => exact h
  | cons slot slots ih => exact ih (h.call body slot args) _

/-- In every run, the slots are those that are connected. -/
theorem refines_run (l : List (SignalCall S (∀ i, τ i))) : (Fired.run moved body l).Connected := by
  refine Transition.inv_of_foldl (I := Fired.Connected) (fun w a h => ?_) Fired.connected_new l
  cases a with
  | change x => exact h.change x
  | fire args => exact h.callAll _ args

/-- What the slots are called with: each one with what the moves before have left. -/
def handed (moved : ∀ i, τ i → τ i) : List S → (∀ i, τ i) → List (S × ∀ i, τ i)
  | [], _ => []
  | slot :: slots, args => (slot, args) :: handed moved slots fun i => moved i (args i)

theorem calls_callAll (slots : List S) (args : ∀ i, τ i) (w : Fired S (∀ i, τ i)) :
    calls (Fired.callAll moved body slots args w).events =
      calls w.events ++ handed moved slots args := by
  induction slots generalizing args w with
  | nil => exact (List.append_nil _).symm
  | cons slot slots ih =>
    rw [Fired.callAll, ih, calls_call, List.append_assoc]
    rfl

/-- The second slot already gets what a move leaves. -/
theorem handed_eq_iff (slots : List S) (args : ∀ i, τ i) :
    (handed moved slots args = slots.map fun slot => (slot, args)) ↔
      slots.length ≤ 1 ∨ ∀ i, moved i (args i) = args i := by
  constructor
  · intro h
    match slots with
    | [] => exact .inl (Nat.zero_le 1)
    | [_] => exact .inl le_rfl
    | slot :: slot' :: slots =>
      obtain ⟨hsecond, -⟩ := List.cons.inj (List.cons.inj h).2
      exact .inr (congrFun (Prod.mk.inj hsecond).2)
  · rintro (h | h)
    · match slots with
      | [] => rfl
      | [_] => rfl
    · induction slots with
      | nil => rfl
      | cons slot slots ih =>
        have hsame : (fun i => moved i (args i)) = args := funext h
        rw [handed, hsame, ih, List.map_cons]

theorem delivers_iff_handed (args : ∀ i, τ i) (h : w.Connected)
    (hcount : (Connections.after w.events).count < 2 ^ 32) :
    Delivers moved body w args ↔
      (Connections.after w.events).live.length ≤ 1 ∨ ∀ i, moved i (args i) = args i := by
  have hslots : w.signal.slots_.map Prod.snd = (Connections.after w.events).live.map Prod.snd := by
    rw [(h hcount).slots, List.map_map]
    rfl
  rw [Delivers, Fired.fire, calls_callAll, List.append_cancel_left_eq, hslots]
  rw [← List.length_map Prod.snd, ← handed_eq_iff, List.map_map]
  rfl

end

/-- In every run with fewer than `2 ^ 32` connections, each slot that is connected gets the arguments
    that are given to `fire` exactly if at most one is connected, or a move leaves the arguments as
    they are. -/
theorem delivers_iff {S ι : Type*} {τ : ι → Type*} (moved : ∀ i, τ i → τ i)
    (body : S → List (Event S (∀ i, τ i)) → List (Change S)) (l : List (SignalCall S (∀ i, τ i)))
    (args : ∀ i, τ i)
    (hcount : (Connections.after (Fired.run moved body l).events).count < 2 ^ 32) :
    Delivers moved body (Fired.run moved body l) args ↔
      (Connections.after (Fired.run moved body l).events).live.length ≤ 1 ∨
        ∀ i, moved i (args i) = args i :=
  delivers_iff_handed args (refines_run l) hcount

/-- The slots disconnect all slots. -/
def disconnecting (_ : Bool) (_ : List (Event Bool (Unit → Int32))) : List (Change Bool) :=
  [.disconnectAll]

/-- Two slots for a number. -/
theorem delivers_number : Delivers (fun _ x => x) disconnecting
    (.run (fun _ x => x) disconnecting [.change (.connect true), .change (.connect false)])
    fun _ => 5 :=
  (delivers_iff (fun _ x => x) disconnecting [.change (.connect true), .change (.connect false)]
    (fun _ => 5) (by decide)).2 (.inr fun _ => rfl)

/-- Two slots for a string: the second one gets an empty one. -/
theorem delivers_fails_of_string : ¬ ∀ (l : List (SignalCall Bool (Unit → List UInt8)))
    (args : Unit → List UInt8), Delivers (fun _ _ => []) (fun _ _ => [])
      (.run (fun _ _ => []) (fun _ _ => []) l) args := by
  intro hall
  have h := hall [.change (.connect true), .change (.connect false)] fun _ => [97]
  have hsecond := congrArg (fun l => l.map fun x => x.2 ()) h
  exact absurd hsecond (by decide)

end EW8.Core
