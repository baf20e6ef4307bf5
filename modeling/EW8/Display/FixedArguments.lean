import EW8.Display.GraphicItem
import EW8.Lib.Transition

/-!
# Fixed arguments

Several signals may show one graphic item with an argument of their own each, such as the
speed-limit signals of a tachograph: each calls the action through an
`AMJsonFixedArgumentsActionInvoker`, which completes its argument and then passes the
call on. The argument is stored in the action, apart from the list of activators, and
stays there when the signal it came from is released.

So the item may be shown with the argument of a signal that no longer asks for it. It is
shown with a live one in every state of a run exactly if no step of the run takes the last
sender of the stored argument away (`live_iff_holds`).
-/

namespace EW8.Display

/-- `AMJsonFixedArgumentsActionInvoker`, but for the action it calls. -/
structure AMJsonFixedArgumentsActionInvoker where
  itsStringArg : String
  itsIntArgs : List ℤ
  isProcessedWithStringArg : Bool
  deriving DecidableEq, Repr

namespace AMJsonFixedArgumentsActionInvoker

variable {σ : Type*} [DecidableEq σ] (k : AMJsonFixedArgumentsActionInvoker)

/-- The argument that `process` completes, if any. -/
def argument : Option Argument :=
  if k.isProcessedWithStringArg then some (.str k.itsStringArg)
  else match k.itsIntArgs with
    | [i] => some (.ints (.ofInt i) 0 0)
    | [i, f] => some (.ints (.ofInt i) (.ofInt f) 0)
    | [i, f, u] => some (.ints (.ofInt i) (.ofInt f) (.ofInt u))
    | _ => none

/-- `process`. -/
def process (a : AMJsonGraphicItemAction σ) (sender : σ) (on : Bool) :
    AMJsonGraphicItemAction σ :=
  let a := if on then (k.argument.map a.argumentComplete).getD a else a
  a.process sender on

end AMJsonFixedArgumentsActionInvoker

/-- Whether it is a text. -/
def Argument.isStr : Argument → Bool
  | .str _ => true
  | .ints _ _ _ => false

namespace AMJsonGraphicItemAction

variable {σ : Type*} (a : AMJsonGraphicItemAction σ)

/-- The argument that is stored, of the kind of the item. -/
def stored : Argument :=
  if a.isArgOfStringType then .str a.argStr else .ints a.argInt a.argFrac a.argUnits

/-- The argument that a QML item of this kind is shown with. -/
def shown (n : RootedTreeNode) : Argument :=
  if a.isArgOfStringType then .str n.stringArg else .ints n.valueInt n.valueFrac n.unit

/-- Where senders have the invokers `inv`: the item, if shown, is shown with the argument of
    one that is listed. -/
def Live (inv : σ → AMJsonFixedArgumentsActionInvoker) : Prop :=
  ∀ n ∈ a.itsDisplay.nodes, 0 < n.activationSemaphore →
    ∃ s ∈ a.activators, (inv s).argument = some (a.shown n)

instance (inv : σ → AMJsonFixedArgumentsActionInvoker) : Decidable (a.Live inv) :=
  inferInstanceAs (Decidable (∀ n ∈ a.itsDisplay.nodes, 0 < n.activationSemaphore →
    ∃ s ∈ a.activators, (inv s).argument = some (a.shown n)))

/-- A call of the invoker of `s`. -/
def call [DecidableEq σ] (inv : σ → AMJsonFixedArgumentsActionInvoker) (e : σ × Bool) :
    AMJsonGraphicItemAction σ :=
  (inv e.1).process a e.1 e.2

/-- One call after the other. -/
def calls [DecidableEq σ] (inv : σ → AMJsonFixedArgumentsActionInvoker) (l : List (σ × Bool)) :
    AMJsonGraphicItemAction σ :=
  l.foldl (fun a e => a.call inv e) a

/-- A listed sender other than `s` has the stored argument. -/
def OtherHolds (inv : σ → AMJsonFixedArgumentsActionInvoker) (s : σ) : Prop :=
  ∃ t ∈ a.activators, t ≠ s ∧ (inv t).argument = some a.stored

/-- A call that leaves a sender of the argument to be shown: one with an argument of the kind
    of the item; one while there is nothing to be shown, or no sender left; or one while
    another sender has the stored argument. -/
def Holds (inv : σ → AMJsonFixedArgumentsActionInvoker) : σ × Bool → Prop
  | (s, true) =>
    a.itsDisplay.nodes = [] ∨ (∃ arg, (inv s).argument = some arg ∧ arg.isStr = a.isArgOfStringType) ∨
      ((inv s).argument = none ∧ a.areArgumentsReceived = false) ∨ a.OtherHolds inv s
  | (s, false) =>
    a.itsDisplay.nodes = [] ∨ s ∉ a.activators ∨ a.activators = [s] ∨
      a.areArgumentsReceived = false ∨ a.OtherHolds inv s

/-! ## The argument on display is the stored one -/

/-- An action that is called through such invokers, and no supplement: what is shown is shown with
    the stored argument. -/
structure Fixed : Prop where
  consistent : a.Consistent
  hasArguments : a.hasArguments = true
  isSupplemented : a.isSupplemented = false
  shows : ∀ n ∈ a.itsDisplay.nodes, 0 < n.activationSemaphore → a.shown n = a.stored

variable {a} {s : σ} {inv : σ → AMJsonFixedArgumentsActionInvoker}

theorem shown_of_shows {n : RootedTreeNode} (h : n.Shows a.stored) : a.shown n = a.stored := by
  unfold shown
  unfold stored at h ⊢
  cases hstr : a.isArgOfStringType with
  | true =>
    rw [if_pos hstr] at h
    exact congrArg Argument.str h
  | false =>
    rw [if_neg (by simp [hstr])] at h
    obtain ⟨hi, hf, hu⟩ := h
    simp [hi, hf, hu]

theorem arguments_eq (hargs : a.hasArguments = true) (hsup : a.isSupplemented = false)
    (hrec : a.areArgumentsReceived = true) : a.arguments = some a.stored := by
  unfold arguments stored
  cases hstr : a.isArgOfStringType <;> simp [hargs, hsup, hrec]

namespace Fixed

/-- Nothing to be shown, nothing shown. -/
theorem shows_of_not_due (h : a.Consistent) (hdue : a.isDue = false) {n : RootedTreeNode}
    (hn : n ∈ a.itsDisplay.nodes) : ¬0 < n.activationSemaphore := by
  rw [h.counts.pos_iff hn, hdue]
  exact Bool.false_ne_true

/-- Arguments are complete: shown are the new ones. -/
theorem complete (h : a.Consistent) (hargs : a.hasArguments = true) (hsup : a.isSupplemented = false)
    {c : Bool} (hsame : a.areArgumentsReceived = true → c = false →
      ∀ n ∈ a.itsDisplay.nodes, 0 < n.activationSemaphore → a.shown n = a.stored) :
    (a.complete c).Fixed := by
  have hcons := h.complete c
  rw [complete_eq] at hcons ⊢
  split_ifs at hcons ⊢ with hon
  · refine ⟨hcons, hargs, hsup, fun n hn _ => ?_⟩
    have harg : ({ a with areArgumentsReceived := true } : AMJsonGraphicItemAction σ).arguments =
        some a.stored := arguments_eq hargs hsup rfl
    simp only [harg, activated, Option.map_some, Option.getD_some] at hn
    exact shown_of_shows (MainProcess.shows_activate (MainProcess.counts_deactivate h.counts) n hn)
  · refine ⟨hcons, hargs, hsup, fun n hn hpos => ?_⟩
    -- the item is shown already, with these arguments
    have hdue := isDue_iff.1 ((h.counts.pos_iff hn).1 hpos)
    rw [← getIsActived_iff] at hdue
    have hrec : a.areArgumentsReceived = true := by simpa [hargs] using hdue.2
    have hc : c = false := by
      by_contra hc
      exact hon ⟨hdue.1, .inr (by simpa using hc)⟩
    exact hsame hrec hc n hn hpos

theorem argumentComplete (h : a.Fixed) (arg : Argument) : (a.argumentComplete arg).Fixed := by
  obtain ⟨hcons, hargs, hsup, hshows⟩ := h
  cases arg with
  | str x =>
    refine complete (a := { a with argStr := x }) ⟨hcons.nodup, hcons.counts, hcons.skipped⟩ hargs hsup
      fun _ hc n hn hpos => ?_
    have hsame : a.argStr = x := by simpa using hc
    subst hsame
    exact hshows n hn hpos
  | ints i f u =>
    refine complete (a := { a with argInt := i, argFrac := f, argUnits := u })
      ⟨hcons.nodup, hcons.counts, hcons.skipped⟩ hargs hsup fun _ hc n hn hpos => ?_
    have hsame : a.argInt = i ∧ a.argFrac = f ∧ a.argUnits = u := by simpa [not_or] using hc
    obtain ⟨rfl, rfl, rfl⟩ := hsame
    exact hshows n hn hpos

theorem process [DecidableEq σ] (h : a.Fixed) (s : σ) (on : Bool) : (a.process s on).Fixed := by
  have hcons := h.consistent.process s on
  cases on with
  | true =>
    by_cases hs : s ∈ a.activators
    · rw [process_true_of_mem hs]
      exact h
    by_cases hnil : a.activators = []
    · rw [process_true_of_nil hnil] at hcons ⊢
      refine ⟨hcons, h.hasArguments, h.isSupplemented, fun n hn hpos => ?_⟩
      -- the first sender: shown if the arguments are complete
      have hrec : a.areArgumentsReceived = true := by
        have hdue := isDue_iff.1 ((hcons.counts.pos_iff hn).1 hpos)
        simpa [h.hasArguments] using hdue.2
      simp only [arguments_eq h.hasArguments h.isSupplemented hrec, activated, Option.map_some,
        Option.getD_some] at hn
      exact shown_of_shows
        (MainProcess.shows_activate (h.consistent.counts_of_nil hnil) n hn)
    · rw [process_true_of_ne_nil hs hnil] at hcons ⊢
      exact ⟨hcons, h.hasArguments, h.isSupplemented, h.shows⟩
  | false =>
    by_cases hs : s ∈ a.activators
    · by_cases hone : a.activators = [s]
      · rw [process_false_of_singleton hone] at hcons ⊢
        exact ⟨hcons, h.hasArguments, h.isSupplemented,
          fun n hn hpos => absurd hpos (shows_of_not_due hcons rfl hn)⟩
      · rw [process_false_of_mem hs hone] at hcons ⊢
        exact ⟨hcons, h.hasArguments, h.isSupplemented, h.shows⟩
    · rw [process_false_of_not_mem hs]
      exact h

theorem call [DecidableEq σ] (h : a.Fixed) (e : σ × Bool) : (a.call inv e).Fixed := by
  unfold AMJsonGraphicItemAction.call AMJsonFixedArgumentsActionInvoker.process
  refine process ?_ e.1 e.2
  split_ifs
  · cases (inv e.1).argument with
    | none => exact h
    | some arg => exact h.argumentComplete arg
  · exact h

end Fixed

/-! ## Whose argument it is -/

theorem live_iff (h : a.Fixed) : a.Live inv ↔ a.itsDisplay.nodes = [] ∨ a.activators = [] ∨
    a.areArgumentsReceived = false ∨ ∃ t ∈ a.activators, (inv t).argument = some a.stored := by
  have hshown : ∀ n ∈ a.itsDisplay.nodes, 0 < n.activationSemaphore ↔
      a.activators ≠ [] ∧ a.areArgumentsReceived = true := fun n hn => by
    rw [h.consistent.counts.pos_iff hn, isDue_iff]
    simp [h.hasArguments]
  constructor
  · intro hlive
    by_cases hnil : a.activators = []
    · exact .inr (.inl hnil)
    cases hrec : a.areArgumentsReceived with
    | false => exact .inr (.inr (.inl rfl))
    | true =>
      cases hnodes : a.itsDisplay.nodes with
      | nil => exact .inl rfl
      | cons n l =>
        have hn : n ∈ a.itsDisplay.nodes := hnodes ▸ List.mem_cons_self
        have hpos := (hshown n hn).2 ⟨hnil, hrec⟩
        exact .inr (.inr (.inr (h.shows n hn hpos ▸ hlive n hn hpos)))
  · rintro (hnodes | hnil | hrec | hholds) n hn hpos
    · exact absurd (hnodes ▸ hn) List.not_mem_nil
    · exact absurd hnil ((hshown n hn).1 hpos).1
    · exact absurd hrec (by simp [((hshown n hn).1 hpos).2])
    · exact (h.shows n hn hpos).symm ▸ hholds

@[simp] theorem activators_complete (c : Bool) : (a.complete c).activators = a.activators := by
  rw [complete_eq]
  split_ifs <;> rfl

@[simp] theorem areArgumentsReceived_complete (c : Bool) :
    (a.complete c).areArgumentsReceived = true := rfl

@[simp] theorem stored_complete (c : Bool) : (a.complete c).stored = a.stored := by
  rw [complete_eq]
  split_ifs <;> rfl

theorem length_nodes_activated (d : MainProcess) (x : Option Argument) :
    (activated d x).nodes.length = d.nodes.length := by
  cases x <;> simp [activated]

@[simp] theorem length_nodes_complete (c : Bool) :
    (a.complete c).itsDisplay.nodes.length = a.itsDisplay.nodes.length := by
  rw [complete_eq]
  split_ifs <;> simp [length_nodes_activated]

@[simp] theorem activators_argumentComplete (arg : Argument) :
    (a.argumentComplete arg).activators = a.activators := by
  cases arg <;> simp [argumentComplete]

@[simp] theorem areArgumentsReceived_argumentComplete (arg : Argument) :
    (a.argumentComplete arg).areArgumentsReceived = true := by
  cases arg <;> rfl

theorem length_nodes_argumentComplete (arg : Argument) :
    (a.argumentComplete arg).itsDisplay.nodes.length = a.itsDisplay.nodes.length := by
  cases arg <;> simp [argumentComplete]

theorem stored_argumentComplete (arg : Argument) : (a.argumentComplete arg).stored =
    if arg.isStr = a.isArgOfStringType then arg else a.stored := by
  cases arg with
  | str x =>
    rw [argumentComplete, stored_complete]
    cases hstr : a.isArgOfStringType <;> simp [stored, Argument.isStr, hstr]
  | ints i f u =>
    rw [argumentComplete, stored_complete]
    cases hstr : a.isArgOfStringType <;> simp [stored, Argument.isStr, hstr]

theorem isStr_stored : a.stored.isStr = a.isArgOfStringType := by
  unfold stored
  cases a.isArgOfStringType <;> rfl

section

variable [DecidableEq σ] (a s) (on : Bool)

theorem stored_process : (a.process s on).stored = a.stored := by
  simp only [process, activate, deactivate]
  split_ifs <;> rfl

theorem length_nodes_process :
    (a.process s on).itsDisplay.nodes.length = a.itsDisplay.nodes.length := by
  have hactivate : (a.activate false).itsDisplay.nodes.length = a.itsDisplay.nodes.length := by
    simp only [activate]
    split_ifs
    · exact (length_nodes_activated _ _).trans MainProcess.length_nodes_deactivate
    · exact length_nodes_activated _ _
    · rfl
  have hdeactivate : a.deactivate.itsDisplay.nodes.length = a.itsDisplay.nodes.length := by
    simp only [deactivate]
    split_ifs
    · exact MainProcess.length_nodes_deactivate
    · rfl
  simp only [process]
  split_ifs
  exacts [rfl, hactivate, hdeactivate, rfl, rfl]

theorem areArgumentsReceived_process_true :
    (a.process s true).areArgumentsReceived = a.areArgumentsReceived := by
  simp only [process, activate]
  split_ifs <;> rfl

end

theorem Initial.fixed (h : a.Initial) (hargs : a.hasArguments = true) : a.Fixed where
  consistent := h.consistent
  hasArguments := hargs
  isSupplemented := h.isSupplemented
  shows n hn hpos := absurd hpos (by simp [h.nodes n hn])

variable [DecidableEq σ]

/-- A call with `true`: whose argument is stored then, and whether it is to be shown. -/
theorem live_process_true (h : a.Fixed) : (a.process s true).Live inv ↔
    a.itsDisplay.nodes = [] ∨ a.areArgumentsReceived = false ∨
      (inv s).argument = some a.stored ∨ a.OtherHolds inv s := by
  rw [live_iff (h.process s true), stored_process, areArgumentsReceived_process_true,
    ← List.length_eq_zero_iff, length_nodes_process, List.length_eq_zero_iff]
  have hne : (a.process s true).activators ≠ [] :=
    List.ne_nil_of_mem (mem_process_true.2 (.inr rfl))
  have hex : (∃ t ∈ (a.process s true).activators, (inv t).argument = some a.stored) ↔
      (inv s).argument = some a.stored ∨ a.OtherHolds inv s := by
    constructor
    · rintro ⟨t, ht, harg⟩
      by_cases hts : t = s
      · exact .inl (hts ▸ harg)
      · exact .inr ⟨t, (mem_process_true.1 ht).resolve_right hts, hts, harg⟩
    · rintro (harg | ⟨t, ht, -, harg⟩)
      · exact ⟨s, mem_process_true.2 (.inr rfl), harg⟩
      · exact ⟨t, mem_process_true.2 (.inl ht), harg⟩
  rw [hex]
  simp [hne]

theorem live_call_true (h : a.Fixed) : (a.call inv (s, true)).Live inv ↔ a.Holds inv (s, true) := by
  unfold call AMJsonFixedArgumentsActionInvoker.process Holds
  cases harg : (inv s).argument with
  | none =>
    rw [if_pos rfl, Option.map_none, Option.getD_none, live_process_true h]
    simp [harg]
  | some arg =>
    rw [if_pos rfl, Option.map_some, Option.getD_some, live_process_true (h.argumentComplete arg),
      ← List.length_eq_zero_iff, length_nodes_argumentComplete, List.length_eq_zero_iff]
    have hstored := stored_argumentComplete (a := a) arg
    by_cases hkind : arg.isStr = a.isArgOfStringType
    · -- it is the argument of `s` now
      rw [if_pos hkind] at hstored
      have hown := harg.trans (congrArg some hstored.symm)
      exact iff_of_true (.inr (.inr (.inl hown))) (.inr (.inl ⟨arg, harg, hkind⟩))
    · -- the one before is kept, and is not of `s`
      rw [if_neg hkind] at hstored
      have hne : arg ≠ a.stored := fun h => hkind (h ▸ isStr_stored)
      simp [OtherHolds, hstored, harg, hkind, hne]

theorem live_call_false (h : a.Fixed) (hlive : a.Live inv) :
    (a.call inv (s, false)).Live inv ↔ a.Holds inv (s, false) := by
  have hcall : a.call inv (s, false) = a.process s false := rfl
  rw [hcall]
  by_cases hs : s ∈ a.activators
  · by_cases hone : a.activators = [s]
    · have hnil : (a.process s false).activators = [] := by rw [process_false_of_singleton hone]
      exact iff_of_true ((live_iff (h.process s false)).2 (.inr (.inl hnil)))
        (.inr (.inr (.inl hone)))
    · have hleft : a.activators.erase s ≠ [] := by
        rw [Ne, List.erase_eq_nil_iff, not_or]
        exact ⟨List.ne_nil_of_mem hs, hone⟩
      have hfixed := h.process s false
      rw [process_false_of_mem hs hone] at hfixed ⊢
      rw [live_iff hfixed]
      have hex : (∃ t ∈ a.activators.erase s, (inv t).argument = some a.stored) ↔
          a.OtherHolds inv s :=
        exists_congr fun t => by rw [h.consistent.nodup.mem_erase_iff, and_comm (a := t ≠ s), and_assoc]
      simp only [Holds, hleft, hs, hone, not_true_eq_false, false_or]
      exact or_congr_right (or_congr_right hex)
  · rw [process_false_of_not_mem hs]
    exact iff_of_true hlive (.inr (.inl hs))

/-- In a run of calls by any senders, the item is shown with the argument of a listed sender in
    every state exactly if each call leaves a sender of the argument to be shown. -/
theorem live_iff_holds (h : a.Initial) (hargs : a.hasArguments = true)
    (inv : σ → AMJsonFixedArgumentsActionInvoker) (l : List (σ × Bool)) :
    (∀ l', l' <+: l → (a.calls inv l').Live inv) ↔
      ∀ l₁ e l₂, l = l₁ ++ e :: l₂ → (a.calls inv l₁).Holds inv e := by
  have hstep : ∀ (b : AMJsonGraphicItemAction σ) (e : σ × Bool), b.Fixed ∧ b.Live inv →
      ((b.call inv e).Fixed ∧ (b.call inv e).Live inv ↔ b.Holds inv e) := by
    rintro b ⟨s, on⟩ ⟨hfixed, hlive⟩
    rw [and_iff_right (hfixed.call _)]
    cases on with
    | true => exact live_call_true hfixed
    | false => exact live_call_false hfixed hlive
  have hfixed : a.Fixed := h.fixed hargs
  have hlive : a.Live inv := (live_iff hfixed).2 (.inr (.inl h.activators))
  have hrun : ∀ l', (a.calls inv l').Fixed :=
    Transition.inv_of_foldl (fun b e hb => hb.call e) hfixed
  have hiff := Transition.foldl_iff_of_step hstep ⟨hfixed, hlive⟩ (l := l)
  exact ⟨fun hall => hiff.2 fun l' hl' => ⟨hrun l', hall l' hl'⟩,
    fun hholds l' hl' => (hiff.1 hholds l' hl').2⟩

/-- An item with one QML item, called by two signals: with 30 and with 50. -/
def speedLimit : AMJsonGraphicItemAction Bool where
  hasArguments := true
  areArgumentsReceived := false
  isSupplemented := false
  itsSupplimentary := .int 0
  argInt := 0
  argFrac := 0
  argUnits := 0
  argStr := ""
  isArgOfStringType := false
  itsDisplay := ⟨[⟨0, 0, 0, 0, ""⟩], 0⟩
  activators := []

/-- Their invokers. -/
def limits (s : Bool) : AMJsonFixedArgumentsActionInvoker := ⟨"", [if s then 50 else 30], false⟩

theorem initial_speedLimit : speedLimit.Initial := ⟨rfl, rfl, rfl, by decide, rfl⟩

theorem live_iff_holds_speedLimit :
    (∀ l', l' <+: [(false, true), (true, true), (true, false)] → (speedLimit.calls limits l').Live limits) ↔
      ∀ l₁ e l₂, [(false, true), (true, true), (true, false)] = l₁ ++ e :: l₂ →
        (speedLimit.calls limits l₁).Holds limits e :=
  live_iff_holds initial_speedLimit rfl limits _

/-- The second signal is released before the first: the item is still shown with its argument. -/
theorem live_fails_of_release : speedLimit.Initial ∧ speedLimit.hasArguments = true ∧
    ¬(speedLimit.calls limits [(false, true), (true, true), (true, false)]).Live limits :=
  ⟨initial_speedLimit, rfl, by decide +kernel⟩

end AMJsonGraphicItemAction

end EW8.Display
