import EW8.Display.ValueTables

/-!
# Supplementary values

A supplemented signal hands its supplementary value to the item it shows. Where the value
is a new one, it releases the item and activates it again, so that the display takes the
value. But the display takes it only from the first activation: as long as another signal
shows the item, the value is stored, and the old one stays on display.

So what is on display is current after every signal exactly if no signal changes the value
of an item that others show (`current_iff_reaches`).
-/

namespace EW8.Display

namespace AMJsonGraphicItemAction

variable {σ : Type*} {a : AMJsonGraphicItemAction σ}

/-- The supplement, if set, is on display, if the item is. -/
def Current (a : AMJsonGraphicItemAction σ) : Prop :=
  a.isSupplemented = true → ∀ n ∈ a.itsDisplay.nodes, 0 < n.activationSemaphore →
    n.valueInt = a.itsSupplimentary.toUInt8

instance : Decidable a.Current :=
  inferInstanceAs (Decidable (a.isSupplemented = true → ∀ n ∈ a.itsDisplay.nodes,
    0 < n.activationSemaphore → n.valueInt = a.itsSupplimentary.toUInt8))

variable [DecidableEq σ] {s : σ}

theorem supplement_process (on : Bool) : (a.process s on).isSupplemented = a.isSupplemented ∧
    (a.process s on).itsSupplimentary = a.itsSupplimentary := by
  simp only [process, activate, deactivate]
  split_ifs <;> exact ⟨rfl, rfl⟩

theorem hasArguments_process (on : Bool) : (a.process s on).hasArguments = a.hasArguments :=
  hasArguments_step a (.process s on)

omit [DecidableEq σ] in
/-- What the hand-over of a supplement changes. -/
theorem setSupplimentary_spec (a : AMJsonGraphicItemAction σ) (v : QVariant) :
    ∃ w, (a.setSupplimentary v).1 = { a with isSupplemented := true, itsSupplimentary := w } ∧
      w.toUInt8 = v.toUInt8 ∧ ((a.setSupplimentary v).2 = false → (a.setSupplimentary v).1 = a) := by
  unfold setSupplimentary
  split_ifs with h
  · exact ⟨v, rfl, rfl, fun hf => absurd hf (by simp)⟩
  · simp only [Bool.or_eq_true, Bool.not_eq_true', not_or, Bool.not_eq_false] at h
    refine ⟨a.itsSupplimentary, ?_, ?_, fun _ => rfl⟩
    · cases a
      cases h.1
      rfl
    · have heq : a.itsSupplimentary.toInt = v.toInt := (of_decide_eq_true h.2).2
      rw [QVariant.toUInt8, QVariant.toUInt8, heq]

/-- Some other sender is left. -/
theorem process_false_of_left (h : (a.process s false).activators ≠ []) :
    a.process s false = { a with activators := a.activators.erase s } := by
  by_cases hs : s ∈ a.activators
  · refine process_false_of_mem hs fun hone => h ?_
    rw [process_false_of_singleton hone]
  · rw [process_false_of_not_mem hs, List.erase_of_not_mem hs]

/-- A sender leaves, and the item keeps what it shows, or is not shown. -/
theorem Current.process_false (hcur : a.Current) (h : a.Consistent) (s : σ) :
    (a.process s false).Current := by
  by_cases hnil : (a.process s false).activators = []
  · intro _ n hn hpos
    have hdue := isDue_iff.1 (((h.process s false).counts.pos_iff hn).1 hpos)
    exact absurd hnil hdue.1
  · rw [process_false_of_left hnil]
    exact hcur

/-- The pair of calls by which a sender hands over a new supplement: it has an effect if there is no
    other sender. -/
theorem current_reactivate (h : a.Consistent) (hargs : a.hasArguments = false)
    (hsup : a.isSupplemented = true) : ((a.process s false).process s true).Current ↔
      (∀ t ∈ a.activators, t = s) ∨
        ∀ n ∈ a.itsDisplay.nodes, n.valueInt = a.itsSupplimentary.toUInt8 := by
  have hmem := fun t => mem_process_false (s := s) (t := t) h.nodup
  by_cases hnil : (a.process s false).activators = []
  · -- the last one: the item is shown anew, with the supplement
    have hall : ∀ t ∈ a.activators, t = s := by
      intro t ht
      by_contra hts
      exact absurd ((hmem t).2 ⟨ht, hts⟩) (hnil ▸ List.not_mem_nil)
    refine iff_of_true ?_ (.inl hall)
    have hkeep := supplement_process (a := a) (s := s) false
    have harg : (a.process s false).arguments =
        some (.ints a.itsSupplimentary.toUInt8 0 0) := by
      simp [arguments, hasArguments_process, hargs, hkeep, hsup]
    rw [process_true_of_nil hnil, harg]
    intro _ n hn _
    rw [hkeep.2]
    exact (MainProcess.shows_activate ((h.process s false).counts_of_nil hnil) n hn).1
  · -- others are left: the call with `true` does nothing but list `s`
    have hleft := process_false_of_left hnil
    have hs : s ∉ (a.process s false).activators := fun hs => ((hmem s).1 hs).2 rfl
    have hnot : ¬∀ t ∈ a.activators, t = s := by
      obtain ⟨t, ht⟩ := List.exists_mem_of_ne_nil _ hnil
      exact fun hall => ((hmem t).1 ht).2 (hall t ((hmem t).1 ht).1)
    have hdue : a.isDue = true := by
      refine isDue_iff.2 ⟨?_, .inl hargs⟩
      rintro hemp
      exact hnot fun t ht => absurd (hemp ▸ ht) List.not_mem_nil
    rw [process_true_of_ne_nil hs hnil, hleft, or_iff_right hnot]
    constructor
    · intro hcur n hn
      exact hcur hsup n hn ((h.counts.pos_iff hn).2 hdue)
    · intro hall _ n hn _
      exact hall n hn

end AMJsonGraphicItemAction

namespace AMSignalsModel

variable {σ τ π ι κ : Type*} [DecidableEq σ] [DecidableEq τ] [DecidableEq π] [DecidableEq ι]
  [DecidableEq κ] (m : AMSignalsModel σ τ π ι κ)

/-- What is on display is current. -/
def Current : Prop := ∀ i, (m.items i).Current

/-- A value and a supplementary value are received for a signal. -/
def receive (e : σ × QVariant × QVariant) : AMSignalsModel σ τ π ι κ := m.process e.1 e.2.1 e.2.2

/-- One pair after the other. -/
def receives (l : List (σ × QVariant × QVariant)) : AMSignalsModel σ τ π ι κ :=
  l.foldl (fun m e => m.receive e) m

/-- The signals are supplemented, and lead to graphic items without arguments. -/
structure Supplemented : Prop where
  isSupplementedSignalEntry : ∀ s, (m.signals s).isSupplementedSignalEntry = true
  itsValueTable : ∀ s v p, (m.signals s).itsValueTable v = some p → ∃ i, p = .action i
  hasArguments : ∀ i, (m.items i).hasArguments = false

/-- A supplement that gets on display: where others show the item, it is the one shown. -/
def Reaches (e : σ × QVariant × QVariant) : Prop :=
  (m.disablers (m.signals e.1).itsProtocol).isEmpty && (m.signals e.1).getIsEnabled →
    ∀ i, (m.signals e.1).toActivate e.2.1 e.2.2 = some (.action i) →
      (∀ x ∈ (m.items i).activators, x = .inl e.1) ∨ (m.items i).itsDisplay.nodes = [] ∨
        (m.items i).itsSupplimentary.toUInt8 = e.2.2.toUInt8

/-- What holds on the way: an item with a sender has a supplement. -/
structure Supplied : Prop where
  exclusive : m.Exclusive
  supplemented : m.Supplemented
  activatedAction : ∀ s p, (m.signals s).activatedAction = some p → ∃ i, p = .action i
  isSupplemented : ∀ i, (m.items i).activators ≠ [] → (m.items i).isSupplemented = true

variable {m} {s : σ} {p : Option (Processable ι κ)} {i k : ι} {v sup : QVariant}

set_option linter.unusedSectionVars false

theorem items_call (hp : ∀ q, p = some q → ∃ i, q = .action i) (x : σ ⊕ τ) (on : Bool) (k : ι) :
    (m.call x on p).items k =
      if p.map m.item = some k then (m.items k).process x on else m.items k := by
  cases p with
  | none => rfl
  | some q =>
    obtain ⟨i, rfl⟩ := hp q rfl
    by_cases hk : k = i
    · subst hk
      simp [call, item]
    · simp [call, item, items_setItem_of_ne hk, Ne.symm hk]

/-- The signal is released by all items, and asks for one. -/
theorem items_settle (h : m.Exclusive)
    (hact : ∀ q, (m.signals s).activatedAction = some q → ∃ i, q = .action i)
    (hp : ∀ q, p = some q → ∃ i, q = .action i) (k : ι) : (m.settle s p).items k =
      if p.map m.item = some k then ((m.items k).process (.inl s) false).process (.inl s) true
      else (m.items k).process (.inl s) false := by
  have hfalse : (m.call (.inl s) false (m.signals s).activatedAction).items k =
      (m.items k).process (.inl s) false := by
    rw [items_call hact]
    split_ifs with hk
    · rfl
    · -- it has not recorded to be listed there
      refine (AMJsonGraphicItemAction.process_false_of_not_mem fun hs => hk ?_).symm
      exact h.recorded s k hs
  have hsettle : (m.settle s p).items k = ((m.call (.inl s) false
      (m.signals s).activatedAction).call (.inl s) true p).items k := rfl
  rw [hsettle, items_call hp, item_call, hfalse]

theorem items_settle_action (h : m.Supplied) (k : ι) :
    (m.settle s (some (.action i))).items k =
      if i = k then ((m.items k).process (.inl s) false).process (.inl s) true
      else (m.items k).process (.inl s) false :=
  (items_settle h.exclusive (h.activatedAction s)
    (fun _ hq => ⟨i, (Option.some.inj hq).symm⟩) k).trans (if_congr Option.some_inj rfl rfl)

theorem signals_settle (t : σ) : (m.settle s p).signals t =
    if t = s then { m.signals s with activatedAction := p } else m.signals t := by
  have hcall : ∀ (m : AMSignalsModel σ τ π ι κ) x on q, (m.call x on q).signals = m.signals := by
    rintro m x on (_ | q)
    · rfl
    · obtain ⟨a, hq, -, -⟩ := call_some (m := m) q x on
      rw [hq, setItem]
  rw [settle, setActivatedAction, hcall, hcall]
  split_ifs with hts
  · rw [hts, signals_setSignal_self]
  · rw [signals_setSignal_of_ne hts, hcall, hcall]

theorem Supplemented.of_config {m' : AMSignalsModel σ τ π ι κ} (h : m.Supplemented)
    (hsignals : ∀ t, (m'.signals t).isSupplementedSignalEntry =
      (m.signals t).isSupplementedSignalEntry ∧
      (m'.signals t).itsValueTable = (m.signals t).itsValueTable)
    (hargs : ∀ k, (m'.items k).hasArguments = (m.items k).hasArguments) : m'.Supplemented where
  isSupplementedSignalEntry t := (hsignals t).1 ▸ h.isSupplementedSignalEntry t
  itsValueTable t v p hp := h.itsValueTable t v p ((hsignals t).2 ▸ hp)
  hasArguments k := (hargs k).trans (h.hasArguments k)

theorem toActivate_eq (h : m.Supplemented) (s : σ) (v sup : QVariant) :
    (m.signals s).toActivate v sup = none ∨ ∃ i, (m.signals s).toActivate v sup = some (.action i) := by
  unfold AMJsonSignal.toActivate
  split_ifs
  · cases hv : (m.signals s).itsValueTable v.toInt with
    | none => exact .inl rfl
    | some p =>
      obtain ⟨i, rfl⟩ := h.itsValueTable s _ p hv
      exact .inr ⟨i, rfl⟩
  · exact .inl rfl

theorem Supplied.setSupplimentary (h : m.Supplied) (b : Bool) (sup : QVariant)
    (p : Option (Processable ι κ)) : (m.setSupplimentary b sup p).1.Supplied := by
  have hsame : ∀ k, ((m.setSupplimentary b sup p).1.items k).hasArguments = (m.items k).hasArguments ∧
      ((m.setSupplimentary b sup p).1.items k).activators = (m.items k).activators ∧
      ((m.items k).isSupplemented = true →
        ((m.setSupplimentary b sup p).1.items k).isSupplemented = true) := by
    intro k
    cases p with
    | none => exact ⟨rfl, rfl, id⟩
    | some q =>
      cases b with
      | false => exact ⟨rfl, rfl, id⟩
      | true =>
        obtain ⟨w, hw, -, -⟩ := (m.items (m.item q)).setSupplimentary_spec sup
        have hset : (m.setSupplimentary true sup (some q)).1 =
            m.setItem (m.item q) ((m.items (m.item q)).setSupplimentary sup).1 := rfl
        rw [hset, hw]
        by_cases hk : k = m.item q
        · subst hk
          rw [items_setItem_self]
          exact ⟨rfl, rfl, fun _ => rfl⟩
        · rw [items_setItem_of_ne hk]
          exact ⟨rfl, rfl, id⟩
  refine ⟨h.exclusive.setSupplimentary b sup, h.supplemented.of_config (fun t => ?_)
    (fun k => (hsame k).1), fun t q hq => ?_, fun k hk => ?_⟩
  · rw [signals_setSupplimentary]
    exact ⟨rfl, rfl⟩
  · rw [signals_setSupplimentary] at hq
    exact h.activatedAction t q hq
  · rw [(hsame k).2.1] at hk
    exact (hsame k).2.2 (h.isSupplemented k hk)

theorem Supplied.settle (h : m.Supplied) (s : σ) (hp : ∀ q, p = some q → ∃ i, q = .action i)
    (hset : ∀ k, p.map m.item = some k → (m.items k).isSupplemented = true) :
    (m.settle s p).Supplied := by
  have hitems := items_settle (s := s) h.exclusive (h.activatedAction s) hp
  refine ⟨h.exclusive.settle s p, h.supplemented.of_config (fun t => ?_) (fun k => ?_),
    fun t q hq => ?_, fun k hk => ?_⟩
  · rw [signals_settle]
    split_ifs with hts
    · exact hts ▸ ⟨rfl, rfl⟩
    · exact ⟨rfl, rfl⟩
  · rw [hitems]
    split_ifs <;> simp only [AMJsonGraphicItemAction.hasArguments_process]
  · rw [signals_settle] at hq
    split_ifs at hq with hts
    · exact hp q hq
    · exact h.activatedAction t q hq
  · rw [hitems] at hk ⊢
    split_ifs at hk ⊢ with hpk
    · rw [(AMJsonGraphicItemAction.supplement_process true).1,
        (AMJsonGraphicItemAction.supplement_process false).1]
      exact hset k hpk
    · rw [(AMJsonGraphicItemAction.supplement_process false).1]
      refine h.isSupplemented k fun hnil => hk ?_
      rw [AMJsonGraphicItemAction.process_false_of_not_mem (hnil ▸ List.not_mem_nil), hnil]

/-- The item that a value leads to, with the supplement. -/
theorem items_setSupplimentary (sup : QVariant) (i : ι) :
    (m.setSupplimentary true sup (some (.action i))).1 =
      m.setItem i ((m.items i).setSupplimentary sup).1 := rfl

theorem process_none (hon : (m.disablers (m.signals s).itsProtocol).isEmpty &&
    (m.signals s).getIsEnabled) (hp : (m.signals s).toActivate v sup = none) :
    m.process s v sup = m ∨ m.process s v sup = m.settle s none := by
  rw [process_eq, if_pos hon, hp]
  split_ifs
  · exact .inr rfl
  · exact .inl rfl

theorem process_some (h : m.Supplied) (hon : (m.disablers (m.signals s).itsProtocol).isEmpty &&
    (m.signals s).getIsEnabled) (hp : (m.signals s).toActivate v sup = some (.action i)) :
    m.process s v sup = (m.setItem i ((m.items i).setSupplimentary sup).1).settle s (some (.action i)) ∨
      (m.process s v sup = m ∧ (m.items i).itsSupplimentary.toUInt8 = sup.toUInt8) := by
  obtain ⟨w, hw, hwsup, hkeep⟩ := (m.items i).setSupplimentary_spec sup
  rw [process_eq, if_pos hon, hp, h.supplemented.isSupplementedSignalEntry]
  split_ifs with hset
  · exact .inl rfl
  · -- the signal shows the item already, and the value is the stored one
    right
    have hold : ((m.items i).setSupplimentary sup).2 = false :=
      Bool.eq_false_of_not_eq_true (not_or.1 hset).2
    have hsame := hkeep hold
    have hitem : m.setItem i (m.items i) = m := by
      unfold setItem
      rw [Function.update_eq_self]
    have hsup : (m.items i).itsSupplimentary = w :=
      congrArg AMJsonGraphicItemAction.itsSupplimentary (hsame.symm.trans hw)
    rw [items_setSupplimentary, hsame, hitem, hsup]
    exact ⟨rfl, hwsup⟩

theorem Supplied.process (h : m.Supplied) (s : σ) (v sup : QVariant) : (m.process s v sup).Supplied := by
  by_cases hon : ((m.disablers (m.signals s).itsProtocol).isEmpty && (m.signals s).getIsEnabled) = true
  · obtain hp | ⟨i, hp⟩ := toActivate_eq h.supplemented s v sup
    · obtain hm | hm := process_none hon hp
      · exact hm.symm ▸ h
      · rw [hm]
        exact h.settle s (by simp) (by simp)
    · obtain hm | ⟨hm, -⟩ := process_some h hon hp
      · rw [hm]
        have hset := h.setSupplimentary true sup (some (.action i))
        rw [items_setSupplimentary] at hset
        refine hset.settle s (fun q hq => ⟨i, (Option.some.inj hq).symm⟩) fun k hk => ?_
        obtain rfl : i = k := Option.some.inj hk
        obtain ⟨w, hw, -, -⟩ := (m.items i).setSupplimentary_spec sup
        rw [items_setItem_self, hw]
      · exact hm.symm ▸ h
  · rw [process_eq, if_neg hon]
    exact h

/-- Where others show the item, all its QML items show the supplement that is stored. -/
theorem shown_of_others (h : m.Supplied) (hcur : m.Current) (hne : (m.items i).activators ≠ [])
    (x : UInt8) : (∀ n ∈ (m.items i).itsDisplay.nodes, n.valueInt = x) ↔
      (m.items i).itsDisplay.nodes = [] ∨ (m.items i).itsSupplimentary.toUInt8 = x := by
  have hdue : (m.items i).isDue = true :=
    AMJsonGraphicItemAction.isDue_iff.2 ⟨hne, .inl (h.supplemented.hasArguments i)⟩
  have hshown : ∀ n ∈ (m.items i).itsDisplay.nodes,
      n.valueInt = (m.items i).itsSupplimentary.toUInt8 := fun n hn =>
    hcur i (h.isSupplemented i hne) n hn (((h.exclusive.consistent i).counts.pos_iff hn).2 hdue)
  constructor
  · intro hall
    rcases hnodes : (m.items i).itsDisplay.nodes with _ | ⟨n, l⟩
    · exact .inl rfl
    · have hn : n ∈ (m.items i).itsDisplay.nodes := hnodes ▸ List.mem_cons_self
      exact .inr ((hshown n hn).symm.trans (hall n hn))
  · rintro (hnil | hsame) n hn
    · exact absurd (hnil ▸ hn) List.not_mem_nil
    · exact (hshown n hn).trans hsame

theorem current_settle_iff (h : m.Supplied) (hcur : m.Current) :
    ((m.setItem i ((m.items i).setSupplimentary sup).1).settle s (some (.action i))).Current ↔
      (∀ x ∈ (m.items i).activators, x = .inl s) ∨ (m.items i).itsDisplay.nodes = [] ∨
        (m.items i).itsSupplimentary.toUInt8 = sup.toUInt8 := by
  have hset := h.setSupplimentary true sup (some (.action i))
  rw [items_setSupplimentary] at hset
  have hitems := items_settle_action (s := s) (i := i) hset
  obtain ⟨w, hw, hwsup, -⟩ := (m.items i).setSupplimentary_spec sup
  have hreactivate := AMJsonGraphicItemAction.current_reactivate (s := .inl s)
    (hset.exclusive.consistent i) (hset.supplemented.hasArguments i)
    (by rw [items_setItem_self, hw])
  -- the other items are released at most
  have hother : ((m.setItem i ((m.items i).setSupplimentary sup).1).settle s
      (some (.action i))).Current ↔ ((((m.setItem i ((m.items i).setSupplimentary sup).1).items
        i).process (.inl s) false).process (.inl s) true).Current := by
    constructor
    · intro hall
      have hi := hall i
      rwa [hitems, if_pos rfl] at hi
    · intro hi k
      rw [hitems]
      split_ifs with hk
      · exact hk ▸ hi
      · rw [items_setItem_of_ne (Ne.symm hk)]
        exact (hcur k).process_false (h.exclusive.consistent k) _
  rw [hother, hreactivate, items_setItem_self, hw, hwsup]
  by_cases hall : ∀ x ∈ (m.items i).activators, x = .inl s
  · exact iff_of_true (.inl hall) (.inl hall)
  · have hne : (m.items i).activators ≠ [] := fun hnil =>
      hall fun x hx => absurd (hnil ▸ hx) List.not_mem_nil
    rw [or_iff_right hall, or_iff_right hall]
    exact shown_of_others h hcur hne _

/-- A supplement is on display after the step, just if it gets there. -/
theorem current_process_iff (h : m.Supplied) (hcur : m.Current) :
    (m.process s v sup).Current ↔ m.Reaches (s, v, sup) := by
  by_cases hon : ((m.disablers (m.signals s).itsProtocol).isEmpty && (m.signals s).getIsEnabled) = true
  · obtain hp | ⟨i, hp⟩ := toActivate_eq h.supplemented s v sup
    · refine iff_of_true ?_ fun _ i hi => absurd (hp.symm.trans hi) (by simp)
      obtain hm | hm := process_none hon hp
      · exact hm.symm ▸ hcur
      · intro k
        rw [hm, items_settle h.exclusive (h.activatedAction s) (by simp) k, if_neg (by simp)]
        exact (hcur k).process_false (h.exclusive.consistent k) _
    · have hreaches : m.Reaches (s, v, sup) ↔ (∀ x ∈ (m.items i).activators, x = .inl s) ∨
          (m.items i).itsDisplay.nodes = [] ∨
            (m.items i).itsSupplimentary.toUInt8 = sup.toUInt8 := by
        constructor
        · exact fun hr => hr hon i hp
        · intro hr _ k hk
          obtain rfl : i = k := by simpa using hp.symm.trans hk
          exact hr
      rw [hreaches]
      obtain hm | ⟨hm, hsame⟩ := process_some h hon hp
      · rw [hm, current_settle_iff h hcur]
      · exact iff_of_true (hm.symm ▸ hcur) (.inr (.inr hsame))
  · rw [process_eq, if_neg hon]
    exact iff_of_true hcur fun hon' => absurd hon' hon

theorem Initial.supplied (h : m.Initial) (hsup : m.Supplemented) : m.Supplied where
  exclusive := h.exclusive
  supplemented := hsup
  activatedAction s p hp := absurd ((h.activatedAction s).symm.trans hp) (by simp)
  isSupplemented i hne := absurd (h.items i).activators hne

/-- In a run of values and supplements received, the supplement on display is current in every state
    exactly if no signal changes that of an item which others show. -/
theorem current_iff_reaches (h : m.Initial) (hsup : m.Supplemented)
    (l : List (σ × QVariant × QVariant)) :
    (∀ l', l' <+: l → (m.receives l').Current) ↔
      ∀ l₁ e l₂, l = l₁ ++ e :: l₂ → (m.receives l₁).Reaches e := by
  have hsupplied := h.supplied hsup
  have hcur : m.Current := fun i hset =>
    absurd hset (by rw [(h.items i).isSupplemented]; exact Bool.false_ne_true)
  have hstep : ∀ (m : AMSignalsModel σ τ π ι κ) e, m.Supplied ∧ m.Current →
      ((m.receive e).Supplied ∧ (m.receive e).Current ↔ m.Reaches e) := by
    rintro m ⟨s, v, sup⟩ ⟨hm, hcur⟩
    exact (and_iff_right (hm.process s v sup)).trans (current_process_iff hm hcur)
  have hrun : ∀ l', (m.receives l').Supplied :=
    Transition.inv_of_foldl (fun m e hm => hm.process e.1 e.2.1 e.2.2) hsupplied
  have hiff := Transition.foldl_iff_of_step hstep ⟨hsupplied, hcur⟩ (l := l)
  exact ⟨fun hall => hiff.2 fun l' hl' => ⟨hrun l', hall l' hl'⟩,
    fun hreaches l' hl' => (hiff.1 hreaches l' hl').2⟩

theorem supplemented_signs : signs.Supplemented where
  isSupplementedSignalEntry _ := rfl
  itsValueTable _ v p hp := by
    have hv : (if v = 1 then some (Processable.action ()) else none) = some p := hp
    split_ifs at hv
    exact ⟨(), (Option.some.inj hv).symm⟩
  hasArguments _ := rfl

theorem current_iff_reaches_signs :
    (∀ l', l' <+: [(false, .int 1, .int 5), (true, .int 1, .int 7)] →
      (signs.receives l').Current) ↔
      ∀ l₁ e l₂, [(false, .int 1, .int 5), (true, .int 1, .int 7)] = l₁ ++ e :: l₂ →
        (signs.receives l₁).Reaches e :=
  current_iff_reaches initial_signs supplemented_signs _

/-- The second signal brings another supplement: the first one stays on display. -/
theorem current_fails_of_others : signs.Initial ∧ signs.Supplemented ∧
    ¬(signs.receives [(false, .int 1, .int 5), (true, .int 1, .int 7)]).Current :=
  ⟨initial_signs, supplemented_signs, fun h => absurd (h ()) (by decide +kernel)⟩

end AMSignalsModel

end EW8.Display
