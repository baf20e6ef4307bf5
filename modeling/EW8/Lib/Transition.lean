import Mathlib

/-!
# Runs of a transition system

A system with states `σ` and actions `α` is given by an executable partial step
`σ → α → Option σ`: `none` where the action is not possible. A *run* takes a
list of actions in order (`run`), and may be asked to take each of them in a
state where a condition on the state and the action holds (`Meets`).

* `inv_of_meets`: what every step meeting the condition preserves holds at the
  end of every run meeting it;
* `length_le_of_meets`: what every such step makes smaller bounds the length of these runs;
* `meets_iff_of_step`: and if no other step preserves it, only at the end of those;
* `meets_iff_forall`: a condition on the steps, spelled out; `count`: the steps with a property;
* `inv_of_foldl`, `foldl_iff_of_step`: the same where every action is possible in every state;
* `meets_append`, `run_append`: runs compose, so that every state on the way of
  a run is itself the end of a run.
-/

namespace Transition

variable {σ α : Type*} {step : σ → α → Option σ} {C D : σ → α → Prop} {I : σ → Prop}

/-- The state after the actions `l`, taken in order from `s`: `none` if one of
    them is not possible. -/
def run (step : σ → α → Option σ) : σ → List α → Option σ
  | s, [] => some s
  | s, a :: l => (step s a).bind fun s' => run step s' l

/-- Every action of `l`, taken in order from `s`, meets `C` in the state in
    which it is taken. -/
def Meets (step : σ → α → Option σ) (C : σ → α → Prop) : σ → List α → Prop
  | _, [] => True
  | s, a :: l => C s a ∧ ∀ s' ∈ step s a, Meets step C s' l

instance Meets.decidable [∀ s a, Decidable (C s a)] : ∀ s l, Decidable (Meets step C s l)
  | _, [] => isTrue trivial
  | s, a :: l =>
    match h : step s a with
    | none => decidable_of_iff (C s a) ⟨fun hC => ⟨hC, by simp [h]⟩, And.left⟩
    | some s' =>
      have := Meets.decidable s' l
      decidable_of_iff (C s a ∧ Meets step C s' l) (by simp [Meets, h])

@[simp] theorem run_nil (s : σ) : run step s [] = some s := rfl

@[simp] theorem run_cons (s : σ) (a : α) (l : List α) :
    run step s (a :: l) = (step s a).bind fun s' => run step s' l := rfl

@[simp] theorem meets_nil (s : σ) : Meets step C s [] := trivial

theorem meets_cons {s : σ} {a : α} {l : List α} :
    Meets step C s (a :: l) ↔ C s a ∧ ∀ s' ∈ step s a, Meets step C s' l := Iff.rfl

/-- A run of `l₁ ++ l₂` is a run of `l₁` followed by one of `l₂`. -/
theorem run_append (s : σ) (l₁ l₂ : List α) :
    run step s (l₁ ++ l₂) = (run step s l₁).bind fun s' => run step s' l₂ := by
  induction l₁ generalizing s with
  | nil => rfl
  | cons a l₁ ih =>
    cases h : step s a with
    | none => simp [h]
    | some s' => simpa [h] using ih s'

theorem run_append_eq_some {s t : σ} {l₁ l₂ : List α} :
    run step s (l₁ ++ l₂) = some t ↔ ∃ u, run step s l₁ = some u ∧ run step u l₂ = some t := by
  rw [run_append, Option.bind_eq_some_iff]

theorem meets_append {s : σ} {l₁ l₂ : List α} :
    Meets step C s (l₁ ++ l₂) ↔
      Meets step C s l₁ ∧ ∀ u ∈ run step s l₁, Meets step C u l₂ := by
  induction l₁ generalizing s with
  | nil => simp
  | cons a l₁ ih =>
    rw [List.cons_append, meets_cons, meets_cons, and_assoc]
    refine and_congr_right fun _ => ?_
    cases h : step s a with
    | none => simp [h]
    | some s' => simp [h, ih]

theorem Meets.and {s : σ} {l : List α} (hC : Meets step C s l) (hD : Meets step D s l) :
    Meets step (fun s a => C s a ∧ D s a) s l := by
  induction l generalizing s with
  | nil => trivial
  | cons a l ih => exact ⟨⟨hC.1, hD.1⟩, fun s' hs' => ih (hC.2 s' hs') (hD.2 s' hs')⟩

/-- A condition on the actions alone. -/
theorem meets_of_forall {s : σ} {l : List α} (h : ∀ a ∈ l, ∀ s, C s a) : Meets step C s l := by
  induction l generalizing s with
  | nil => trivial
  | cons a l ih =>
    exact ⟨h a List.mem_cons_self s, fun s' _ => ih fun b hb => h b (List.mem_cons_of_mem a hb)⟩

/-- A condition that follows from the one met is met, as long as an invariant of
    the run is at hand. -/
theorem Meets.mono_of_inv (hI : ∀ s a s', I s → C s a → step s a = some s' → I s')
    (hCD : ∀ s a, I s → C s a → D s a) {s : σ} {l : List α} (hs : I s)
    (h : Meets step C s l) : Meets step D s l := by
  induction l generalizing s with
  | nil => trivial
  | cons a l ih =>
    exact ⟨hCD s a hs h.1, fun s' hs' => ih (hI s a s' hs h.1 hs') (h.2 s' hs')⟩

/-- The invariant rule: what every step meeting `C` preserves holds at the end
    of every run meeting `C`. -/
theorem inv_of_meets (hI : ∀ s a s', I s → C s a → step s a = some s' → I s')
    {s t : σ} {l : List α} (hs : I s) (h : Meets step C s l) (ht : run step s l = some t) :
    I t := by
  induction l generalizing s with
  | nil => exact Option.some.inj ht ▸ hs
  | cons a l ih =>
    obtain ⟨s', hs', ht⟩ := Option.bind_eq_some_iff.1 ht
    exact ih (hI s a s' hs h.1 hs') (h.2 s' hs') ht

/-- Where a step keeps an invariant just if it meets `C`, a run meets `C` just if the
    invariant holds in each of its states. -/
theorem meets_iff_of_step (hI : ∀ s a s', I s → step s a = some s' → (I s' ↔ C s a))
    {s t : σ} {l : List α} (hs : I s) (ht : run step s l = some t) :
    Meets step C s l ↔ ∀ l' u, l' <+: l → run step s l' = some u → I u := by
  induction l generalizing s with
  | nil =>
    refine iff_of_true trivial fun l' u hl' hu => ?_
    rw [List.prefix_nil.1 hl'] at hu
    exact Option.some.inj hu ▸ hs
  | cons a l ih =>
    obtain ⟨s', hs', ht⟩ := Option.bind_eq_some_iff.1 ht
    have hsome : ∀ {x}, x ∈ step s a → x = s' := fun hx => Option.some.inj (hx.symm.trans hs')
    rw [meets_cons]
    constructor
    · rintro ⟨hC, hmeets⟩ l' u hl' hu
      have hI' : I s' := (hI s a s' hs hs').2 hC
      cases l' with
      | nil => exact Option.some.inj hu ▸ hs
      | cons b l' =>
        obtain ⟨rfl, hprefix⟩ := List.cons_prefix_cons.1 hl'
        obtain ⟨x, hx, hu⟩ := Option.bind_eq_some_iff.1 hu
        obtain rfl := hsome hx
        exact (ih hI' ht).1 (hmeets x hx) l' u hprefix hu
    · intro hall
      have hI' : I s' :=
        hall [a] s' (List.cons_prefix_cons.2 ⟨rfl, List.nil_prefix⟩) (by simp [run, hs'])
      refine ⟨(hI s a s' hs hs').1 hI', fun x hx => ?_⟩
      obtain rfl := hsome hx
      refine (ih hI' ht).2 fun l' u hl' hu => ?_
      exact hall (a :: l') u (List.cons_prefix_cons.2 ⟨rfl, hl'⟩) (by simp [run, hs', hu])

/-- The invariant rule without a condition on the steps. -/
theorem inv_of_run (hI : ∀ s a s', I s → step s a = some s' → I s')
    {s t : σ} {l : List α} (hs : I s) (ht : run step s l = some t) : I t := by
  induction l generalizing s with
  | nil => exact Option.some.inj ht ▸ hs
  | cons a l ih =>
    obtain ⟨s', hs', ht⟩ := Option.bind_eq_some_iff.1 ht
    exact ih (hI s a s' hs hs') ht

/-- The variant rule: where every step meeting `C` makes a number smaller, a run meeting `C` has at
    most as many steps. -/
theorem length_le_of_meets {J : σ → ℕ → Prop}
    (hJ : ∀ s a s' n, J s n → C s a → step s a = some s' → ∃ n' < n, J s' n')
    {s t : σ} {l : List α} {n : ℕ} (hs : J s n) (h : Meets step C s l) (ht : run step s l = some t) :
    ∃ n', J t n' ∧ l.length + n' ≤ n := by
  induction l generalizing s n with
  | nil => exact ⟨n, Option.some.inj ht ▸ hs, by simp⟩
  | cons a l ih =>
    obtain ⟨s', hs', ht⟩ := Option.bind_eq_some_iff.1 ht
    obtain ⟨m, hm, hJs'⟩ := hJ s a s' n hs h.1 hs'
    obtain ⟨n', hJt, hle⟩ := ih hJs' (h.2 s' hs') ht
    exact ⟨n', hJt, by rw [List.length_cons]; omega⟩

/-- And where a step meeting `C` is possible as long as the goal `G` is not met, some run meets it. -/
theorem exists_run_of_variant {J : σ → ℕ → Prop} {G : σ → Prop}
    (hJ : ∀ s a s' n, J s n → C s a → step s a = some s' → ∃ n' < n, J s' n')
    (hG : ∀ s n, J s n → G s ∨ ∃ a s', C s a ∧ step s a = some s') {s : σ} {n : ℕ} (hs : J s n) :
    ∃ l t, Meets step C s l ∧ run step s l = some t ∧ G t := by
  induction n using Nat.strong_induction_on generalizing s with
  | _ n ih =>
    rcases hG s n hs with hG | ⟨a, s', hC, hs'⟩
    · exact ⟨[], s, trivial, rfl, hG⟩
    · obtain ⟨m, hm, hJs'⟩ := hJ s a s' n hs hC hs'
      obtain ⟨l, t, hmeets, hrun, hG⟩ := ih m hm hJs'
      refine ⟨a :: l, t, ⟨hC, fun x hx => ?_⟩, ?_, hG⟩
      · obtain rfl := Option.some.inj (hx.symm.trans hs')
        exact hmeets
      · rw [run_cons, hs', Option.bind_some, hrun]

/-- A condition on the steps is met just if it is after each part of the run. -/
theorem meets_iff_forall {s : σ} {l : List α} : Meets step C s l ↔
    ∀ l₁ a l₂ u, l = l₁ ++ a :: l₂ → run step s l₁ = some u → C u a := by
  constructor
  · rintro h l₁ a l₂ u rfl hu
    exact ((meets_append.1 h).2 u hu).1
  · intro h
    induction l generalizing s with
    | nil => trivial
    | cons a l ih =>
      refine ⟨h [] a l s rfl rfl, fun s' hs' => ih fun l₁ b l₂ u hl hu => ?_⟩
      refine h (a :: l₁) b l₂ u (by rw [hl, List.cons_append]) ?_
      rw [run_cons, show step s a = some s' from hs', Option.bind_some, hu]

/-! ### Steps that are always possible -/

variable {f : σ → α → σ}

theorem run_some (s : σ) (l : List α) :
    run (fun s a => some (f s a)) s l = some (l.foldl f s) := by
  induction l generalizing s with
  | nil => rfl
  | cons a l ih => rw [run_cons, Option.bind_some, ih, List.foldl_cons]

/-- What every step preserves holds at the end of every run. -/
theorem inv_of_foldl (hI : ∀ s a, I s → I (f s a)) {s : σ} (hs : I s) (l : List α) :
    I (l.foldl f s) := by
  refine inv_of_run (fun s a s' h h' => ?_) hs (run_some s l)
  exact Option.some.inj h' ▸ hI s a h

/-- Where a step keeps an invariant just if it meets `C`, all steps of a run do just if the
    invariant holds in each of its states. -/
theorem foldl_iff_of_step (hI : ∀ s a, I s → (I (f s a) ↔ C s a)) {s : σ} {l : List α} (hs : I s) :
    (∀ l₁ a l₂, l = l₁ ++ a :: l₂ → C (l₁.foldl f s) a) ↔ ∀ l', l' <+: l → I (l'.foldl f s) := by
  have hstep : ∀ s a s', I s → some (f s a) = some s' → (I s' ↔ C s a) :=
    fun s a s' h h' => Option.some.inj h' ▸ hI s a h
  have hiff := meets_iff_of_step hstep hs (run_some s l)
  simp only [meets_iff_forall, run_some, Option.some.injEq] at hiff
  constructor
  · intro h l' hl'
    exact hiff.1 (fun l₁ a l₂ u hl hu => hu ▸ h l₁ a l₂ hl) l' _ hl' rfl
  · intro h l₁ a l₂ hl
    exact hiff.2 (fun l' u hl' hu => hu ▸ h l' hl') l₁ a l₂ _ hl rfl

/-! ### Counting steps -/

/-- The number of steps of a run in which `p` holds. -/
def count (step : σ → α → Option σ) (p : σ → α → Bool) : σ → List α → ℕ
  | _, [] => 0
  | s, a :: l => (p s a).toNat + ((step s a).map fun s' => count step p s' l).getD 0

theorem count_eq_zero {p : σ → α → Bool} {s : σ} {l : List α}
    (h : Meets step (fun s a => p s a = false) s l) : count step p s l = 0 := by
  induction l generalizing s with
  | nil => rfl
  | cons a l ih =>
    rw [count, h.1]
    cases hs : step s a with
    | none => rfl
    | some s' =>
      rw [Option.map_some, Option.getD_some, ih (h.2 s' hs)]
      rfl

end Transition
