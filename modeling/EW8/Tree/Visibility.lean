import EW8.Tree.RootedTree

/-!
# Visibility in the tree

Which nodes are shown follows from the counts: a node is hidden with everything below it
unless it is active, and its layer is the first one among its active siblings. The children
are gone through in the order of their layers, with the layer of the first active one.

After an update, a node is visible just if it and all nodes above it are active, and first
among their active siblings (`visible_iff`).
-/

namespace EW8.Tree

namespace RootedTree

variable (t : RootedTree) (activationSemaphore : ℕ → ℤ)

/-- A child, as the layer of the first active one is `activatedLayer`, or `-1`: this layer from then
    on, and whether the child is forced to be invisible. -/
def scan (activatedLayer : ℤ) (c : ℕ) : ℤ × Bool :=
  let activatedLayer :=
    if activatedLayer = -1 ∧ activationSemaphore c ≠ 0 then t.layer c else activatedLayer
  (activatedLayer, !(t.layer c ≤ activatedLayer && activationSemaphore c ≠ 0))

/-- `RootedTreeNode::updateVisibility`. -/
def updateVisibilityOf (layerForcedInvis : Bool) (n : ℕ) (visible : ℕ → Bool) : ℕ → Bool :=
  if layerForcedInvis then
    (t.children n).foldl (fun v c => updateVisibilityOf true c v) (Function.update visible n false)
  else if activationSemaphore n ≠ 0 then
    ((t.children n).foldl (fun (x : ℤ × (ℕ → Bool)) c =>
      let y := t.scan activationSemaphore x.1 c
      (y.1, updateVisibilityOf y.2 c x.2)) (-1, Function.update visible n true)).2
  else
    (t.children n).foldl (fun v c => updateVisibilityOf true c v) (Function.update visible n false)
termination_by t.size - n
decreasing_by
  all_goals
    have hlt := Forest.lt_of_mem_children ‹_›
    have hsize := Forest.lt_size_of_mem_children ‹_›
    omega

/-- `RootedTree::updateVisibility`. -/
def updateVisibility (visible : ℕ → Bool) : ℕ → Bool :=
  t.updateVisibilityOf activationSemaphore false 0 visible

/-! ## One node and what is below -/

/-- A node that is active, and first among its active siblings. -/
def First (n : ℕ) : Prop := activationSemaphore n ≠ 0 ∧
  ∀ p, t.parent n = some p → ∀ b ∈ t.children p, activationSemaphore b ≠ 0 → t.layer n ≤ t.layer b

variable {t} {s : ℕ → ℤ} {n m c : ℕ} {v : ℕ → Bool} {forced : Bool}

theorem first_iff (hc : c ∈ t.children n) :
    t.First s c ↔ s c ≠ 0 ∧ ∀ b ∈ t.children n, s b ≠ 0 → t.layer c ≤ t.layer b := by
  have hp := t.mem_children.1 hc
  simp [First, hp]

/-- What is known when the children in `l` are left: no child before was active, or the first one was
    on the layer `a`. -/
def Scanned (t : RootedTree) (s : ℕ → ℤ) (n : ℕ) (a : ℤ) (l : List ℕ) : Prop :=
  (a = -1 ∧ ∀ b ∈ t.children n, b ∉ l → s b = 0) ∨
    (a ≠ -1 ∧ (∃ b ∈ t.children n, s b ≠ 0 ∧ t.layer b = a) ∧
      ∀ b ∈ t.children n, s b ≠ 0 → a ≤ t.layer b)

/-- The next child: it is not forced just if it is first. -/
theorem Scanned.cons {a : ℤ} {l : List ℕ} (h : t.Scanned s n a (c :: l)) (hc : c ∈ t.children n)
    (hlayer : 0 ≤ t.layer c) (hsorted : ∀ b ∈ l, t.layer c ≤ t.layer b) :
    ((t.scan s a c).2 = false ↔ t.First s c) ∧ t.Scanned s n (t.scan s a c).1 l := by
  rw [first_iff hc]
  rcases h with ⟨rfl, hnone⟩ | ⟨hne, ⟨b, hb, hsb, hlb⟩, hle⟩
  · by_cases hs : s c = 0
    · refine ⟨by simp [scan, hs], .inl ⟨by simp [scan, hs], fun b hb hbl => ?_⟩⟩
      by_cases hbc : b = c
      · rw [hbc, hs]
      · exact hnone b hb fun hmem => (List.mem_cons.1 hmem).elim hbc hbl
    · -- the first active one
      have hmin : ∀ b ∈ t.children n, s b ≠ 0 → t.layer c ≤ t.layer b := by
        intro b hb hsb
        have hmem : b ∈ c :: l := by
          by_contra hbl
          exact hsb (hnone b hb hbl)
        rcases List.mem_cons.1 hmem with rfl | hbl
        · exact le_rfl
        · exact hsorted b hbl
      refine ⟨by simpa [scan, hs] using hmin, .inr ⟨?_, ⟨c, hc, hs, ?_⟩, ?_⟩⟩
      · have hscan : (t.scan s (-1) c).1 = t.layer c := by simp [scan, hs]
        omega
      · simp [scan, hs]
      · simpa [scan, hs] using hmin
  · have hscan : t.scan s a c = (a, !(t.layer c ≤ a && s c ≠ 0)) := by simp [scan, hne]
    rw [hscan]
    refine ⟨?_, .inr ⟨hne, ⟨b, hb, hsb, hlb⟩, hle⟩⟩
    simp only [Bool.not_eq_false', Bool.and_eq_true, decide_eq_true_eq]
    constructor
    · rintro ⟨hca, hs⟩
      exact ⟨hs, fun b' hb' hsb' => hca.trans (hle b' hb' hsb')⟩
    · rintro ⟨hs, hmin⟩
      exact ⟨hlb ▸ hmin b hb hsb, hs⟩

theorem foldl_scan {a : ℤ} {l : List ℕ} (f : ℕ → Bool → (ℕ → Bool) → ℕ → Bool) (g : ℕ → Bool)
    (h : t.Scanned s n a l) (hl : ∀ c ∈ l, c ∈ t.children n) (hlayer : ∀ c ∈ l, 0 ≤ t.layer c)
    (hsorted : l.Pairwise fun b c => t.layer b ≤ t.layer c)
    (hg : ∀ c ∈ l, g c = false ↔ t.First s c) :
    (l.foldl (fun (x : ℤ × (ℕ → Bool)) c =>
        ((t.scan s x.1 c).1, f c (t.scan s x.1 c).2 x.2)) (a, v)).2 =
      l.foldl (fun v c => f c (g c) v) v := by
  induction l generalizing a v with
  | nil => rfl
  | cons c l ih =>
    obtain ⟨hc, hl⟩ := List.forall_mem_cons.1 hl
    obtain ⟨hc0, hlayer⟩ := List.forall_mem_cons.1 hlayer
    obtain ⟨hcl, hsorted⟩ := List.pairwise_cons.1 hsorted
    obtain ⟨hgc, hg⟩ := List.forall_mem_cons.1 hg
    obtain ⟨hforced, hscanned⟩ := h.cons hc hc0 hcl
    have heq : (t.scan s a c).2 = g c := by
      rw [Bool.eq_iff_iff, ← not_iff_not, Bool.not_eq_true, Bool.not_eq_true]
      exact hforced.trans hgc.symm
    rw [List.foldl_cons, List.foldl_cons, ih hscanned hl hlayer hsorted hg, heq]

variable (t s) in
/-- All children that are not first are forced to be invisible, or all are. -/
theorem updateVisibilityOf_eq (hlayer : ∀ n < t.size, 0 ≤ t.layer n) (forced : Bool) (n : ℕ)
    (v : ℕ → Bool) : ∃ g : ℕ → Bool,
      (∀ c ∈ t.children n, g c = false ↔ (forced = false ∧ s n ≠ 0) ∧ t.First s c) ∧
      t.updateVisibilityOf s forced n v =
        (t.children n).foldl (fun v c => t.updateVisibilityOf s (g c) c v)
          (Function.update v n (!forced && s n ≠ 0)) := by
  classical
  rw [updateVisibilityOf]
  split_ifs with hforced hs
  · exact ⟨fun _ => true, by simp [hforced], by simp [hforced]⟩
  · have hforced := Bool.not_eq_true _ ▸ hforced
    refine ⟨fun c => !decide (t.First s c), fun c _ => by simp [hforced, hs], ?_⟩
    rw [foldl_scan (n := n) (fun c b v => t.updateVisibilityOf s b c v)
      (fun c => !decide (t.First s c))]
    · simp [hforced, hs]
    · exact .inl ⟨rfl, fun b hb hb' => absurd hb hb'⟩
    · exact fun c hc => hc
    · exact fun c hc => hlayer c (Forest.lt_size_of_mem_children hc)
    · exact t.pairwise_layer n
    · exact fun c _ => by simp
  · have hs := not_not.1 hs
    exact ⟨fun _ => true, by simp [hs], by simp [hs]⟩

/-- Below a node: the node itself, and those whose predecessors are first. -/
def ShownBelow (t : RootedTree) (s : ℕ → ℤ) (n m : ℕ) : Prop :=
  ∀ a, t.Above n a → a ≠ n → t.Above a m → t.First s a

theorem shownBelow_self : t.ShownBelow s n n := fun _ hna hne han =>
  absurd (le_antisymm (Forest.Above.le han) (Forest.Above.le hna)) hne

theorem shownBelow_iff (hc : c ∈ t.children n) (hcm : t.Above c m) :
    t.ShownBelow s n m ↔ t.First s c ∧ t.ShownBelow s c m := by
  have hnc : t.Above n c := Forest.Above.iff_children.2 (.inr ⟨c, hc, .refl c⟩)
  constructor
  · intro h
    refine ⟨h c hnc (Forest.lt_of_mem_children hc).ne' hcm, fun a hca _ ham => ?_⟩
    refine h a (hnc.trans hca) ?_ ham
    exact ((Forest.lt_of_mem_children hc).trans_le (Forest.Above.le hca)).ne'
  · rintro ⟨hfirst, h⟩ a hna hne ham
    -- `a` is below a child of `n`, and that one is `c`
    obtain ⟨d, hd, hda⟩ := (Forest.Above.iff_children.1 hna).resolve_left hne
    obtain rfl := Forest.Above.eq_of_children (hda.trans ham) hcm hd hc
    by_cases had : a = d
    · rwa [had]
    · exact h a hda had ham

/-- The children and what is below them, one after the other. -/
theorem foldl_children {f : ℕ → (ℕ → Bool) → ℕ → Bool} {R : ℕ → Prop} {l : List ℕ}
    (hl : ∀ c ∈ l, c ∈ t.children n) (hnodup : l.Nodup)
    (hout : ∀ c ∈ l, ∀ v, ¬t.Above c m → f c v m = v m)
    (hin : ∀ c ∈ l, ∀ v, t.Above c m → (f c v m = true ↔ R c)) (v : ℕ → Bool) :
    ((∀ c ∈ l, ¬t.Above c m) → l.foldl (fun v c => f c v) v m = v m) ∧
      ∀ c ∈ l, t.Above c m → (l.foldl (fun v c => f c v) v m = true ↔ R c) := by
  induction l generalizing v with
  | nil => simp
  | cons d l ih =>
    obtain ⟨hd, hl'⟩ := List.forall_mem_cons.1 hl
    obtain ⟨hdl, hnodup⟩ := List.nodup_cons.1 hnodup
    obtain ⟨houtd, hout⟩ := List.forall_mem_cons.1 hout
    obtain ⟨hind, hin⟩ := List.forall_mem_cons.1 hin
    obtain ⟨hnot, hof⟩ := ih hl' hnodup hout hin (f d v)
    rw [List.foldl_cons]
    refine ⟨fun h => ?_, fun c hc hcm => ?_⟩
    · obtain ⟨hdm, h⟩ := List.forall_mem_cons.1 h
      rw [hnot h, houtd v hdm]
    · rcases List.mem_cons.1 hc with rfl | hc
      · -- nothing of what is below the others
        have hothers : ∀ b ∈ l, ¬t.Above b m := fun b hb hbm =>
          hdl (Forest.Above.eq_of_children hcm hbm hd (hl' b hb) ▸ hb)
        rw [hnot hothers, hind v hcm]
      · exact hof c hc hcm

/-- What an update makes of a node: those that are not below stay as they are. -/
theorem updateVisibilityOf_spec (hlayer : ∀ n < t.size, 0 ≤ t.layer n) (forced : Bool) (n : ℕ)
    (v : ℕ → Bool) (m : ℕ) :
    (¬t.Above n m → t.updateVisibilityOf s forced n v m = v m) ∧
      (t.Above n m → (t.updateVisibilityOf s forced n v m = true ↔
        (forced = false ∧ s n ≠ 0) ∧ t.ShownBelow s n m)) := by
  -- induction on the number of nodes from `n` on
  induction hk : t.size - n using Nat.strong_induction_on generalizing n forced v with
  | _ k ih =>
    obtain ⟨g, hg, heq⟩ := updateVisibilityOf_eq t s hlayer forced n v
    have hchild : ∀ c ∈ t.children n, ∀ v,
        (¬t.Above c m → t.updateVisibilityOf s (g c) c v m = v m) ∧
          (t.Above c m → (t.updateVisibilityOf s (g c) c v m = true ↔
            (forced = false ∧ s n ≠ 0) ∧ t.ShownBelow s n m)) := by
      intro c hc v
      have hlt := Forest.lt_of_mem_children hc
      have hsize := Forest.lt_size_of_mem_children hc
      obtain ⟨hout, hin⟩ := ih (t.size - c) (by omega) (g c) c v rfl
      refine ⟨hout, fun hcm => ?_⟩
      rw [hin hcm, shownBelow_iff hc hcm, hg c hc, and_assoc, and_assoc]
      constructor
      · rintro ⟨hn, hfirst, -, hbelow⟩
        exact ⟨hn, hfirst, hbelow⟩
      · rintro ⟨hn, hfirst, hbelow⟩
        exact ⟨hn, hfirst, hfirst.1, hbelow⟩
    obtain ⟨hnot, hof⟩ := foldl_children (f := fun c v => t.updateVisibilityOf s (g c) c v)
      (R := fun _ => (forced = false ∧ s n ≠ 0) ∧ t.ShownBelow s n m) (fun c hc => hc)
      (t.nodup_children n) (fun c hc v => (hchild c hc v).1) (fun c hc v => (hchild c hc v).2)
      (Function.update v n (!forced && s n ≠ 0))
    rw [heq]
    refine ⟨fun hnm => ?_, fun hnm => ?_⟩
    · rw [hnot fun c hc hcm => hnm (Forest.Above.iff_children.2 (.inr ⟨c, hc, hcm⟩))]
      have hmn : m ≠ n := fun hmn => hnm (hmn ▸ Forest.Above.refl m)
      exact Function.update_of_ne hmn _ _
    · rcases Forest.Above.iff_children.1 hnm with rfl | ⟨c, hc, hcm⟩
      · have hnone : ∀ c ∈ t.children m, ¬t.Above c m := fun c hc hcm =>
          absurd (Forest.lt_of_mem_children hc) (not_lt.2 (Forest.Above.le hcm))
        rw [hnot hnone, Function.update_self]
        simp [shownBelow_self]
      · exact hof c hc hcm

/-- In a tree with layers that are not negative, after an update, a node is visible just if it and the
    nodes above it are active, and first among their active siblings. And the queue of children is in
    the order of the layers, with none missing. -/
theorem visible_iff (t : RootedTree) (hlayer : ∀ n < t.size, 0 ≤ t.layer n) (s : ℕ → ℤ)
    (visible : ℕ → Bool) :
    (∀ n < t.size, t.updateVisibility s visible n = true ↔
      ∀ a, t.Above a n → s a ≠ 0 ∧ ∀ p, t.parent a = some p →
        ∀ b ∈ t.children p, s b ≠ 0 → t.layer a ≤ t.layer b) ∧
    ∀ rtn (queue : List ℕ), queue.Pairwise (fun a b => t.layer a ≤ t.layer b) →
      (appendChild t.layer rtn queue).Pairwise (fun a b => t.layer a ≤ t.layer b) ∧
        (appendChild t.layer rtn queue).Perm (rtn :: queue) := by
  refine ⟨fun n hn => ?_, fun rtn queue hqueue => ?_⟩
  · have hroot : t.parent 0 = none := by
      cases hp : t.parent 0 with
      | none => rfl
      | some p => exact absurd (t.lt_of_parent hp) (Nat.not_lt_zero p)
    have habove : t.Above 0 n := t.above_root hn
    rw [updateVisibility, (updateVisibilityOf_spec hlayer false 0 visible n).2 habove]
    constructor
    · rintro ⟨⟨-, hs⟩, hbelow⟩ a han
      by_cases ha : a = 0
      · rw [ha]
        exact ⟨hs, fun p hp => by rw [hroot] at hp; cases hp⟩
      · exact hbelow a (t.above_root ((Forest.Above.le han).trans_lt hn)) ha han
    · intro h
      exact ⟨⟨rfl, (h 0 habove).1⟩, fun a _ _ han => h a han⟩
  · exact (appendChild_spec t.layer rtn queue).imp (fun h => h hqueue) id

/-- An item as it may stand in a tree, with a layer. -/
def layeredItem (layer : ℤ) : QObject := .mk ⟨some layer, some (2 + layer.toNat), none, none⟩ []

/-- Three items in a group, two of them on a layer. -/
def layeredItems : RootedTree :=
  (QObject.mk ⟨none, none, none, none⟩ [layeredItem 1, layeredItem 0, layeredItem 1]).rootedTree

/-- The item on the first layer is not active: the other two are shown, whatever was before. -/
theorem visible_iff_layeredItems :
    let s : ℕ → ℤ := fun n => if n = 2 then 0 else 1
    (∀ n < layeredItems.size, layeredItems.updateVisibility s (fun _ => true) n = true ↔
      ∀ a, layeredItems.Above a n → s a ≠ 0 ∧ ∀ p, layeredItems.parent a = some p →
        ∀ b ∈ layeredItems.children p, s b ≠ 0 → layeredItems.layer a ≤ layeredItems.layer b) ∧
    ∀ rtn (queue : List ℕ),
      queue.Pairwise (fun a b => layeredItems.layer a ≤ layeredItems.layer b) →
      (appendChild layeredItems.layer rtn queue).Pairwise
        (fun a b => layeredItems.layer a ≤ layeredItems.layer b) ∧
        (appendChild layeredItems.layer rtn queue).Perm (rtn :: queue) :=
  visible_iff layeredItems (by decide +kernel) _ _

end RootedTree

end EW8.Tree
