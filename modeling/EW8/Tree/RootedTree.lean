import EW8.Lib.Forest

/-!
# The tree of QML items

The tree of display nodes is built once, from the tree of the QML items: a node for each
item, which is linked to the display item that the QML item stands for, if any, and appended to the
children of its parent by its layer. A *mutex group* is meant to have one active child at a
time; a *mode group* does not become active with its children.

* `QObject.convert`: the construction, with the nodes numbered in the order in which they are created;
* `RootedTree`: its result. The children of a node are in the order of their layers, and none is
  missing (`appendChild_spec`).
-/

namespace EW8.Tree

/-- The type of a group, which is not linked. -/
def QtQG : ℕ := 0

/-- An item that is never shown. -/
def ALERT_NONE : ℕ := 1

/-- The properties of a QML item, if valid. The name of a type is the id that it stands for. -/
structure Properties where
  layer_pri : Option ℤ
  canEntityType : Option ℕ
  modeGroup : Option Bool
  mutexGroup : Option Bool

/-- A QML item. -/
inductive QObject
  | mk (properties : Properties) (childItems : List QObject)

/-- A `RootedTreeNode`, as the construction leaves it. -/
structure RootedTreeNode where
  layer : ℤ
  /-- The display item that the node is linked to. -/
  type : Option ℕ
  modeGroup : Bool
  mutexGroup : Bool
  parent : Option ℕ
  children : List ℕ

/-- `convertfromQObject`, but for the children. -/
def Properties.node (p : Properties) : RootedTreeNode where
  layer := p.layer_pri.getD 0
  type := p.canEntityType.filter fun type => type ≠ QtQG
  modeGroup := if p.canEntityType.isSome then p.modeGroup.getD false else false
  mutexGroup := if p.canEntityType = some QtQG then p.mutexGroup.getD false else false
  parent := none
  children := []

/-- The queue of `appendChild`: the child comes before the first one whose layer is not less. -/
def appendChild (getLayer : ℕ → ℤ) (rtn : ℕ) : List ℕ → List ℕ
  | [] => [rtn]
  | c :: queue =>
    if getLayer c ≥ getLayer rtn then rtn :: c :: queue else c :: appendChild getLayer rtn queue

/-- The nodes that have been created. -/
structure Nodes where
  size : ℕ
  node : ℕ → RootedTreeNode

namespace Nodes

variable (t : Nodes)

/-- The next node. -/
def create (n : RootedTreeNode) : Nodes where
  size := t.size + 1
  node := Function.update t.node t.size n

/-- `setParent`. -/
def setParent (c p : ℕ) : Nodes :=
  { t with node := Function.update t.node c { t.node c with parent := some p } }

/-- `appendChild`. -/
def appendChild (p rtn : ℕ) : Nodes :=
  { t with node := Function.update t.node p { t.node p with
      children := Tree.appendChild (fun c => (t.node c).layer) rtn (t.node p).children } }

end Nodes

mutual

/-- The constructor of `RootedTreeNode`. -/
def QObject.convert : QObject → Nodes → Nodes
  | .mk p childItems, t => addChildrenFromObject t.size childItems (t.create p.node)

/-- `addChildrenFromObject`. -/
def addChildrenFromObject (this : ℕ) : List QObject → Nodes → Nodes
  | [], t => t
  | curchild :: l, t => addChildrenFromObject this l
      (((curchild.convert t).setParent t.size this).appendChild this t.size)

end

/-! ## The queue of children -/

section

variable {getLayer : ℕ → ℤ} {c rtn : ℕ} {queue : List ℕ}

theorem appendChild_eq_orderedInsert (getLayer : ℕ → ℤ) (rtn : ℕ) (queue : List ℕ) :
    appendChild getLayer rtn queue =
      queue.orderedInsert (fun a b => getLayer a ≤ getLayer b) rtn := by
  induction queue with
  | nil => rfl
  | cons c queue ih => rw [appendChild, List.orderedInsert_cons, ih]

/-- A queue stays in the order of the layers, and keeps all the others. -/
theorem appendChild_spec (getLayer : ℕ → ℤ) (rtn : ℕ) (queue : List ℕ) :
    (queue.Pairwise (fun a b => getLayer a ≤ getLayer b) →
      (appendChild getLayer rtn queue).Pairwise fun a b => getLayer a ≤ getLayer b) ∧
    (appendChild getLayer rtn queue).Perm (rtn :: queue) := by
  rw [appendChild_eq_orderedInsert]
  have : Std.Total fun a b => getLayer a ≤ getLayer b := ⟨fun a b => le_total _ _⟩
  have : IsTrans ℕ fun a b => getLayer a ≤ getLayer b := ⟨fun _ _ _ => le_trans⟩
  exact ⟨fun h => h.orderedInsert rtn queue, List.perm_orderedInsert _ rtn queue⟩

end

/-! ## The nodes created -/

namespace Nodes

/-- What holds of the nodes at any time. -/
structure WellFormed (t : Nodes) : Prop where
  lt_of_parent : ∀ {c p}, (t.node c).parent = some p → p < c
  lt_size : ∀ {c p}, (t.node c).parent = some p → c < t.size
  mem_children : ∀ {c p}, c ∈ (t.node p).children ↔ (t.node c).parent = some p
  nodup_children : ∀ p, (t.node p).children.Nodup
  pairwise_layer : ∀ p, (t.node p).children.Pairwise fun a b => (t.node a).layer ≤ (t.node b).layer
  type_of_mutexGroup : ∀ {p}, (t.node p).mutexGroup = true → (t.node p).type = none

/-- The nodes from `t` to `t'` are new: the first one has no parent yet, the others do. -/
structure Extends (t t' : Nodes) : Prop where
  wellFormed : t'.WellFormed
  size : t.size < t'.size
  node : ∀ n < t.size, t'.node n = t.node n
  root : (t'.node t.size).parent = none
  parent : ∀ n, t.size < n → n < t'.size → (t'.node n).parent ≠ none

/-- The same, for the descendants of a node `this`, which may get new children. -/
structure Adds (this : ℕ) (t t' : Nodes) : Prop where
  wellFormed : t'.WellFormed
  size : t.size ≤ t'.size
  node : ∀ n < t.size, n ≠ this → t'.node n = t.node n
  this : (t'.node this).parent = (t.node this).parent
  parent : ∀ n, t.size ≤ n → n < t'.size → (t'.node n).parent ≠ none

variable {t : Nodes} {c p this k : ℕ}

theorem node_setParent (n : ℕ) : (t.setParent c p).node n =
    if n = c then { t.node c with parent := some p } else t.node n :=
  Function.update_apply ..

theorem node_appendChild (n : ℕ) : (t.appendChild p c).node n =
    if n = p then { t.node p with
      children := Tree.appendChild (fun c => (t.node c).layer) c (t.node p).children }
    else t.node n :=
  Function.update_apply ..

theorem node_create (n : ℕ) (x : RootedTreeNode) :
    (t.create x).node n = if n = t.size then x else t.node n :=
  Function.update_apply ..

/-- Nothing is known of the next node. -/
theorem WellFormed.parent_size (h : t.WellFormed) : (t.node t.size).parent = none := by
  cases hp : (t.node t.size).parent with
  | none => rfl
  | some p => exact absurd (h.lt_size hp) (lt_irrefl _)

theorem WellFormed.not_mem_children (h : t.WellFormed) (hroot : (t.node c).parent = none) (p : ℕ) :
    c ∉ (t.node p).children := fun hc => by
  rw [h.mem_children, hroot] at hc
  cases hc

theorem WellFormed.parent_ne_size (h : t.WellFormed) (c : ℕ) : (t.node c).parent ≠ some t.size :=
  fun hc => absurd ((h.lt_of_parent hc).trans (h.lt_size hc)) (lt_irrefl _)

theorem WellFormed.create (h : t.WellFormed) (q : Properties) : (t.create q.node).WellFormed where
  lt_of_parent {c p} hp := by
    rw [node_create] at hp
    split_ifs at hp
    · cases hp
    · exact h.lt_of_parent hp
  lt_size {c p} hp := by
    rw [node_create] at hp
    split_ifs at hp
    · cases hp
    · exact Nat.lt_succ_of_lt (h.lt_size hp)
  -- the new node has no parent and no children, and nothing has had its number
  mem_children {c p} := by
    have hnone : q.node.parent = none := rfl
    have hnil : q.node.children = [] := rfl
    rw [node_create, node_create]
    split_ifs with hp hc hc
    · simp [hnone, hnil]
    · simp [hnil, hp, h.parent_ne_size c]
    · simp [hnone, hc, h.not_mem_children h.parent_size p]
    · exact h.mem_children
  nodup_children p := by
    rw [node_create]
    split_ifs
    · exact List.nodup_nil
    · exact h.nodup_children p
  pairwise_layer p := by
    rw [node_create]
    split_ifs
    · exact List.Pairwise.nil
    · refine (h.pairwise_layer p).imp_of_mem fun {a b} ha hb hab => ?_
      have hne : ∀ {a}, a ∈ (t.node p).children → a ≠ t.size := fun ha =>
        (h.lt_size (h.mem_children.1 ha)).ne
      rwa [node_create, node_create, if_neg (hne ha), if_neg (hne hb)]
  type_of_mutexGroup {p} hp := by
    rw [node_create] at hp ⊢
    split_ifs at hp ⊢
    · simp only [Properties.node] at hp ⊢
      split_ifs at hp with htype
      simp [htype, Option.filter]
    · exact h.type_of_mutexGroup hp

/-- A child gets its parent, and the parent the child. -/
theorem WellFormed.append (h : t.WellFormed) (hroot : (t.node c).parent = none) (hlt : p < c)
    (hsize : c < t.size) : ((t.setParent c p).appendChild p c).WellFormed := by
  have hne : p ≠ c := hlt.ne
  -- what has become of a node
  have hparent : ∀ n, (((t.setParent c p).appendChild p c).node n).parent =
      if n = c then some p else (t.node n).parent := fun n => by
    rw [node_appendChild, node_setParent, node_setParent, if_neg hne]
    split_ifs with hn hc <;> simp_all
  have hlayer : ∀ n, (((t.setParent c p).appendChild p c).node n).layer = (t.node n).layer :=
    fun n => by
      rw [node_appendChild, node_setParent, node_setParent, if_neg hne]
      split_ifs with hn hc <;> simp_all
  have hqueue : (fun n => ((t.setParent c p).node n).layer) = fun n => (t.node n).layer := by
    funext n
    rw [node_setParent]
    split_ifs with hn
    · rw [hn]
    · rfl
  have hchildren : ∀ n, (((t.setParent c p).appendChild p c).node n).children =
      if n = p then Tree.appendChild (fun n => (t.node n).layer) c (t.node p).children
      else (t.node n).children := fun n => by
    rw [node_appendChild, node_setParent, node_setParent, if_neg hne, hqueue]
    split_ifs with hn hc <;> simp_all
  have hperm := (appendChild_spec (fun n => (t.node n).layer) c (t.node p).children).2
  constructor
  · intro n q hn
    rw [hparent] at hn
    split_ifs at hn with hc
    · rw [hc, ← Option.some.inj hn]
      exact hlt
    · exact h.lt_of_parent hn
  · intro n q hn
    rw [hparent] at hn
    split_ifs at hn with hc
    · rw [hc]
      exact hsize
    · exact h.lt_size hn
  · intro n q
    rw [hparent, hchildren]
    by_cases hq : q = p
    · subst hq
      rw [if_pos rfl, hperm.mem_iff, List.mem_cons, h.mem_children]
      split_ifs with hc
      · simp [hc]
      · simp [hc]
    · rw [if_neg hq, h.mem_children]
      split_ifs with hc
      · simp [hc, hroot, Ne.symm hq]
      · rfl
  · intro q
    rw [hchildren]
    split_ifs with hq
    · exact hperm.nodup_iff.2 (List.nodup_cons.2 ⟨h.not_mem_children hroot p, h.nodup_children p⟩)
    · exact h.nodup_children q
  · intro q
    simp only [hlayer]
    rw [hchildren]
    split_ifs with hq
    · exact (appendChild_spec _ _ _).1 (h.pairwise_layer p)
    · exact h.pairwise_layer q
  · intro q hq
    have htype : ∀ n, (((t.setParent c p).appendChild p c).node n).type = (t.node n).type ∧
        (((t.setParent c p).appendChild p c).node n).mutexGroup = (t.node n).mutexGroup := fun n => by
      rw [node_appendChild, node_setParent, node_setParent, if_neg hne]
      split_ifs with hn hc <;> simp_all
    rw [(htype q).2] at hq
    rw [(htype q).1]
    exact h.type_of_mutexGroup hq

/-- What an appended child changes of the other nodes. -/
theorem node_append (hne : p ≠ c) {n : ℕ} (hn : n ≠ c) :
    (((t.setParent c p).appendChild p c).node n).parent = (t.node n).parent ∧
      (n ≠ p → ((t.setParent c p).appendChild p c).node n = t.node n) := by
  rw [node_appendChild, node_setParent, node_setParent, if_neg hne]
  split_ifs with hp
  · simp [hp]
  · simp

theorem Adds.refl (h : t.WellFormed) (this : ℕ) : Adds this t t :=
  ⟨h, le_rfl, fun _ _ _ => rfl, rfl, fun _ hle hlt => absurd hlt (not_lt.2 hle)⟩

/-- A new child with its descendants, and then the others. -/
theorem Extends.adds {t' t'' : Nodes} (h : Extends t t') (hthis : this < t.size)
    (h' : Adds this ((t'.setParent t.size this).appendChild this t.size) t'') : Adds this t t'' where
  wellFormed := h'.wellFormed
  size := h.size.le.trans h'.size
  node n hn hne := by
    rw [h'.node n (hn.trans h.size) hne, (node_append hthis.ne hn.ne).2 hne, h.node n hn]
  this := by rw [h'.this, (node_append hthis.ne hthis.ne).1, h.node this hthis]
  parent n hle hlt := by
    by_cases hn : t'.size ≤ n
    · exact h'.parent n hn hlt
    · have hne : n ≠ this := (hthis.trans_le hle).ne'
      rw [h'.node n (not_le.1 hn) hne]
      by_cases hroot : n = t.size
      · -- the child itself
        rw [hroot, node_appendChild, if_neg hthis.ne', node_setParent, if_pos rfl]
        exact Option.some_ne_none this
      · rw [(node_append hthis.ne hroot).1]
        exact h.parent n (lt_of_le_of_ne hle (Ne.symm hroot)) (not_le.1 hn)

/-- A new node, with the descendants that it gets. -/
theorem Adds.extends {q : Properties} {t' : Nodes} (h : Adds t.size (t.create q.node) t') :
    Extends t t' where
  wellFormed := h.wellFormed
  size := h.size
  node n hn := by rw [h.node n (Nat.lt_succ_of_lt hn) hn.ne, node_create, if_neg hn.ne]
  root := by rw [h.this, node_create, if_pos rfl]; rfl
  parent _ hlt := h.parent _ hlt

end Nodes

mutual

theorem QObject.convert_extends : ∀ (q : QObject) {t : Nodes}, t.WellFormed →
    Nodes.Extends t (q.convert t)
  | .mk p childItems, t, h => by
    rw [QObject.convert]
    exact (addChildrenFromObject_adds t.size childItems (h.create p) (Nat.lt_succ_self _)).extends

theorem addChildrenFromObject_adds (this : ℕ) : ∀ (l : List QObject) {t : Nodes}, t.WellFormed →
    this < t.size → Nodes.Adds this t (addChildrenFromObject this l t)
  | [], t, h, _ => by
    rw [addChildrenFromObject]
    exact .refl h this
  | curchild :: l, t, h, hthis => by
    have hchild := curchild.convert_extends h
    rw [addChildrenFromObject]
    refine hchild.adds hthis (addChildrenFromObject_adds this l ?_ (hthis.trans hchild.size))
    exact hchild.wellFormed.append hchild.root hthis hchild.size

end

/-! ## The tree -/

/-- A tree of nodes, with the root as its first one. -/
structure RootedTree extends Forest where
  layer : ℕ → ℤ
  /-- The display item that a node is linked to. -/
  type : ℕ → Option ℕ
  modeGroup : ℕ → Bool
  mutexGroup : ℕ → Bool
  eq_root : ∀ {n}, n < size → parent n = none → n = 0
  pairwise_layer : ∀ p, (children p).Pairwise fun a b => layer a ≤ layer b
  type_of_mutexGroup : ∀ {p}, mutexGroup p = true → type p = none

/-- The root is above all nodes. -/
theorem RootedTree.above_root (t : RootedTree) {n : ℕ} (hn : n < t.size) : t.Above 0 n := by
  induction n using Nat.strong_induction_on with
  | _ n ih =>
    cases hp : t.parent n with
    | none => rw [t.eq_root hn hp]; exact .refl 0
    | some p =>
      have hlt := t.lt_of_parent hp
      exact .tail (ih p hlt (hlt.trans hn)) hp

/-- No node. -/
def Nodes.empty : Nodes := ⟨0, fun _ => ⟨0, none, false, false, none, []⟩⟩

theorem Nodes.wellFormed_empty : empty.WellFormed where
  lt_of_parent hp := by cases hp
  lt_size hp := by cases hp
  mem_children := by simp [empty]
  nodup_children _ := List.nodup_nil
  pairwise_layer _ := List.Pairwise.nil
  type_of_mutexGroup _ := rfl

/-- The nodes of a tree. -/
def QObject.nodes (q : QObject) : Nodes := q.convert .empty

theorem QObject.nodes_extends (q : QObject) : Nodes.Extends .empty q.nodes :=
  q.convert_extends Nodes.wellFormed_empty

/-- The constructor of `RootedTree`. -/
def QObject.rootedTree (q : QObject) : RootedTree where
  size := q.nodes.size
  parent n := (q.nodes.node n).parent
  children n := (q.nodes.node n).children
  lt_of_parent := q.nodes_extends.wellFormed.lt_of_parent
  lt_size := q.nodes_extends.wellFormed.lt_size
  mem_children := q.nodes_extends.wellFormed.mem_children
  nodup_children := q.nodes_extends.wellFormed.nodup_children
  layer n := (q.nodes.node n).layer
  type n := (q.nodes.node n).type
  modeGroup n := (q.nodes.node n).modeGroup
  mutexGroup n := (q.nodes.node n).mutexGroup
  eq_root {n} hn hp := by
    by_contra hne
    exact q.nodes_extends.parent n (Nat.pos_of_ne_zero hne) hn hp
  pairwise_layer := q.nodes_extends.wellFormed.pairwise_layer
  type_of_mutexGroup := q.nodes_extends.wellFormed.type_of_mutexGroup

end EW8.Tree
