/-
The places that a node can be moved to, all of them and each once.

The orders among siblings are met on two walks that start from the present order, one to
either end, and each step of a walk swaps two neighbours.  No step leaves the list, and the
node is found at a new position after each of them, so every position is met once.  For each
there is a tree of its own, which holds a copy of the parent and nothing else:

* `Arrangement.swap?`, `Arrangement.swaps?` — swapping by positions, which fails outside of
  the list;
* `Arrangement.rightSteps`, `Arrangement.leftSteps` — the positions that the two walks swap,
  and `Arrangement.exists_swaps?`: these walks lead to the orders;
* `Arrangement.map_idxOf_orders_perm` — the positions that are met;
* `Tree.CopiesWith` — a copy of a node with copies of other nodes as its children;
* `Tree.arrangements_enumerate` — all that is known of the arrangements of a node.
-/
import FormulaEditor.Proofs.Mirroring
import FormulaEditor.Proofs.Obtained

namespace FormulaEditor

namespace Arrangement

variable {α : Type} {before after : List α} {x : α}

/-! ### Walks -/

/-- The list with the elements at two positions swapped, if it has these positions. -/
def swap? (l : List α) (i j : Nat) : Option (List α) := do
  let a ← l[i]?
  let b ← l[j]?
  return (l.set i b).set j a

/-- The lists met by swapping at pairs of positions one after the other. -/
def swaps? (l : List α) : List (Nat × Nat) → Option (List (List α))
  | [] => some []
  | (i, j) :: rest => do
    let swapped ← swap? l i j
    return swapped :: (← swaps? swapped rest)

/-- From a position to the end of a list of some length. -/
def rightSteps (index size : Nat) : List (Nat × Nat) :=
  (List.range' index (size - 1 - index)).map fun i => (i, i + 1)

/-- From a position to the front of the list. -/
def leftSteps (index : Nat) : List (Nat × Nat) :=
  (List.range' 1 index).reverse.map fun i => (i, i - 1)

theorem swaps?_cons {l m : List α} {i j : Nat} {rest : List (Nat × Nat)} {r : List (List α)}
    (h : swap? l i j = some m) (hrest : swaps? m rest = some r) :
    swaps? l ((i, j) :: rest) = some (m :: r) := by
  rw [swaps?, h]
  simp only [Option.bind_eq_bind, Option.bind_some, hrest]
  rfl

theorem swap?_right (before after : List α) (a b : α) :
    swap? (before ++ a :: b :: after) before.length (before.length + 1)
      = some (before ++ b :: a :: after) := by
  simp [swap?]

theorem swap?_left (before after : List α) (a b : α) :
    swap? (before ++ a :: b :: after) (before.length + 1) before.length
      = some (before ++ b :: a :: after) := by
  simp [swap?]

theorem swaps?_walkRight (before after : List α) (x : α) :
    swaps? (before ++ x :: after)
      ((List.range' before.length after.length).map fun i => (i, i + 1))
      = some (walkRight before x after) := by
  induction after generalizing before with
  | nil => rfl
  | cons next after ih =>
    have hstep : swap? (before ++ x :: next :: after) before.length (before.length + 1)
        = some (before ++ [next] ++ x :: after) := by
      rw [swap?_right, List.append_assoc, List.singleton_append]
    have hrest := ih (before ++ [next])
    rw [List.length_append, List.length_singleton] at hrest
    exact swaps?_cons hstep hrest

theorem swaps?_walkLeft (before after : List α) (x : α) :
    swaps? (before.reverse ++ x :: after)
      ((List.range' 1 before.length).reverse.map fun i => (i, i - 1))
      = some (walkLeft x after before) := by
  induction before generalizing after with
  | nil => rfl
  | cons next before ih =>
    have hstep : swap? ((next :: before).reverse ++ x :: after) (before.length + 1) before.length
        = some (before.reverse ++ x :: next :: after) := by
      rw [List.reverse_cons, List.append_assoc, List.singleton_append]
      simpa using swap?_left before.reverse after next x
    rw [List.length_cons, List.range'_concat, List.reverse_append, List.reverse_singleton,
      List.singleton_append, List.map_cons, Nat.one_mul, Nat.add_comm 1]
    exact swaps?_cons hstep (ih (next :: after))

/-- What stands around an element of a list. -/
theorem exists_around {l : List α} {index : Nat} (h : l[index]? = some x) :
    ∃ before after, before.length = index ∧ l = before ++ x :: after := by
  obtain ⟨hlt, rfl⟩ := List.getElem?_eq_some_iff.mp h
  refine ⟨l.take index, l.drop (index + 1), ?_, ?_⟩
  · rw [List.length_take, Nat.min_eq_left (Nat.le_of_lt hlt)]
  · rw [List.cons_getElem_drop_succ, List.take_append_drop]

/-- The orders are those of the two walks, and neither of them leaves the list. -/
theorem exists_swaps? {siblings : List Handle} {index : Nat} {id : Handle}
    (h : siblings[index]? = some id) :
    ∃ right left, swaps? siblings (rightSteps index siblings.length) = some right ∧
      swaps? siblings (leftSteps index) = some left ∧
      orders siblings index id = siblings :: right ++ left := by
  obtain ⟨before, after, rfl, rfl⟩ := exists_around h
  have hafter : (before ++ id :: after).length - 1 - before.length = after.length := by
    rw [List.length_append, List.length_cons]
    omega
  refine ⟨walkRight before id after, walkLeft id after before.reverse, ?_, ?_, ?_⟩
  · rw [rightSteps, hafter]
    exact swaps?_walkRight before after id
  · have hleft := swaps?_walkLeft before.reverse after id
    rwa [List.reverse_reverse, List.length_reverse] at hleft
  · rw [orders, List.take_left, List.drop_append, List.drop_eq_nil_of_le (Nat.le_succ _)]
    simp

theorem length_walkRight (before after : List α) (x : α) :
    (walkRight before x after).length = after.length := by
  induction after generalizing before with
  | nil => rfl
  | cons next after ih => rw [walkRight, List.length_cons, ih, List.length_cons]

theorem length_walkLeft (before after : List α) (x : α) :
    (walkLeft x after before).length = before.length := by
  induction before generalizing after with
  | nil => rfl
  | cons next before ih => rw [walkLeft, List.length_cons, ih, List.length_cons]

/-- Each position is met once. -/
theorem map_idxOf_orders_perm {siblings : List Handle} {index : Nat} {id : Handle}
    (hnodup : siblings.Nodup) (h : siblings[index]? = some id) :
    ((orders siblings index id).map (·.idxOf id)).Perm (List.range siblings.length) := by
  obtain ⟨before, after, rfl, rfl⟩ := exists_around h
  have hnot : id ∉ before ++ after := (List.nodup_cons.mp (List.nodup_middle.mp hnodup)).1
  refine (List.Subperm.perm_of_length_le
    (List.Nodup.subperm List.nodup_range fun position hposition => ?_) ?_).symm
  · -- there is an order for each position
    rw [List.mem_range, List.length_append, List.length_cons] at hposition
    have hsplit := List.take_append_drop position (before ++ after)
    refine List.mem_map.mpr ⟨_, mem_orders.mpr ⟨_, _, hsplit, rfl⟩, ?_⟩
    have hout : id ∉ (before ++ after).take position := fun hmem =>
      hnot (List.mem_of_mem_take hmem)
    rw [List.idxOf_append_of_notMem hout, List.idxOf_cons_self, Nat.add_zero, List.length_take,
      List.length_append]
    omega
  · -- and there are no more orders than positions
    rw [List.length_map, List.length_range, orders, List.length_append, List.length_cons,
      length_walkRight, length_walkLeft, List.length_reverse]
    simp only [List.length_drop, List.length_take, List.length_append, List.length_cons]
    omega

end Arrangement

namespace Tree

open Branch

variable {t copy : Tree} {place : Option Handle} {up : Handle} {tag : Tag} {operator : Operator}
  {parts order : List Branch}

/-! ### Trees of arrangements -/

/-- The tree is a copy of a node with copies of these nodes as its children.  No other node is
live, and no slot is vacant. -/
structure CopiesWith (t copy : Tree) (up : Handle) (children : List Handle) : Prop where
  isTree : copy.IsTree
  root : ∃ node found, t.get? up = some node ∧ copy.get? copy.root = some found ∧
    found.parent = none ∧ node.content.childless = found.content.childless ∧
    node.tag = found.tag ∧ List.Forall₂ (t.Mirrors copy) children found.children
  live_iff : ∃ ids, copy.descendants copy.root = .ok ids ∧
    ∀ id, (copy.get? id).isSome = true ↔ id ∈ ids
  full : ∀ id : Handle, id.index < copy.slots.size → (copy.get? id).isSome = true
  nextTag : copy.nextTag = t.nextTag

/-- A copy of a compound with its parts in some order. -/
theorem IsCopy.copiesWith (h : copy.IsCopy t.nextTag (compound up tag operator order))
    (hb : t.Bears place (compound up tag operator parts)) (horder : order ⊆ parts) :
    t.CopiesWith copy up (order.map top) := by
  obtain ⟨c, hc, hbare⟩ := h.exists_isCompact
  obtain ⟨hkey, hop, hparts⟩ := bare_eq_iff.mp hbare
  have hname : (compound up tag operator parts).name = c.name :=
    (congrArg ChildKey.name hkey).symm
  refine ⟨hc.toIsWhole.isTree, ⟨_, _, hb.get, hc.root ▸ hc.bears.get, parent_node none c,
    childless_node_eq hname hop.symm place none, ?_, ?_⟩, ?_, hc.isSome, h.nextTag_eq⟩
  · rw [tag_node, tag_node]
    exact (congrArg ChildKey.tag hkey).symm
  · rw [children_node]
    refine List.forall₂_map_left_iff.mpr (List.forall₂_map_right_iff.mpr ?_)
    exact forall₂_of_map_eq hparts.symm fun part hp child hchild heq =>
      (hb.holds.part (horder hp)).mirrors (hc.bears.holds.part hchild) heq
  · refine ⟨c.handles, hc.root ▸ hc.bears.descendants_eq, fun id => ⟨hc.mem id, ?_⟩⟩
    exact hc.bears.holds.isSome id

/-- A node without a parent has no place among siblings. -/
theorem arrangements_of_parent_eq_none {id : Handle} {node : Node} (hget : t.get? id = some node)
    (hparent : node.parent = none) : t.arrangements id = .error .noParent := by
  rw [arrangements, place?_of_parent_eq_none hget hparent]
  rfl

/-- The arrangements of a node of a forest.  There are none at the top.  Below a parent there
is one for each position, the tree of which is a copy of the parent with copies of its
children, the node moved to the position.  The walks that lead there swap neighbours, never
leave the child list and find the node at each position once. -/
theorem arrangements_enumerate (ht : t.IsForest) {id : Handle} {node : Node}
    (hget : t.get? id = some node) :
    (node.parent = none → t.arrangements id = .error .noParent) ∧
    ∀ up, node.parent = some up →
      ∃ (above : Node) (index : Nat) (l : List Arrangement) (right left : List (List Handle)),
        t.get? up = some above ∧ t.place? id = .ok (some (up, index)) ∧
        t.arrangements id = .ok l ∧
        l.map (·.position) = List.range above.children.length ∧
        (∀ a ∈ l, t.CopiesWith a.tree up ((above.children.erase id).insertIdx a.position id)) ∧
        Arrangement.swaps? above.children (Arrangement.rightSteps index above.children.length)
          = some right ∧
        Arrangement.swaps? above.children (Arrangement.leftSteps index) = some left ∧
        Arrangement.orders above.children index id = above.children :: right ++ left ∧
        ((above.children :: right ++ left).map (·.idxOf id)).Perm
          (List.range above.children.length) := by
  refine ⟨arrangements_of_parent_eq_none hget, fun up hup => ?_⟩
  obtain ⟨place, tag, operator, parts, part, hb, hp, rfl⟩ := ht.exists_compound hget hup
  have habove : t.get? up = some ((compound up tag operator parts).node place) := hb.get
  have hchildren : ((compound up tag operator parts).node place).children = parts.map top :=
    children_node _ _
  obtain ⟨l, hl, hpositions, hcopies⟩ := exists_arrangements hb hp
  have hmem : part.top ∈ parts.map top := List.mem_map_of_mem hp
  have hindex : (parts.map top)[(parts.map top).idxOf part.top]? = some part.top :=
    List.getElem?_idxOf hmem
  obtain ⟨right, left, hright, hleft, horders⟩ := Arrangement.exists_swaps? hindex
  have hnodup : (parts.map top).Nodup := nodup_tops hb.parts.nodup
  refine ⟨_, (parts.map top).idxOf part.top, l, right, left, habove, ?_, hl, ?_, ?_, ?_⟩
  · exact place?_of_getElem? hget hup habove (by rwa [hchildren]) (by rwa [hchildren])
  · rw [hpositions, hchildren, List.length_map]
  · intro a ha
    obtain ⟨order, hperm, htops, hcopy⟩ := hcopies a ha
    rw [hchildren, ← htops]
    exact hcopy.copiesWith hb hperm.subset
  · rw [hchildren]
    exact ⟨hright, hleft, horders, horders ▸ Arrangement.map_idxOf_orders_perm hnodup hindex⟩

/-- The second of three terms can move either way, and the sum itself cannot be moved. -/
theorem arrangements_enumerate_sum : ∃ (t : Tree) (l : List Arrangement)
    (siblings : List Handle) (right left : List (List Handle)), siblings = [⟨1⟩, ⟨3⟩, ⟨4⟩] ∧
    parse "a+b+c" = .ok t ∧ t.arrangements ⟨0⟩ = .error .noParent ∧ t.arrangements ⟨3⟩ = .ok l ∧
    l.map (·.position) = [0, 1, 2] ∧
    (∀ a ∈ l, t.CopiesWith a.tree ⟨0⟩ ([⟨1⟩, ⟨4⟩].insertIdx a.position ⟨3⟩)) ∧
    Arrangement.swaps? siblings (Arrangement.rightSteps 1 3) = some right ∧
    Arrangement.swaps? siblings (Arrangement.leftSteps 1) = some left ∧
    ((siblings :: right ++ left).map (·.idxOf ⟨3⟩)).Perm (List.range 3) := by
  obtain ⟨t, ht⟩ : ∃ t : Tree, t = ⟨#[some ⟨.compound .add [⟨1⟩, ⟨3⟩, ⟨4⟩], none, ⟨0⟩⟩,
      some ⟨.literal "a", some ⟨0⟩, ⟨1⟩⟩, none, some ⟨.literal "b", some ⟨0⟩, ⟨3⟩⟩,
      some ⟨.literal "c", some ⟨0⟩, ⟨4⟩⟩], ⟨0⟩, 5⟩ := ⟨_, rfl⟩
  have hparse : parse "a+b+c" = .ok t := by
    rw [ht]
    cbv
  have hforest : t.IsForest := (Obtained.parse hparse).isProper.toIsForest
  have htop : t.get? ⟨0⟩ = some ⟨.compound .add [⟨1⟩, ⟨3⟩, ⟨4⟩], none, ⟨0⟩⟩ := by
    rw [ht]
    rfl
  have hterm : t.get? ⟨3⟩ = some ⟨.literal "b", some ⟨0⟩, ⟨3⟩⟩ := by
    rw [ht]
    rfl
  obtain ⟨above, index, l, right, left, habove, hplace, hl, hpositions, hcopies, hright, hleft, _,
    hmet⟩ := (arrangements_enumerate hforest hterm).2 ⟨0⟩ rfl
  rw [htop, Option.some_inj] at habove
  subst habove
  obtain rfl : index = 1 := by
    have hfound : t.place? ⟨3⟩ = .ok (some (⟨0⟩, 1)) := by
      rw [ht]
      rfl
    rw [hfound] at hplace
    cases hplace
    rfl
  exact ⟨t, l, _, right, left, rfl, hparse, (arrangements_enumerate hforest htop).1 rfl, hl,
    hpositions, hcopies, hright, hleft, hmet⟩

end Tree

end FormulaEditor
