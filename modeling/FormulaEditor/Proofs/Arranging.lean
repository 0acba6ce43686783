/-
What arrangements are made of.

Moving a node past its siblings leads to each place among them once
(`Arrangement.mem_orders`), so the arrangements of a node are as many as it has
siblings, itself included.  The one at a position is its parent, copied with the
node taken out of the child list and put in again there
(`Tree.exists_arrangements`).  Nothing else is ever offered
(`Tree.exists_of_mem_arrangements`).
-/
import FormulaEditor.Proofs.Copying
import FormulaEditor.Proofs.Paths

namespace FormulaEditor

namespace Arrangement

variable {α : Type}

/-! ### Orders -/

/-- Walking right passes some of what stands to the right. -/
theorem mem_walkRight {before after order : List α} {x : α} :
    order ∈ walkRight before x after ↔ ∃ passed rest, passed ≠ [] ∧ after = passed ++ rest ∧
      order = before ++ passed ++ x :: rest := by
  induction after generalizing before with
  | nil => simp [walkRight]
  | cons next after ih =>
    rw [walkRight, List.mem_cons, ih]
    constructor
    · rintro (rfl | ⟨passed, rest, _, rfl, rfl⟩)
      · exact ⟨[next], after, by simp, rfl, rfl⟩
      · exact ⟨next :: passed, rest, by simp, rfl, by simp⟩
    · rintro ⟨passed, rest, hne, hafter, rfl⟩
      cases passed with
      | nil => exact absurd rfl hne
      | cons first passed =>
        obtain ⟨rfl, rfl⟩ := List.cons.inj hafter
        -- it has passed the first one, and perhaps more
        cases passed with
        | nil => exact .inl rfl
        | cons second passed => exact .inr ⟨second :: passed, rest, by simp, rfl, by simp⟩

/-- Walking left passes some of what stands to the left. -/
theorem mem_walkLeft {before after order : List α} {x : α} :
    order ∈ walkLeft x after before ↔ ∃ passed rest, passed ≠ [] ∧ before = passed ++ rest ∧
      order = rest.reverse ++ x :: (passed.reverse ++ after) := by
  induction before generalizing after with
  | nil => simp [walkLeft]
  | cons next before ih =>
    rw [walkLeft, List.mem_cons, ih]
    constructor
    · rintro (rfl | ⟨passed, rest, _, rfl, rfl⟩)
      · exact ⟨[next], before, by simp, rfl, rfl⟩
      · exact ⟨next :: passed, rest, by simp, rfl, by simp⟩
    · rintro ⟨passed, rest, hne, hbefore, rfl⟩
      cases passed with
      | nil => exact absurd rfl hne
      | cons first passed =>
        obtain ⟨rfl, rfl⟩ := List.cons.inj hbefore
        cases passed with
        | nil => exact .inl rfl
        | cons second passed => exact .inr ⟨second :: passed, rest, by simp, rfl, by simp⟩

/-- The orders are those in which the node stands somewhere among its
siblings. -/
theorem mem_orders {before after order : List Handle} {id : Handle} :
    order ∈ orders (before ++ id :: after) before.length id ↔
      ∃ left right, left ++ right = before ++ after ∧ order = left ++ id :: right := by
  have htake : (before ++ id :: after).take before.length = before := by simp
  have hdrop : (before ++ id :: after).drop (before.length + 1) = after := by simp
  rw [orders, htake, hdrop, List.mem_append, List.mem_cons, mem_walkRight, mem_walkLeft]
  constructor
  · rintro ((rfl | ⟨passed, rest, _, rfl, rfl⟩) | ⟨passed, rest, _, hbefore, rfl⟩)
    · exact ⟨before, after, rfl, rfl⟩
    · exact ⟨before ++ passed, rest, by simp, rfl⟩
    · refine ⟨rest.reverse, passed.reverse ++ after, ?_, rfl⟩
      rw [← List.reverse_reverse before, hbefore, List.reverse_append, List.append_assoc]
  · rintro ⟨left, right, hsplit, rfl⟩
    -- the new place is to the right of the old one, or to the left, or it is the same
    rcases List.append_eq_append_iff.mp hsplit with ⟨passed, rfl, rfl⟩ | ⟨passed, rfl, rfl⟩
    · cases passed with
      | nil => exact .inl (.inl (by simp))
      | cons first passed =>
        exact .inr ⟨(first :: passed).reverse, left.reverse, by simp, by simp, by simp⟩
    · cases passed with
      | nil => exact .inl (.inl (by simp))
      | cons first passed =>
        exact .inl (.inr ⟨first :: passed, right, by simp, rfl, rfl⟩)

theorem insertIdx_length_append (left right : List α) (x : α) :
    (left ++ right).insertIdx left.length x = left ++ x :: right := by
  induction left with
  | nil => rfl
  | cons a left ih => simp [ih]

/-- Among different siblings each position is reached in one order. -/
theorem byPosition_orders {before after : List Handle} {id : Handle}
    (hnodup : (before ++ id :: after).Nodup) :
    byPosition (orders (before ++ id :: after) before.length id) (before ++ id :: after).length id
      = (List.range (before ++ id :: after).length).map fun position =>
        (position, (before ++ after).insertIdx position id) := by
  refine (List.filterMap_congr (g := some ∘ fun position =>
    (position, (before ++ after).insertIdx position id)) ?_).trans
    (congrFun List.filterMap_eq_map _)
  intro position hposition
  have hlt : position ≤ (before ++ after).length := by
    rw [List.mem_range, List.length_append, List.length_cons] at hposition
    rw [List.length_append]
    omega
  have hnot : id ∉ before ++ after := (List.nodup_cons.mp (List.nodup_middle.mp hnodup)).1
  have hidx : ∀ {left right}, left ++ right = before ++ after →
      (left ++ id :: right).idxOf id = left.length := by
    intro left right hsplit
    rw [← hsplit, List.mem_append, not_or] at hnot
    rw [List.idxOf_append_of_notMem hnot.1, List.idxOf_cons_self, Nat.add_zero]
  show List.findRev? _ _ = some _
  rw [List.findRev?_eq_find?_reverse]
  cases hfind : ((orders (before ++ id :: after) before.length id).map fun order =>
      (order.idxOf id, order)).reverse.find? (fun entry => decide (entry.1 = position)) with
  | none =>
    -- there is an order for the position
    have hnone := List.find?_eq_none.mp hfind
    have hsplit := List.take_append_drop position (before ++ after)
    refine absurd ?_ (hnone (position, _) (List.mem_reverse.mpr (List.mem_map.mpr
      ⟨_, mem_orders.mpr ⟨_, _, hsplit, rfl⟩, Prod.ext ?_ rfl⟩)))
    · simp
    · exact (hidx hsplit).trans (by rw [List.length_take, Nat.min_eq_left hlt])
  | some entry =>
    -- and what is found for it is that order
    obtain ⟨order, horder, rfl⟩ := List.mem_map.mp
      (List.mem_reverse.mp (List.mem_of_find?_eq_some hfind))
    obtain ⟨left, right, hsplit, rfl⟩ := mem_orders.mp horder
    have hposition : (left ++ id :: right).idxOf id = position := by
      simpa using List.find?_some hfind
    rw [← hposition, hidx hsplit]
    show some (left.length, _) = some (left.length, (before ++ after).insertIdx left.length id)
    rw [← hsplit, insertIdx_length_append]

end Arrangement

namespace Tree

open Branch

variable {t : Tree} {place : Option Handle} {up : Handle} {tag : Tag} {operator : Operator}
  {parts : List Branch} {part : Branch}

/-- A copy of a compound in which one of the parts has been taken out and put in again at
another position. -/
theorem exists_arranged_insertIdx (h : t.Bears place (compound up tag operator parts))
    (hp : part ∈ parts) {position : Nat} (hlt : position < parts.length) :
    ∃ tree, t.arranged up (((parts.map top).erase part.top).insertIdx position part.top)
        = .ok tree ∧
      ∃ order : List Branch, order.Perm parts ∧
        order.map top = ((parts.map top).erase part.top).insertIdx position part.top ∧
        tree.IsCopy t.nextTag (compound up tag operator order) := by
  have hmem : part.top ∈ parts.map top := List.mem_map_of_mem hp
  have hle : position ≤ ((parts.map top).erase part.top).length := by
    rw [List.length_erase_of_mem hmem, List.length_map]
    omega
  have hperm : (((parts.map top).erase part.top).insertIdx position part.top).Perm
      (parts.map top) := (List.perm_insertIdx _ _ hle).trans (List.perm_cons_erase hmem).symm
  obtain ⟨order, horder, htops⟩ := exists_perm_of_perm_map hperm
  obtain ⟨copy, hcopy, hiscopy⟩ := exists_arranged h horder.subset
  exact ⟨copy, htops ▸ hcopy, order, horder, htops, hiscopy⟩

/-- The arrangements of a node: one for each position among its siblings, in
which it has been taken out and put in again at that position. -/
theorem exists_arrangements (h : t.Bears place (compound up tag operator parts))
    (hp : part ∈ parts) :
    ∃ l, t.arrangements part.top = .ok l ∧ l.map (·.position) = List.range parts.length ∧
      ∀ a ∈ l, ∃ order : List Branch, order.Perm parts ∧
        order.map top = ((parts.map top).erase part.top).insertIdx a.position part.top ∧
        a.tree.IsCopy t.nextTag (compound up tag operator order) := by
  have hnodup : (parts.map top).Nodup := nodup_tops h.parts.nodup
  obtain ⟨before, after, hsplit⟩ := List.append_of_mem (List.mem_map_of_mem (f := top) hp)
  have hup : t.get? up = some ((compound up tag operator parts).node place) := h.get
  have hindex : ((compound up tag operator parts).node place).children[before.length]?
      = some part.top := by
    rw [children_node, Branch.parts, hsplit]
    simp
  have hplace : t.place? part.top = .ok (some (up, before.length)) :=
    place?_of_getElem? (h.part hp).get (parent_node _ _) hup (by rwa [children_node]) hindex
  have hnot : part.top ∉ before := by
    rw [hsplit] at hnodup
    intro hmem
    exact (List.nodup_append.mp hnodup).2.2 _ hmem _ (List.mem_cons_self ..) rfl
  have herase : (parts.map top).erase part.top = before ++ after := by
    rw [hsplit, List.erase_append_right _ hnot, List.erase_cons_head]
  have hlen : (before ++ part.top :: after).length = parts.length := by
    rw [← hsplit, List.length_map]
  -- one after the other, the orders are turned into copies
  have heach : ∀ entry ∈ (List.range parts.length).map fun position =>
        (position, ((parts.map top).erase part.top).insertIdx position part.top),
      ∃ a : Arrangement, (do return ⟨entry.1, ← t.arranged up entry.2⟩) = Except.ok a ∧
        a.position = entry.1 ∧ ∃ order : List Branch, order.Perm parts ∧
          order.map top = ((parts.map top).erase part.top).insertIdx entry.1 part.top ∧
          a.tree.IsCopy t.nextTag (compound up tag operator order) := by
    intro entry hentry
    obtain ⟨position, hposition, rfl⟩ := List.mem_map.mp hentry
    obtain ⟨copy, hcopy, horder⟩ := exists_arranged_insertIdx h hp (List.mem_range.mp hposition)
    refine ⟨⟨position, copy⟩, ?_, rfl, horder⟩
    rw [hcopy]
    rfl
  obtain ⟨l, hl, hall⟩ := exists_mapM_eq_ok heach
  refine ⟨l, ?_, ?_, ?_⟩
  · rw [arrangements, hplace]
    simp only [bind, Except.bind, node_eq_ok_iff.mpr hup, children_node, Branch.parts, hsplit]
    rw [Arrangement.byPosition_orders (hsplit ▸ hnodup), hlen, ← herase]
    exact hl
  · rw [map_eq_map_of_forall₂ (hall.imp fun _ _ h => h.1), List.map_map]
    exact List.map_id' _
  · intro a ha
    obtain ⟨entry, _, hposition, hentry⟩ := exists_of_mem_forall₂ hall ha
    rw [hposition]
    exact hentry

/-- Nothing but such copies is ever offered. -/
theorem exists_of_mem_arrangements {b : Branch} {id : Handle} {l : List Arrangement}
    {a : Arrangement} (h : t.IsWhole b) (hl : t.arrangements id = .ok l) (ha : a ∈ l) :
    ∃ (up : Handle) (tag : Tag) (operator : Operator) (parts order : List Branch),
      (compound up tag operator parts).Within b ∧ order.Perm parts ∧
      a.tree.IsCopy t.nextTag (compound up tag operator order) := by
  have hplace : ∃ parent index, t.place? id = .ok (some (parent, index)) := by
    rw [arrangements] at hl
    obtain ⟨place, hplace, hl⟩ := exists_of_bind_eq_ok hl
    cases place with
    | none => cases hl
    | some place => exact ⟨_, _, hplace⟩
  obtain ⟨parent, index, hplace⟩ := hplace
  obtain ⟨node, hnode, hindex⟩ := exists_of_place? hplace
  obtain ⟨d, place, hd, hbears, rfl, rfl⟩ := h.exists_within hnode
  cases d with
  | literal => cases hindex
  | compound up tag operator parts =>
    obtain ⟨part, hp, rfl⟩ := List.mem_map.mp (List.mem_of_getElem? hindex)
    obtain ⟨l', hl', _, hall⟩ := exists_arrangements hbears hp
    rw [hl', Except.ok.injEq] at hl
    obtain ⟨order, hperm, _, hcopy⟩ := hall a (hl ▸ ha)
    exact ⟨up, tag, operator, parts, order, hd, hperm, hcopy⟩

end Tree

end FormulaEditor
