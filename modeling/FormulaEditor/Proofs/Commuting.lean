/-
Drags that do not get in each other's way.

A drop changes one child list.  Where another drag remembers a path to a node that stands
neither above nor below that list's node, the path leads where it led, and what is at the
end of it is as it was:

* `Tree.withMoved` — the tree in which a child has been moved to another position;
* `Drag.BegunOn.run_drop_put` — a drop after a change somewhere else;
* `Drag.drop_comm` — two such drags can be dropped in either order, and both count.
-/
import FormulaEditor.Proofs.Moving

namespace FormulaEditor

open Branch

namespace Tree

/-- The tree in which a child has been taken out of the child list of a compound and put in
again at a position. -/
def withMoved (t : Tree) (up id : Handle) (position : Nat) : Tree :=
  match t.get? up with
  | some ⟨.compound operator siblings, place, tag⟩ =>
    t.put up (some ⟨.compound operator ((siblings.erase id).insertIdx position id), place, tag⟩)
  | _ => t

variable {t : Tree} {up id other : Handle} {operator : Operator} {siblings : List Handle}
  {place : Option Handle} {tag : Tag}

theorem withMoved_eq (h : t.get? up = some ⟨.compound operator siblings, place, tag⟩)
    (id : Handle) (position : Nat) : t.withMoved up id position
      = t.put up
        (some ⟨.compound operator ((siblings.erase id).insertIdx position id), place, tag⟩) := by
  rw [withMoved, h]

theorem Bears.withMoved_eq {parts : List Branch}
    (h : t.Bears place (compound up tag operator parts)) (id : Handle) (position : Nat) :
    t.withMoved up id position = t.put up (some ⟨.compound operator
      (((parts.map top).erase id).insertIdx position id), place, tag⟩) :=
  Tree.withMoved_eq h.get id position

/-- Moves in different child lists can be made in either order. -/
theorem withMoved_comm {up' id' : Handle} {operator' : Operator} {siblings' : List Handle}
    {place' : Option Handle} {tag' : Tag} (hne : up ≠ up')
    (h : t.get? up = some ⟨.compound operator siblings, place, tag⟩)
    (h' : t.get? up' = some ⟨.compound operator' siblings', place', tag'⟩) (id : Handle)
    (position position' : Nat) : (t.withMoved up id position).withMoved up' id' position'
      = (t.withMoved up' id' position').withMoved up id position := by
  have hother : (t.withMoved up id position).get? up'
      = some ⟨.compound operator' siblings', place', tag'⟩ := by
    rw [withMoved_eq h, get?_put_ne t _ hne.symm, h']
  have hother' : (t.withMoved up' id' position').get? up
      = some ⟨.compound operator siblings, place, tag⟩ := by
    rw [withMoved_eq h', get?_put_ne t _ hne, h]
  rw [withMoved_eq hother, withMoved_eq hother', withMoved_eq h, withMoved_eq h', put_comm hne]

/-- From every node on the way up the way leads down again. -/
theorem IsForest.reaches_of_climbs (h : t.IsForest) {way : List Handle} (hway : t.Climbs id way)
    (hmem : other ∈ way) : t.Reaches other id := by
  induction hway with
  | top =>
    rw [List.mem_singleton.mp hmem]
    exact .self
  | @step id up way hparent _ ih =>
    rcases List.mem_cons.mp hmem with rfl | hmem
    · exact .self
    · obtain ⟨node, hget, hchild⟩ := h.lists_iff.mpr hparent
      exact .child (ih hmem) hget hchild

end Tree

namespace Drag

variable {t : Tree} {drag first second : Drag} {path path' : Path} {place : Option Handle}
  {up up' : Handle} {tag : Tag} {operator : Operator} {parts : List Branch} {part : Branch}
  {position position' : Nat}

/-- Dropping after a node was changed that stands neither above nor below the parent. -/
theorem BegunOn.run_drop_put (h : drag.BegunOn t place up tag operator parts part)
    (ht : t.IsForest) (htags : t.HasOwnTags) {other : Handle} {slot : Option Node}
    (hu : (t.put other slot).IsForest) (habove : ¬t.Reaches other up)
    (hbelow : ¬t.Reaches up other) (hlt : position < parts.length) :
    (drag.drop position).run (t.put other slot) = .ok (drag.parentPath.push position)
        ((t.put other slot).withMoved up part.top position) ∧
      ((t.put other slot).withMoved up part.top position).nodeAt (drag.parentPath.push position)
        = .ok part.top := by
  obtain ⟨way, hway⟩ := (ht.ascends h.bears.get).climbs
  obtain ⟨rest, rfl⟩ := hway.exists_cons
  have hpath : (t.put other slot).nodeAt drag.parentPath = .ok up := by
    refine ht.nodeAt_congr h.nodeAt hway rfl fun id hid => Tree.get?_put_ne t slot ?_
    rintro rfl
    exact habove (ht.reaches_of_climbs hway (List.mem_cons_of_mem _ hid))
  have hb : (t.put other slot).Bears place (compound up tag operator parts) := by
    refine h.bears.congr fun id hid => Tree.get?_put_ne t slot ?_
    rintro rfl
    exact hbelow (h.bears.holds.reaches .self id hid)
  obtain ⟨u', order, hrun, _, hmoved, _, _, _, htops, hu'⟩ :=
    h.exists_move_of_bears htags hu hpath hb hlt
  have heq : u' = (t.put other slot).withMoved up part.top position := by
    rw [hb.withMoved_eq, hu', htops]
  subst heq
  exact ⟨hrun, hmoved⟩

/-- Dropping one drag on the tree that it was begun on, and then another one that was begun
there as well. -/
theorem BegunOn.run_drop_drop {place' : Option Handle} {tag' : Tag} {operator' : Operator}
    {parts' : List Branch} {part' : Branch} (ht : t.IsForest) (htags : t.HasOwnTags)
    (h : first.BegunOn t place up tag operator parts part)
    (h' : second.BegunOn t place' up' tag' operator' parts' part')
    (hapart : ¬t.Reaches up up') (hapart' : ¬t.Reaches up' up) (hlt : position < parts.length)
    (hlt' : position' < parts'.length) :
    (first.drop position).run t
        = .ok (first.parentPath.push position) (t.withMoved up part.top position) ∧
      (second.drop position').run (t.withMoved up part.top position)
        = .ok (second.parentPath.push position')
          ((t.withMoved up part.top position).withMoved up' part'.top position') ∧
      ((t.withMoved up part.top position).withMoved up' part'.top position').nodeAt
        (second.parentPath.push position') = .ok part'.top := by
  obtain ⟨u, order, hrun, _, _, _, _, _, htops, hu⟩ := h.exists_move ht htags hlt
  have hpermutes := (first.isPermuting_drop position).permutes ht hrun
  have heq : t.withMoved up part.top position = u := by
    rw [h.bears.withMoved_eq, hu, htops]
  have hforest := hpermutes.isForest ht
  rw [heq]
  refine ⟨hrun, ?_⟩
  rw [hu] at hforest ⊢
  exact h'.run_drop_put ht htags hforest hapart hapart' hlt'

/-- Two drags that were begun on the same tree, with parents of which neither stands below
the other.  Whichever of them is dropped first, both drops succeed, give the same paths and
lead to the same tree: in that both nodes have been moved, and the paths lead to them. -/
theorem drop_comm (ht : t.Obtained) (hfirst : Drag.start t path = .ok first)
    (hsecond : Drag.start t path' = .ok second) (hup : t.nodeAt first.parentPath = .ok up)
    (hup' : t.nodeAt second.parentPath = .ok up') (hapart : ¬t.Reaches up up')
    (hapart' : ¬t.Reaches up' up) (hposition : (first.arrangementAt? position).isSome = true)
    (hposition' : (second.arrangementAt? position').isSome = true) :
    ∃ (id id' : Handle) (u : Tree), t.nodeAt path = .ok id ∧ t.Lists up id ∧
      t.nodeAt path' = .ok id' ∧ t.Lists up' id' ∧
      (first.drop position).run t
        = .ok (first.parentPath.push position) (t.withMoved up id position) ∧
      (second.drop position').run (t.withMoved up id position)
        = .ok (second.parentPath.push position') u ∧
      (second.drop position').run t
        = .ok (second.parentPath.push position') (t.withMoved up' id' position') ∧
      (first.drop position).run (t.withMoved up' id' position')
        = .ok (first.parentPath.push position) u ∧
      u = (t.withMoved up id position).withMoved up' id' position' ∧
      u.nodeAt (first.parentPath.push position) = .ok id ∧
      u.nodeAt (second.parentPath.push position') = .ok id' := by
  have hforest := ht.isProper.toIsForest
  obtain ⟨_, up₁, _, _, parts, part, h, hpath⟩ := exists_begunOn hforest hfirst
  obtain ⟨_, up₂, _, _, parts', part', h', hpath'⟩ := exists_begunOn hforest hsecond
  obtain rfl : up = up₁ := Except.ok.inj (hup.symm.trans h.nodeAt)
  obtain rfl : up' = up₂ := Except.ok.inj (hup'.symm.trans h'.nodeAt)
  have hlt := (isSome_arrangementAt?_iff h.positions).mp hposition
  have hlt' := (isSome_arrangementAt?_iff h'.positions).mp hposition'
  have hid := h.bears.nodeAt_part h.nodeAt h.part_eq
  have hid' := h'.bears.nodeAt_part h'.nodeAt h'.part_eq
  obtain ⟨hrun₁, hrun₂, hmoved₂⟩ :=
    BegunOn.run_drop_drop hforest ht.hasOwnTags h h' hapart hapart' hlt hlt'
  obtain ⟨hrun₃, hrun₄, hmoved₁⟩ :=
    BegunOn.run_drop_drop hforest ht.hasOwnTags h' h hapart' hapart hlt' hlt
  have hne : up ≠ up' := fun heq => hapart (heq ▸ .self)
  have hcomm : (t.withMoved up part.top position).withMoved up' part'.top position'
      = (t.withMoved up' part'.top position').withMoved up part.top position :=
    Tree.withMoved_comm hne h.bears.get h'.bears.get part.top position position'
  rw [← hcomm] at hrun₄ hmoved₁
  exact ⟨part.top, part'.top, _, hpath ▸ hid, ⟨_, h.bears.get, List.mem_map_of_mem h.mem_parts⟩,
    hpath' ▸ hid', ⟨_, h'.bears.get, List.mem_map_of_mem h'.mem_parts⟩, hrun₁, hrun₂, hrun₃, hrun₄,
    rfl, hmoved₁, hmoved₂⟩

/-- The factors of two products are swapped, of the one on the left and the one on the
right. -/
theorem drop_comm_sum : ∃ (t t₁ t₂ u : Tree) (first second : Drag),
    parse "a*b+c*d" = .ok t ∧ Drag.start t ⟨[0, 0]⟩ = .ok first ∧
    Drag.start t ⟨[1, 1]⟩ = .ok second ∧
    (first.drop 1).run t = .ok ⟨[0, 1]⟩ t₁ ∧ (second.drop 0).run t₁ = .ok ⟨[1, 0]⟩ u ∧
    (second.drop 0).run t = .ok ⟨[1, 0]⟩ t₂ ∧ (first.drop 1).run t₂ = .ok ⟨[0, 1]⟩ u ∧
    u.get? ⟨1⟩ = some ⟨.compound .mul [⟨3⟩, ⟨2⟩], some ⟨0⟩, ⟨1⟩⟩ ∧
    u.get? ⟨4⟩ = some ⟨.compound .mul [⟨6⟩, ⟨5⟩], some ⟨0⟩, ⟨4⟩⟩ := by
  obtain ⟨t, ht⟩ : ∃ t : Tree, t = ⟨#[some ⟨.compound .add [⟨1⟩, ⟨4⟩], none, ⟨0⟩⟩,
      some ⟨.compound .mul [⟨2⟩, ⟨3⟩], some ⟨0⟩, ⟨1⟩⟩, some ⟨.literal "a", some ⟨1⟩, ⟨2⟩⟩,
      some ⟨.literal "b", some ⟨1⟩, ⟨3⟩⟩, some ⟨.compound .mul [⟨5⟩, ⟨6⟩], some ⟨0⟩, ⟨4⟩⟩,
      some ⟨.literal "c", some ⟨4⟩, ⟨5⟩⟩, some ⟨.literal "d", some ⟨4⟩, ⟨6⟩⟩], ⟨0⟩, 7⟩ := ⟨_, rfl⟩
  have hparse : parse "a*b+c*d" = .ok t := by
    rw [ht]
    cbv
  have hforest : t.IsForest := (Tree.Obtained.parse hparse).isProper.toIsForest
  -- the two products stand side by side
  obtain ⟨left, right, hleft, hright, hids, hids'⟩ : ∃ left right : Node,
      t.get? ⟨1⟩ = some left ∧ t.get? ⟨4⟩ = some right ∧
      t.descendants ⟨1⟩ = .ok [⟨1⟩, ⟨2⟩, ⟨3⟩] ∧ t.descendants ⟨4⟩ = .ok [⟨4⟩, ⟨5⟩, ⟨6⟩] := by
    rw [ht]
    exact ⟨_, _, rfl, rfl, by cbv, by cbv⟩
  have hapart : ¬t.Reaches ⟨1⟩ ⟨4⟩ := by
    rw [hforest.reaches_iff hleft hids]
    decide
  have hapart' : ¬t.Reaches ⟨4⟩ ⟨1⟩ := by
    rw [hforest.reaches_iff hright hids']
    decide
  obtain ⟨first, hfirst, hpath, hposition⟩ : ∃ first, Drag.start t ⟨[0, 0]⟩ = .ok first ∧
      first.parentPath = ⟨[0]⟩ ∧ (first.arrangementAt? 1).isSome = true := by
    rw [ht]
    exact ⟨_, by cbv, rfl, by cbv⟩
  obtain ⟨second, hsecond, hpath', hposition'⟩ : ∃ second, Drag.start t ⟨[1, 1]⟩ = .ok second ∧
      second.parentPath = ⟨[1]⟩ ∧ (second.arrangementAt? 0).isSome = true := by
    rw [ht]
    exact ⟨_, by cbv, rfl, by cbv⟩
  have hup : t.nodeAt first.parentPath = .ok ⟨1⟩ := by
    rw [hpath, ht]
    rfl
  have hup' : t.nodeAt second.parentPath = .ok ⟨4⟩ := by
    rw [hpath', ht]
    rfl
  obtain ⟨id, id', u, hid, _, hid', _, hrun₁, hrun₂, hrun₃, hrun₄, hu, _⟩ :=
    drop_comm (.parse hparse) hfirst hsecond hup hup' hapart hapart' hposition hposition'
  rw [hpath] at hrun₁ hrun₄
  rw [hpath'] at hrun₂ hrun₃
  refine ⟨t, _, _, u, first, second, hparse, hfirst, hsecond, hrun₁, hrun₂, hrun₃, hrun₄, ?_⟩
  rw [ht] at hid hid'
  cases hid
  cases hid'
  rw [hu, ht]
  exact ⟨rfl, rfl⟩

end Drag

end FormulaEditor
