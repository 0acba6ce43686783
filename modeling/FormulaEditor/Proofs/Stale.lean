/-
Drags that were begun some time ago.

While a node is under way, other drags may be dropped on the tree, and any of its
subtrees may be rearranged (`Tree.Evolves`).  The path that the drag remembers may then
lead to another node than the one that the path was for.  The order of child lists is all
that can have changed, so the drag can still tell: the node that it is about has its tag,
and no other node has a child with that tag.

* `Tree.Evolves.permutes` — what can happen to the tree in the meantime;
* `Tree.not_exists_matches` — a node cannot be made to match a copy of another one;
* `Drag.BegunOn.exists_drop`, `Drag.BegunOn.exists_refusal` — dropping, if the path still
  leads to the same node and if it does not;
* `Drag.drop_of_evolves` — all that a drop can do to a tree that has changed.
-/
import FormulaEditor.Proofs.Invariants

namespace FormulaEditor

open Branch

namespace Tree

/-- What a tree can become while others work on it: subtrees are rearranged and drags are
dropped, whether or not this succeeds. -/
inductive Evolves (t : Tree) : Tree → Prop
  | refl : Evolves t t
  | rearrange {u : Tree} (id : Handle) (target : Tree) (targetId : Handle) :
      Evolves t u → Evolves t ((Edit.rearrange id target targetId).leaves u)
  | drop {u : Tree} (drag : Drag) (position : Nat) :
      Evolves t u → Evolves t ((drag.drop position).leaves u)

variable {t u : Tree} {place : Option Handle} {b d part : Branch}

theorem Evolves.permutes (h : t.Evolves u) (ht : t.IsForest) : t.Permutes u := by
  induction h with
  | refl => exact .refl t
  | rearrange id target targetId _ ih =>
    exact ih.trans (Edit.isPermuting_rearrange id target targetId _ (ih.isForest ht))
  | drop drag position _ ih => exact ih.trans (drag.isPermuting_drop position _ (ih.isForest ht))

/-- If a child of the target has the tag of a node that stands elsewhere in the tree, no
order of the branch matches the target. -/
theorem not_exists_matches (hb : t.Bears place b) (ht : t.HasOwnTags) (hpart : part ∈ d.parts)
    {id : Handle} {node : Node} (hget : t.get? id = some node) (htag : node.tag = part.tag)
    (hparent : node.parent ≠ some b.top) : ¬∃ r, b.Shuffles r ∧ r.Matches d := by
  rintro ⟨r, hr, _, hkeys, _, _⟩
  -- a child of the branch would have to have that tag as well
  have hmem : part.key ∈ r.parts.map key := hkeys ▸ List.mem_map_of_mem hpart
  obtain ⟨new, hnew, hkey⟩ := List.mem_map.mp hmem
  obtain ⟨old, hold, hshuffles⟩ := hr.exists_of_mem_parts hnew
  have hfound := (hb.part hold).get
  have htags : old.tag = part.tag := congrArg ChildKey.tag (hshuffles.key.symm.trans hkey)
  obtain rfl : id = old.top :=
    ht.eq_of_tag_eq hget hfound (by rw [tag_node, htags, htag])
  rw [hget, Option.some_inj] at hfound
  exact absurd (by rw [hfound, parent_node]) hparent

end Tree

namespace Drag

variable {t u : Tree} {drag : Drag} {place : Option Handle} {up : Handle} {tag : Tag}
  {operator : Operator} {parts : List Branch} {part : Branch} {position : Nat}

/-! ### Drops on a tree that has changed -/

namespace BegunOn

/-- The path still leads to the node that it was for. -/
theorem exists_drop (h : drag.BegunOn t place up tag operator parts part) (ht : t.IsForest)
    (htags : t.HasOwnTags) (hu : t.Permutes u) (hlt : position < parts.length)
    (hpath : u.nodeAt drag.parentPath = .ok up) :
    ∃ (u' tree : Tree) (ids : List Handle),
      (drag.drop position).run u = .ok (drag.parentPath.push position) u' ∧
      drag.arrangementAt? position = some tree ∧ u'.copyOf up = .ok tree ∧
      u'.nodeAt (drag.parentPath.push position) = .ok part.top ∧
      u.descendants up = .ok ids ∧ u.SameExcept u' ids := by
  obtain ⟨tree, order, htree, hcopy, hperm, _, hpart, hnodup⟩ := h.exists_order htags hlt
  obtain ⟨b, hb, hshuffles⟩ := hu.exists_shuffles h.bears
  obtain rfl : b.top = up := hshuffles.top
  -- whatever became of the branch, the arrangement is another order of it
  obtain ⟨u', hrun, hb', hsame, _, hmoved⟩ := Drag.run_drop (hu.isForest ht) htree hpath hb hcopy
    (hshuffles.symm.permute hperm.symm) hnodup hpart h.tag_eq
  obtain ⟨copy, hcopyOf, hiscopy⟩ := Tree.exists_copyOf hb'
  rw [hsame.nextTag, hu.nextTag] at hiscopy
  refine ⟨u', tree, b.handles, hrun, htree, ?_, hmoved, hb.descendants_eq, hsame⟩
  rw [← hiscopy.eq hcopy rfl]
  exact hcopyOf

/-- The position is not offered, or the path leads to another node, or nowhere. -/
theorem exists_refusal (h : drag.BegunOn t place up tag operator parts part) (ht : t.IsTree)
    (htags : t.HasOwnTags) (hu : t.Permutes u)
    (hno : ¬ (position < parts.length ∧ u.nodeAt drag.parentPath = .ok up)) :
    ∃ e, e.isFault = false ∧ (drag.drop position).run u = .error e u := by
  by_cases hlt : position < parts.length
  · obtain ⟨tree, order, htree, hcopy, hperm, _⟩ := h.exists_order htags hlt
    cases hpath : u.nodeAt drag.parentPath with
    | error e =>
      have he := (hu.isTree ht).failsWith_nodeAt _ e hpath
      exact ⟨e, by rw [he]; rfl, run_drop_of_lost htree hpath⟩
    | ok other =>
      have hne : other ≠ up := fun heq => hno ⟨hlt, heq ▸ hpath⟩
      obtain ⟨node, hget⟩ := (hu.isTree ht).exists_get hpath
      obtain ⟨b, rfl, hb⟩ := (hu.isForest ht.toIsForest).exists_bears hget
      obtain ⟨d, hd, hbare⟩ := hcopy.exists_isCompact
      -- the copy of the dragged node has its tag, and in the tree that one is below `up`
      have hmem : part.bare ∈ d.parts.map bare :=
        map_bare_parts hbare ▸ List.mem_map_of_mem (hperm.mem_iff.mpr h.mem_parts)
      obtain ⟨child, hchild, hchildBare⟩ := List.mem_map.mp hmem
      obtain ⟨found, hfound, hsame⟩ := hu.get h.get
      have hno := Tree.not_exists_matches hb (hu.hasOwnTags htags) hchild hfound
        (by rw [hsame.tag, tag_node]
            exact congrArg ChildKey.tag (key_eq_of_bare_eq hchildBare.symm))
        (by rw [hsame.parent, parent_node, ne_eq, Option.some_inj]
            exact hne.symm)
      have hrun := Edit.run_rearrange_of_mismatch hb hd.bears hno
      exact ⟨_, rfl, run_drop_of_mismatch htree hpath (hd.root ▸ hrun)⟩
  · refine ⟨.invalidPath, rfl, run_drop_of_none (Option.not_isSome_iff_eq_none.mp fun hsome => ?_)⟩
    exact hlt ((isSome_arrangementAt?_iff h.positions).mp hsome)

end BegunOn

/-- A drag that is dropped on the tree that it was begun on, after others have worked on
it.  The drop succeeds if the position is one of those among the siblings and the path
still leads to their parent, and not otherwise.  If it succeeds, the subtree of the parent
is what was offered, and nothing has changed outside of it; if it does not, nothing has
changed at all. -/
theorem drop_of_evolves {path : Path} (ht : t.Obtained) (hstart : Drag.start t path = .ok drag)
    (hu : t.Evolves u) (position : Nat) :
    ∃ (id up : Handle) (node above : Node), t.nodeAt path = .ok id ∧ t.get? id = some node ∧
      node.parent = some up ∧ t.get? up = some above ∧ t.nodeAt drag.parentPath = .ok up ∧
      ((∃ path' u', (drag.drop position).run u = .ok path' u') ↔
        position < above.children.length ∧ u.nodeAt drag.parentPath = .ok up) ∧
      (∀ path' u', (drag.drop position).run u = .ok path' u' →
        path' = drag.parentPath.push position ∧ u'.nodeAt path' = .ok id ∧
        (∃ tree, drag.arrangementAt? position = some tree ∧ u'.copyOf up = .ok tree) ∧
        ∃ ids, u.descendants up = .ok ids ∧ u.SameExcept u' ids) ∧
      ∀ e u', (drag.drop position).run u = .error e u' → e.isFault = false ∧ u' = u := by
  have hproper := ht.isProper
  have hpermutes := hu.permutes hproper.toIsForest
  obtain ⟨place, up, tag, operator, parts, part, hbegun, hpath⟩ :=
    exists_begunOn hproper.toIsForest hstart
  refine ⟨part.top, up, _, _, ?_, hbegun.get, parent_node _ _, hbegun.bears.get, hbegun.nodeAt, ?_⟩
  · rw [hpath]
    exact hbegun.bears.nodeAt_part hbegun.nodeAt hbegun.part_eq
  · rw [children_node, Branch.parts, List.length_map]
    by_cases hyes : position < parts.length ∧ u.nodeAt drag.parentPath = .ok up
    · obtain ⟨u', tree, ids, hrun, htree, hcopy, hmoved, hids, hsame⟩ :=
        hbegun.exists_drop hproper.toIsForest ht.hasOwnTags hpermutes hyes.1 hyes.2
      rw [hrun]
      refine ⟨⟨fun _ => hyes, fun _ => ⟨_, _, rfl⟩⟩, ?_, ?_⟩
      · rintro _ _ ⟨⟩
        exact ⟨rfl, hmoved, ⟨tree, htree, hcopy⟩, ids, hids, hsame⟩
      · rintro _ _ ⟨⟩
    · obtain ⟨e, he, hrun⟩ :=
        hbegun.exists_refusal hproper.toIsTree ht.hasOwnTags hpermutes hyes
      rw [hrun]
      refine ⟨⟨?_, fun h => absurd h hyes⟩, ?_, ?_⟩
      · rintro ⟨_, _, ⟨⟩⟩
      · rintro _ _ ⟨⟩
      · rintro _ _ ⟨⟩
        exact ⟨he, rfl⟩

/-- A drag in a sum of two terms is dropped twice, the second time on what has become of
the sum by then. -/
theorem drop_of_evolves_sum : ∃ (t u : Tree) (drag : Drag), parse "a+b" = .ok t ∧
    Drag.start t ⟨[0]⟩ = .ok drag ∧
    (drag.drop 0).run ((drag.drop 1).leaves t) = .ok (drag.parentPath.push 0) u ∧
    u.nodeAt (drag.parentPath.push 0) = .ok ⟨1⟩ := by
  obtain ⟨t, ht⟩ : ∃ t : Tree, t = ⟨#[some ⟨.compound .add [⟨1⟩, ⟨2⟩], none, ⟨0⟩⟩,
      some ⟨.literal "a", some ⟨0⟩, ⟨1⟩⟩, some ⟨.literal "b", some ⟨0⟩, ⟨2⟩⟩], ⟨0⟩, 3⟩ := ⟨_, rfl⟩
  have hparse : parse "a+b" = .ok t := by
    rw [ht]
    cbv
  have hok : (Drag.start t ⟨[0]⟩).isOk = true := by
    rw [ht]
    cbv
  cases hstart : Drag.start t ⟨[0]⟩ with
  | error e =>
    rw [hstart] at hok
    cases hok
  | ok drag =>
    have hevolves : t.Evolves ((drag.drop 1).leaves t) := .drop drag 1 .refl
    have hroot := (hevolves.permutes (Tree.Obtained.parse hparse).isProper.toIsForest).root
    obtain ⟨_, _, _, _, _, _, hpath, _⟩ := exists_of_start hstart
    obtain ⟨id, up, node, above, hid, hnode, hup, habove, _, hiff, hdrop, _⟩ :=
      drop_of_evolves (.parse hparse) hstart hevolves 0
    subst ht
    cases hid
    cases hnode
    cases hup
    cases habove
    obtain ⟨path, u, hrun⟩ := hiff.mpr ⟨by decide, by rw [hpath]; exact congrArg _ hroot⟩
    obtain ⟨rfl, hmoved, _⟩ := hdrop path u hrun
    exact ⟨_, u, drag, hparse, hstart, hrun, hmoved⟩

end Drag

end FormulaEditor
