/-
What a rearranged node has in common with its target.

Children are matched by name and tag.  A literal could be named like an operator, and then
be taken for a compound; where no literal is, two nodes of the same name are of the same
kind.  A rearrangement that succeeds then leaves a subtree that says the same as the one it
was made to match, with the nodes that were there before:

* `Tree.HasPlainLiterals` — no literal is named like an operator, and
  `Tree.IsProper.hasPlainLiterals`: an editor keeps no such literals;
* `Tree.HasPlainLiterals.map_bare_parts` — branches that match are equal below their tops but
  for handles;
* `Edit.rearrange_reproduces` — what a rearrangement comes to.
-/
import FormulaEditor.Proofs.Drawing
import FormulaEditor.Proofs.Mirroring
import FormulaEditor.Proofs.Undoing

namespace FormulaEditor

open Branch

theorem Operator.symbol_inj {operator other : Operator} :
    operator.symbol = other.symbol ↔ operator = other := by
  cases operator <;> cases other <;> decide

namespace Tree

/-- No literal has the name of an operator. -/
def HasPlainLiterals (t : Tree) : Prop :=
  ∀ id node text, t.get? id = some node → node.content = .literal text →
    ∀ operator : Operator, text ≠ operator.symbol

variable {t t' u : Tree} {place place' : Option Handle} {b c r d : Branch}

/-- Where a node stands among its siblings does not matter to its name. -/
theorem Permutes.hasPlainLiterals (h : t.Permutes t') (ht : t.HasPlainLiterals) :
    t'.HasPlainLiterals := by
  intro id node' text hget hcontent
  obtain ⟨node, hnode, hpermutes⟩ := h.symm.get hget
  have hliteral := hpermutes.content
  rw [hcontent] at hliteral
  refine ht id node text hnode ?_
  generalize node.content = content at hliteral
  cases hliteral
  rfl

/-- The trees that an editor keeps are such, since what is drawn of them can be read. -/
theorem IsProper.hasPlainLiterals (h : t.IsProper) : t.HasPlainLiterals := by
  intro id node text hget hcontent operator heq
  have hspells := h.isLegible id node (h.reaches id node hget) hget
  rw [hcontent] at hspells
  have hliteral : Text.isLiteral operator.symbol.toList = true :=
    heq ▸ Grammar.isLiteral_iff.mpr hspells
  revert hliteral
  cases operator <;> decide

namespace HasPlainLiterals

theorem name_ne (ht : t.HasPlainLiterals) (h : t.Holds place b) (hop : b.operator? = none)
    (operator : Operator) : b.name ≠ operator.symbol := by
  cases b with
  | literal id tag text => exact ht id _ text h.get rfl operator
  | compound => cases hop

/-- Nodes of the same name are of the same kind. -/
theorem operator?_eq (ht : t.HasPlainLiterals) (hu : u.HasPlainLiterals) (h : t.Holds place b)
    (h' : u.Holds place' c) (hname : b.name = c.name) : b.operator? = c.operator? := by
  cases b with
  | literal id tag text =>
    cases c with
    | literal => rfl
    | compound _ _ operator _ => exact absurd hname (ht.name_ne h rfl operator)
  | compound id tag operator parts =>
    cases c with
    | literal => exact absurd hname.symm (hu.name_ne h' rfl operator)
    | compound _ _ operator' _ =>
      exact congrArg some (Operator.symbol_inj.mp hname)

/-- Branches that match have parts that are equal but for handles. -/
theorem map_bare_parts (ht : t.HasPlainLiterals) (hu : u.HasPlainLiterals) (hr : t.Holds place r)
    (hd : u.Holds place' d) (h : r.Matches d) : r.parts.map bare = d.parts.map bare := by
  induction h generalizing place place' with
  | @intro r d _ hkeys _ _ ih =>
    have hall : List.Forall₂ (fun part child => child.bare = part.bare) r.parts d.parts := by
      refine List.forall₂_iff_zip.mpr ⟨by simpa using congrArg List.length hkeys, ?_⟩
      intro part child hpair
      obtain ⟨hpart, hchild⟩ := List.of_mem_zip hpair
      have hkey := eq_of_mem_zip hkeys hpair
      have hop := operator?_eq ht hu (hr.part hpart) (hd.part hchild)
        (congrArg ChildKey.name hkey)
      refine (bare_eq_iff.mpr ⟨hkey, hop, ?_⟩).symm
      by_cases hliteral : part.operator? = none
      · -- a literal has no parts, and neither has what it goes with
        rw [parts_of_operator?_eq_none hliteral, parts_of_operator?_eq_none (hop ▸ hliteral)]
      · exact ih part child hpair hliteral (hr.part hpart) (hd.part hchild)
    exact (map_eq_map_of_forall₂ hall).symm

end HasPlainLiterals

end Tree

namespace Edit

/-- A rearrangement that succeeds leaves a subtree that mirrors the one that it was made to
match, except perhaps for the topmost tag.  The shape is the same, the outline and the
layout are so, the nodes are the ones that were there before, with their names, tags and
parents, and outside of the subtree nothing is changed. -/
theorem rearrange_reproduces {t t' u : Tree} (ht : t.IsForest) (hu : u.IsForest)
    (hplain : t.HasPlainLiterals) (hplain' : u.HasPlainLiterals) {id targetId : Handle}
    (hrun : (rearrange id u targetId).run t = .ok () t') :
    t'.MirrorsBelow u id targetId ∧
    (∃ shape, t'.shape id = .ok shape ∧ u.shape targetId = .ok shape) ∧
    (∀ depth, ∃ text, t'.outline id depth = .ok text ∧ u.outline targetId depth = .ok text) ∧
    (∃ glyphs, t'.layout id none = .ok glyphs ∧ u.layout targetId none = .ok glyphs) ∧
    t.Permutes t' ∧
    ∃ ids, t.descendants id = .ok ids ∧ ∀ other ∉ ids, t'.get? other = t.get? other := by
  obtain ⟨node, hget⟩ := Option.isSome_iff_exists.mp (isSome_of_run_rearrange hrun).1
  obtain ⟨b, rfl, hb⟩ := ht.exists_bears hget
  obtain ⟨_, d, r, rfl, hd, hmatches, hreorders⟩ := exists_reorders_of_run_rearrange hb hu hrun
  have hpermutes := (isPermuting_rearrange b.top u d.top).permutes ht hrun
  have hr := hreorders.bears
  have htop : r.top = b.top := hreorders.shuffles.top
  have hname : r.name = d.name := by
    obtain ⟨hname, _⟩ := hmatches
    exact hname
  have hop := (hpermutes.hasPlainLiterals hplain).operator?_eq hplain' hr.holds hd.holds hname
  have hparts := (hpermutes.hasPlainLiterals hplain).map_bare_parts hplain' hr.holds hd.holds
    hmatches
  have hshape : r.shape = d.shape := shape_eq_of_map_bare hname hop hparts
  rw [← htop]
  refine ⟨hr.holds.mirrorsBelow_of_map_bare hd.holds hname hop hparts,
    ⟨_, hr.shape_eq, hshape ▸ hd.shape_eq⟩,
    fun depth => ⟨_, hr.outline_eq depth, hshape ▸ hd.outline_eq depth⟩,
    ⟨_, hr.layout_eq, hshape ▸ hd.layout_eq⟩, hpermutes, b.handles, ?_, hreorders.same.get?⟩
  rw [htop]
  exact hb.descendants_eq

/-- A sum takes the order of another one. -/
theorem rearrange_reproduces_sum : ∃ (t t' u : Tree) (l : List Arrangement),
    parse "a+b" = .ok t ∧ t.arrangements ⟨1⟩ = .ok l ∧ ⟨1, u⟩ ∈ l ∧
    (rearrange t.root u u.root).run t = .ok () t' ∧ t' ≠ t ∧
    t'.MirrorsBelow u t.root u.root ∧
    (∃ shape, t'.shape t.root = .ok shape ∧ u.shape u.root = .ok shape) ∧
    t.Permutes t' := by
  obtain ⟨t, u, hparse, hl, ht, hu⟩ := Tree.exists_sum_swapped
  obtain ⟨t', ht'⟩ : ∃ t' : Tree, t' = ⟨#[some ⟨.compound .add [⟨2⟩, ⟨1⟩], none, ⟨0⟩⟩,
      some ⟨.literal "a", some ⟨0⟩, ⟨1⟩⟩, some ⟨.literal "b", some ⟨0⟩, ⟨2⟩⟩], ⟨0⟩, 3⟩ := ⟨_, rfl⟩
  have hswapped : (⟨1, u⟩ : Arrangement) ∈ [⟨0, t⟩, ⟨1, u⟩] := by simp
  have hproper : t.IsProper := (Tree.Obtained.parse hparse).isProper
  have hproper' : u.IsProper := (Tree.Obtained.arrangement (.parse hparse) hl hswapped).isProper
  have hrun : (rearrange t.root u u.root).run t = .ok () t' := by
    rw [ht, ht', hu]
    cbv
  have hne : t' ≠ t := by
    rw [ht, ht']
    decide
  obtain ⟨hmirrors, hshape, _, _, hpermutes, _⟩ :=
    rearrange_reproduces hproper.toIsForest hproper'.toIsForest hproper.hasPlainLiterals
      hproper'.hasPlainLiterals hrun
  exact ⟨t, t', u, _, hparse, hl, hswapped, hrun, hne, hmirrors, hshape, hpermutes⟩

end Edit

end FormulaEditor
