/-
What attaching does to a forest.

A node is attached if it is a top and not the root, and if the new parent is a compound
that does not stand below it.  The two of them get a link and nothing else changes, so
a forest stays a forest (`Tree.Attaches.isForest`).  In every other case the store is
left as it is (`Edit.attach_cases`).
-/
import FormulaEditor.Proofs.Edit
import FormulaEditor.Proofs.Forest

namespace FormulaEditor

namespace Tree

/-- In the second store a top has become the last child of a compound that does not
stand below it. -/
structure Attaches (t t' : Tree) (parent child : Handle) : Prop where
  same : t.SameExcept t' [parent, child]
  parent_get : ∃ operator siblings up tag,
    t.get? parent = some ⟨.compound operator siblings, up, tag⟩ ∧
    t'.get? parent = some ⟨.compound operator (siblings ++ [child]), up, tag⟩
  child_get : ∃ node, t.get? child = some node ∧ node.parent = none ∧
    t'.get? child = some (node.withParent (some parent))
  ne_root : child ≠ t.root
  above : ∃ way, t.Climbs parent way ∧ child ∉ way

namespace Attaches

variable {t t' : Tree} {parent child id up : Handle}

theorem not_hasParent (h : t.Attaches t' parent child) : ¬ t.HasParent child up := by
  rintro ⟨node, hget, hup⟩
  obtain ⟨found, hfound, hnone, _⟩ := h.child_get
  rw [hget, Option.some_inj] at hfound
  rw [hfound, hnone] at hup
  exact absurd hup (by simp)

theorem get? (h : t.Attaches t' parent child) (hparent : id ≠ parent) (hchild : id ≠ child) :
    t'.get? id = t.get? id :=
  h.same.get? id (by simp [hparent, hchild])

/-- The nodes are those from before, and only the new parent has got a child. -/
theorem exists_get (h : t.Attaches t' parent child) {node' : Node}
    (hget : t'.get? id = some node') :
    ∃ node, t.get? id = some node ∧ (node'.children = node.children ∨
      (id = parent ∧ node'.children = node.children ++ [child])) := by
  by_cases hid : id = parent
  · obtain ⟨operator, siblings, above, tag, hparent, hparent'⟩ := h.parent_get
    rw [hid, hparent', Option.some_inj] at hget
    exact ⟨_, hid ▸ hparent, .inr ⟨hid, by rw [← hget]; rfl⟩⟩
  · by_cases hidc : id = child
    · obtain ⟨found, hfound, _, hfound'⟩ := h.child_get
      rw [hidc, hfound', Option.some_inj] at hget
      exact ⟨found, hidc ▸ hfound, .inl (by rw [← hget]; rfl)⟩
    · exact ⟨node', (h.get? hid hidc).symm.trans hget, .inl rfl⟩

/-- The new link, from above. -/
theorem lists_iff (h : t.Attaches t' parent child) :
    t'.Lists up id ↔ t.Lists up id ∨ (up = parent ∧ id = child) := by
  obtain ⟨operator, siblings, above, tag, hget, hget'⟩ := h.parent_get
  obtain ⟨node, hchild, _, hchild'⟩ := h.child_get
  by_cases hup : up = parent
  · subst hup
    simp [Lists, hget, hget', Node.children, Content.children]
  · by_cases hupc : up = child
    · subst hupc
      simp [Lists, hchild, hchild', hup, Node.children, Node.withParent]
    · simp [Lists, h.get? hup hupc, hup]

/-- The new link, from below. -/
theorem hasParent_iff (h : t.Attaches t' parent child) :
    t'.HasParent id up ↔ t.HasParent id up ∨ (up = parent ∧ id = child) := by
  obtain ⟨operator, siblings, above, tag, hget, hget'⟩ := h.parent_get
  obtain ⟨node, hchild, hnone, hchild'⟩ := h.child_get
  by_cases hid : id = child
  · subst hid
    simp [HasParent, hchild, hchild', hnone, Node.withParent, eq_comm]
  · by_cases hidp : id = parent
    · subst hidp
      simp [HasParent, hget, hget', hid]
    · simp [HasParent, h.get? hidp hid, hid]

/-- What does not stand below the child leads up as before. -/
theorem ascends_of_notMem (h : t.Attaches t' parent child) {way : List Handle}
    (hway : t.Climbs id way) (hnot : child ∉ way) : t'.Ascends id := by
  induction hway with
  | @top id node hget hparent =>
    rw [List.mem_singleton] at hnot
    by_cases hid : id = parent
    · subst hid
      obtain ⟨operator, siblings, above, tag, hget₁, hget'⟩ := h.parent_get
      rw [hget₁, Option.some_inj] at hget
      exact .top hget' (by rw [← hget] at hparent; exact hparent)
    · exact .top ((h.get? hid (Ne.symm hnot)).trans hget) hparent
  | step hparent _ ih =>
    rw [List.mem_cons, not_or] at hnot
    exact .step (h.hasParent_iff.mpr (.inl hparent)) (ih hnot.2)

/-- What stands below the child now leads up through the new parent. -/
theorem ascends (h : t.Attaches t' parent child) (hid : t.Ascends id) : t'.Ascends id := by
  induction hid with
  | @top id node hget hparent =>
    by_cases hidc : id = child
    · obtain ⟨way, hway, hnot⟩ := h.above
      exact .step (h.hasParent_iff.mpr (.inr ⟨rfl, hidc⟩)) (h.ascends_of_notMem hway hnot)
    · refine h.ascends_of_notMem (.top hget hparent) ?_
      rw [List.mem_singleton]
      exact Ne.symm hidc
  | step hparent _ ih => exact .step (h.hasParent_iff.mpr (.inl hparent)) ih

theorem isForest (h : t.Attaches t' parent child) (hforest : t.IsForest) : t'.IsForest where
  lists_iff := by
    intro up id
    rw [h.lists_iff, h.hasParent_iff, hforest.lists_iff]
  nodup hget := by
    obtain ⟨node, hnode, heq | ⟨rfl, heq⟩⟩ := h.exists_get hget
    · exact heq ▸ hforest.nodup hnode
    · -- the child was not listed before, since it had no parent
      rw [heq, ← List.concat_eq_append]
      refine (hforest.nodup hnode).concat ?_
      exact fun hmem => h.not_hasParent (hforest.lists_iff.mp ⟨node, hnode, hmem⟩)
  ascends hget := by
    obtain ⟨node, hnode, _⟩ := h.exists_get hget
    exact h.ascends (hforest.ascends hnode)

end Attaches

end Tree

namespace Edit

variable {t : Tree} {parent child : Handle} {operator : Operator} {siblings : List Handle}
  {up : Option Handle} {tag : Tag} {found : Node}

/-- Attaching a top to a compound, in a forest. -/
theorem attach_compound_cases (h : t.IsForest)
    (hparent : t.get? parent = some ⟨.compound operator siblings, up, tag⟩)
    (hchild : t.get? child = some found) :
    (∃ t', (attach parent child).run t = .ok () t' ∧ t.Attaches t' parent child) ∨
    (attach parent child).run t = .error .alreadyAttached t := by
  obtain ⟨way, hway⟩ := (h.ascends hparent).climbs
  by_cases hplace : found.parent.isSome ∨ child = t.root
  · refine .inr ?_
    rw [attach, run_bind_ok (run_node hparent)]
    show (_ >>= _ : Edit Unit).run t = _
    rw [run_bind_ok (run_node hchild), run_bind_ok run_get, if_pos (by simpa using hplace)]
    rfl
  · rw [not_or, Option.not_isSome_iff_eq_none] at hplace
    by_cases hmem : child ∈ way
    · refine .inr ?_
      rw [attach, run_bind_ok (run_node hparent)]
      show (_ >>= _ : Edit Unit).run t = _
      rw [run_bind_ok (run_node hchild), run_bind_ok run_get, if_neg (by simp [hplace]),
        run_bind_ok (run_ask (s := t) (hway.isAbove_eq child)), if_pos (decide_eq_true hmem)]
      rfl
    · have hne : child ≠ parent := by
        rintro rfl
        exact hmem hway.mem
      have hput := Tree.SameExcept.put t parent
        (some ⟨.compound operator (siblings ++ [child]), up, tag⟩)
      have habove := (hway.isAbove_eq child).trans (congrArg _ (decide_eq_false hmem))
      refine .inl ⟨_, run_attach hparent hchild hplace.1 hplace.2 habove hne, ?_,
        ⟨operator, siblings, up, tag, hparent, ?_⟩, ⟨found, hchild, hplace.1, ?_⟩, hplace.2, way,
        hway, hmem⟩
      · exact (hput.mono (by simp)).trans ((Tree.SameExcept.put _ child _).mono (by simp))
      · rw [Tree.get?_put_ne _ _ hne.symm, Tree.get?_put_self _ (Tree.lt_size_of_get? hparent)]
      · refine Tree.get?_put_self _ ?_
        rw [hput.size]
        exact Tree.lt_size_of_get? hchild

/-- A node is attached, or the store stays as it is.  With live handles the latter is a
refusal. -/
theorem attach_cases (h : t.IsForest) (parent child : Handle) :
    (∃ t', (attach parent child).run t = .ok () t' ∧ t.Attaches t' parent child) ∨
    ∃ e, (attach parent child).run t = .error e t ∧
      ((t.get? parent).isSome = true → (t.get? child).isSome = true → e.isFault = false) := by
  cases hparent : t.get? parent with
  | none =>
    exact .inr ⟨.deadHandle, run_bind_error (run_node_error hparent), by simp⟩
  | some node =>
    obtain ⟨content, up, tag⟩ := node
    cases content with
    | literal text =>
      refine .inr ⟨.childOfLiteral, ?_, fun _ _ => rfl⟩
      rw [attach, run_bind_ok (run_node hparent)]
      rfl
    | compound operator siblings =>
      cases hchild : t.get? child with
      | none =>
        refine .inr ⟨.deadHandle, ?_, by simp⟩
        rw [attach, run_bind_ok (run_node hparent)]
        exact run_bind_error (run_node_error hchild)
      | some found =>
        rcases attach_compound_cases h hparent hchild with hok | hrefused
        · exact .inl hok
        · exact .inr ⟨_, hrefused, fun _ _ => rfl⟩

end Edit

end FormulaEditor
