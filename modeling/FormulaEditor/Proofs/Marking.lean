/-
The marks around the node in focus.

A layout with a focus is the layout without it, but for a pair of marks.  They stand around
the glyphs of the node in focus, if the node is there, and what stands between them is the
layout of that node alone:

* `Operator.exists_glyphs_eq` — the glyphs of an operand stand together;
* `Branch.exists_glyphs_of_within` — the marks enclose the glyphs of the branch in focus;
* `Line.exists_drawTree_focus` — and so do the brackets on a line;
* `Tree.layout_focus` — the same of layouts, and what is drawn between the brackets can be
  parsed.

Design notes: a node has one place among the glyphs since it has one place in the branch, so
most of this needs branches without repeated handles.
-/
import FormulaEditor.Proofs.RoundTrip
import Mathlib

namespace FormulaEditor

open Branch

/-! ### Rows of glyphs -/

/-- One of several lists between separators can be cut out, whatever it is. -/
theorem exists_intercalate_eq {α : Type} (sep : List α) (l l' : List (List α)) :
    ∃ before after, ∀ x, sep.intercalate (l ++ x :: l') = before ++ x ++ after := by
  induction l with
  | nil =>
    cases l' with
    | nil => exact ⟨[], [], by simp⟩
    | cons y l' =>
      refine ⟨[], sep ++ sep.intercalate (y :: l'), fun x => ?_⟩
      rw [List.nil_append, List.intercalate_cons_cons, List.nil_append, List.append_assoc]
  | cons a l ih =>
    obtain ⟨before, after, hrest⟩ := ih
    refine ⟨a ++ sep ++ before, after, fun x => ?_⟩
    -- something follows on `a`, be it `x` or the next one before `x`
    obtain ⟨next, rest, hnext⟩ := List.exists_cons_of_ne_nil
      (List.append_ne_nil_of_right_ne_nil l (List.cons_ne_nil x l'))
    have hrest := hrest x
    rw [List.cons_append, hnext, List.intercalate_cons_cons, ← hnext, hrest]
    simp only [List.append_assoc]

theorem mem_of_mem_intercalate {α : Type} {sep : List α} {l : List (List α)} {a : α}
    (h : a ∈ sep.intercalate l) : a ∈ sep ∨ ∃ x ∈ l, a ∈ x := by
  induction l with
  | nil => exact absurd h (by simp)
  | cons x l ih =>
    cases l with
    | nil =>
      rw [List.intercalate_singleton] at h
      exact .inr ⟨x, List.mem_singleton_self x, h⟩
    | cons y l =>
      rw [List.intercalate_cons_cons, List.mem_append, List.mem_append] at h
      rcases h with (hx | hsep) | hrest
      · exact .inr ⟨x, List.mem_cons_self .., hx⟩
      · exact .inl hsep
      · rcases ih hrest with hsep | ⟨z, hz, ha⟩
        · exact .inl hsep
        · exact .inr ⟨z, List.mem_cons_of_mem _ hz, ha⟩

namespace Operator

/-- The glyphs of one operand stand together, whatever they are. -/
theorem exists_glyphs_eq (operator : Operator) (l l' : List (List Glyph)) :
    ∃ before after, ∀ x, operator.glyphs (l ++ x :: l') = before ++ x ++ after := by
  cases operator with
  | group =>
    refine ⟨.opening :: l.flatten, l'.flatten ++ [.closing], fun x => ?_⟩
    rw [glyphs, List.flatten_append, List.flatten_cons]
    simp only [List.cons_append, List.append_assoc]
  | add => exact exists_intercalate_eq ..
  | mul => exact exists_intercalate_eq ..

/-- An operator adds parentheses or signs to the glyphs of its operands. -/
theorem mem_glyphs {operator : Operator} {parts : List (List Glyph)} {glyph : Glyph}
    (h : glyph ∈ operator.glyphs parts) :
    glyph ∈ [.opening, .closing, .sign operator] ∨ ∃ part ∈ parts, glyph ∈ part := by
  cases operator with
  | group =>
    rw [glyphs, List.cons_append, List.mem_cons, List.mem_append, List.mem_flatten] at h
    rcases h with rfl | ⟨part, hp, hglyph⟩ | hclosing
    · exact .inl (by simp)
    · exact .inr ⟨part, hp, hglyph⟩
    · exact .inl (by simp [List.mem_singleton.mp hclosing])
  | add =>
    rcases mem_of_mem_intercalate h with hsign | hpart
    · exact .inl (by simp [List.mem_singleton.mp hsign])
    · exact .inr hpart
  | mul =>
    rcases mem_of_mem_intercalate h with hsign | hpart
    · exact .inl (by simp [List.mem_singleton.mp hsign])
    · exact .inr hpart

end Operator

namespace Shape

/-- Without a focus there are no marks. -/
theorem notMem_glyphs (shape : Shape) :
    .focusOpening ∉ shape.glyphs ∧ .focusClosing ∉ shape.glyphs := by
  induction shape with
  | literal text =>
    rw [glyphs]
    simp
  | compound operator parts ih =>
    rw [glyphs_compound]
    constructor
    · intro hmem
      rcases Operator.mem_glyphs hmem with hown | ⟨_, hpart, hmem⟩
      · simp at hown
      · obtain ⟨part, hp, rfl⟩ := List.mem_map.mp hpart
        exact (ih part hp).1 hmem
    · intro hmem
      rcases Operator.mem_glyphs hmem with hown | ⟨_, hpart, hmem⟩
      · simp at hown
      · obtain ⟨part, hp, rfl⟩ := List.mem_map.mp hpart
        exact (ih part hp).2 hmem

end Shape

/-! ### Glyphs of a branch -/

namespace Branch

variable {b c : Branch} {focus : Option Handle}

/-- The marks stand around everything if the topmost node has the focus. -/
theorem glyphs_top (hnodup : b.handles.Nodup) :
    b.glyphs (some b.top) = Tree.focused b.shape.glyphs := by
  cases b with
  | literal id tag text =>
    rw [glyphs, marked, top, if_pos rfl, shape, Shape.glyphs]
  | compound id tag operator parts =>
    have hnot : id ∉ parts.flatMap handles := top_notMem_parts hnodup
    have hparts : parts.map (glyphs (some id)) = (parts.map shape).map Shape.glyphs := by
      rw [List.map_map]
      refine List.map_congr_left fun part hp => glyphs_of_notMem fun other hother heq => ?_
      obtain rfl := Option.some_inj.mp heq
      exact hnot (List.mem_flatMap.mpr ⟨part, hp, hother⟩)
    rw [glyphs, marked, top, if_pos rfl, hparts, shape, Shape.glyphs_compound]

/-- The marks enclose the glyphs of the branch whose top has the focus, and the other glyphs
are the same as without a focus. -/
theorem exists_glyphs_of_within (hnodup : b.handles.Nodup) (hc : c.Within b) :
    ∃ before after,
      b.glyphs (some c.top) = before ++ Tree.focused c.shape.glyphs ++ after ∧
      b.shape.glyphs = before ++ c.shape.glyphs ++ after := by
  induction hc with
  | refl => exact ⟨[], [], by simp [glyphs_top hnodup], by simp⟩
  | @part d part hp hc ih =>
    obtain ⟨before, after, hmarked, hplain⟩ :=
      ih (nodup_of_mem (List.nodup_cons.mp (handles_eq d ▸ hnodup)).2 hp)
    cases d with
    | literal => exact absurd hp List.not_mem_nil
    | compound id tag operator parts =>
      obtain ⟨l, l', rfl⟩ : ∃ l l', parts = l ++ part :: l' := List.append_of_mem hp
      have htop : c.top ∈ part.handles := hc.handles_subset c.top_mem_handles
      have hne : some c.top ≠ some id := by
        intro heq
        refine top_notMem_parts hnodup (List.mem_flatMap.mpr ⟨part, hp, ?_⟩)
        exact Option.some_inj.mp heq ▸ htop
      -- the node in focus is in one of the parts only
      have hother : ∀ other ∈ l ++ l', other.glyphs (some c.top) = other.shape.glyphs := by
        have hall : ((part :: (l ++ l')).flatMap handles).Nodup :=
          (List.perm_middle.flatMap_right handles).nodup_iff.mp
            (List.nodup_cons.mp (handles_eq (compound id tag operator _) ▸ hnodup)).2
        intro other ho
        refine glyphs_of_notMem fun id hid heq => ?_
        obtain rfl := Option.some_inj.mp heq
        rw [List.flatMap_cons, List.nodup_append] at hall
        exact hall.2.2 _ htop _ (List.mem_flatMap.mpr ⟨other, ho, hid⟩) rfl
      have hl : l.map (glyphs (some c.top)) = l.map fun other => other.shape.glyphs :=
        List.map_congr_left fun other ho => hother other (List.mem_append_left _ ho)
      have hl' : l'.map (glyphs (some c.top)) = l'.map fun other => other.shape.glyphs :=
        List.map_congr_left fun other ho => hother other (List.mem_append_right _ ho)
      obtain ⟨front, back, heq⟩ := operator.exists_glyphs_eq
        (l.map fun other => other.shape.glyphs) (l'.map fun other => other.shape.glyphs)
      refine ⟨front ++ before, after ++ back, ?_, ?_⟩
      · rw [glyphs, marked, if_neg hne, List.map_append, List.map_cons, hl, hl', heq, hmarked]
        simp only [List.append_assoc]
      · rw [shape, Shape.glyphs_compound, List.map_map, List.map_append, List.map_cons]
        refine (heq _).trans ?_
        rw [Function.comp_apply, hplain]
        simp only [List.append_assoc]

end Branch

/-! ### Lines -/

/-- On the line of a tree with a focus the brackets stand around what the node in focus is
written as. -/
theorem Line.exists_drawTree_focus {t : Tree} {b c : Branch} (hroot : t.root = b.top)
    (h : t.Bears none b) (hc : c.Within b) :
    ∃ before after,
      drawTree t (some c.top)
        = .ok ⟨before ++ "[" ++ String.ofList c.shape.written ++ "]" ++ after⟩ ∧
      String.ofList b.shape.written = before ++ String.ofList c.shape.written ++ after := by
  obtain ⟨before, after, hmarked, hplain⟩ := exists_glyphs_of_within h.nodup hc
  refine ⟨String.ofList (before.flatMap fun glyph => glyph.text.toList),
    String.ofList (after.flatMap fun glyph => glyph.text.toList), ?_, ?_⟩
  · rw [drawTree, hroot, h.layout_focus_eq, hmarked]
    refine congrArg (fun text => Except.ok (Line.mk text)) (String.toList_inj.mp ?_)
    show (blank.drawGlyphs _).text.toList = _
    rw [toList_text_drawGlyphs, Tree.focused]
    simp only [blank, String.toList_empty, List.nil_append, List.flatMap_append,
      List.flatMap_cons, List.flatMap_nil, List.append_nil, Shape.flatMap_text_glyphs,
      String.toList_append, String.toList_ofList, List.append_assoc]
    rfl
  · rw [← String.toList_inj, ← Shape.flatMap_text_glyphs, hplain]
    simp only [List.flatMap_append, Shape.flatMap_text_glyphs, String.toList_append,
      String.toList_ofList]

namespace Tree

/-- The marks of a focus enclose the layout of the node in focus, and nothing else changes
when there is one.  A focus that is not in the subtree leaves no marks.  In a tree that an
editor has obtained, what is drawn between the brackets can be parsed, and is then a tree of
the same shape as the copy of the node in focus. -/
theorem layout_focus :
    (∀ (t : Tree) (id : Handle), t.IsForest → (t.get? id).isSome = true →
      ∃ ids, t.descendants id = .ok ids ∧
        (∀ focus ∈ ids, ∃ before glyphs after : List Glyph,
          t.layout id (some focus)
            = .ok (before ++ [.focusOpening] ++ glyphs ++ [.focusClosing] ++ after) ∧
          t.layout id none = .ok (before ++ glyphs ++ after) ∧
          t.layout focus none = .ok glyphs ∧
          .focusOpening ∉ glyphs ∧ .focusClosing ∉ glyphs) ∧
        ∀ focus ∉ ids, ∃ glyphs, t.layout id (some focus) = .ok glyphs ∧
          t.layout id none = .ok glyphs) ∧
    (∀ (t : Tree) (focus : Handle), t.Obtained → (t.get? focus).isSome = true →
      ∃ (before inside after : String) (parsed copy : Tree) (shape : Shape),
        Line.drawTree t (some focus) = .ok ⟨before ++ "[" ++ inside ++ "]" ++ after⟩ ∧
        (∀ bracket ∈ ['[', ']'], bracket ∉ (before ++ inside ++ after).toList) ∧
        parse inside = .ok parsed ∧ t.copyOf focus = .ok copy ∧
        parsed.shape parsed.root = .ok shape ∧ copy.shape copy.root = .ok shape) := by
  constructor
  · intro t id ht hid
    obtain ⟨node, hget⟩ := Option.isSome_iff_exists.mp hid
    obtain ⟨b, rfl, hb⟩ := ht.exists_bears hget
    refine ⟨b.handles, hb.descendants_eq, ?_, ?_⟩
    · intro focus hfocus
      obtain ⟨c, _, hc, hbears, rfl⟩ := hb.exists_within hfocus
      obtain ⟨before, after, hmarked, hplain⟩ := exists_glyphs_of_within hb.nodup hc
      refine ⟨before, c.shape.glyphs, after, ?_, ?_, hbears.layout_eq, c.shape.notMem_glyphs⟩
      · rw [hb.layout_focus_eq, hmarked, focused]
        simp only [List.cons_append, List.nil_append, List.append_assoc]
      · rw [hb.layout_eq, hplain]
    · intro focus hfocus
      refine ⟨b.shape.glyphs, ?_, hb.layout_eq⟩
      rw [hb.layout_focus_eq, glyphs_of_notMem]
      rintro other hother heq
      exact hfocus (Option.some_inj.mp heq ▸ hother)
  · intro t focus ht hfocus
    obtain ⟨b, hwhole, hn⟩ := ht.isProper.exists_isWhole
    obtain ⟨c, _, hc, hbears, rfl⟩ := hwhole.bears.exists_within (hwhole.mem focus hfocus)
    obtain ⟨before, after, hline, hplain⟩ :=
      Line.exists_drawTree_focus hwhole.root hwhole.bears hc
    have hnormal := isNormal_of_within hc hn
    obtain ⟨parsed, hparse, hparsed⟩ := exists_parse_written hnormal.isWritable
    obtain ⟨copy, hcopy, hiscopy⟩ := exists_copyOf hbears
    refine ⟨before, _, after, parsed, copy, c.shape, hline, ?_, hparse, hcopy, ?_,
      hiscopy.shape_eq⟩
    · -- without the marks the line is a formula, and there are no brackets in one
      intro bracket hbracket
      obtain ⟨terms, hterms, _⟩ := hn.isWritable.isFormula
      rw [← hplain, String.toList_ofList]
      revert bracket
      simp only [List.forall_mem_cons]
      exact ⟨hterms.notMem (by decide) (by decide), hterms.notMem (by decide) (by decide),
        fun _ h => absurd h List.not_mem_nil⟩
    · rw [hparsed, hnormal.flat]

/-- The product of a sum is in focus. -/
theorem layout_focus_sum : ∃ (t : Tree) (before glyphs after : List Glyph)
    (left inside right : String) (parsed copy : Tree) (shape : Shape),
    parse "a+b*c" = .ok t ∧ t.layout t.root (some ⟨2⟩)
      = .ok (before ++ [.focusOpening] ++ glyphs ++ [.focusClosing] ++ after) ∧
    t.layout t.root none = .ok (before ++ glyphs ++ after) ∧ t.layout ⟨2⟩ none = .ok glyphs ∧
    .focusOpening ∉ glyphs ∧ .focusClosing ∉ glyphs ∧
    Line.drawTree t (some ⟨2⟩) = .ok ⟨left ++ "[" ++ inside ++ "]" ++ right⟩ ∧
    Line.drawTree t (some ⟨2⟩) = .ok ⟨"a+[b*c]"⟩ ∧ parse inside = .ok parsed ∧
    t.copyOf ⟨2⟩ = .ok copy ∧ parsed.shape parsed.root = .ok shape ∧
    copy.shape copy.root = .ok shape := by
  obtain ⟨t, hparse, ht⟩ := exists_sum_product
  have hline : Line.drawTree t (some ⟨2⟩) = .ok ⟨"a+[b*c]"⟩ := by
    rw [ht]
    cbv
  have hids : t.descendants t.root = .ok [⟨0⟩, ⟨1⟩, ⟨2⟩, ⟨3⟩, ⟨4⟩] := by
    rw [ht]
    cbv
  have hroot : (t.get? t.root).isSome = true := by
    rw [ht]
    rfl
  have hproduct : (t.get? ⟨2⟩).isSome = true := by
    rw [ht]
    rfl
  have hobtained : t.Obtained := .parse hparse
  obtain ⟨ids, hids', hmarked, _⟩ :=
    layout_focus.1 t t.root hobtained.isProper.toIsForest hroot
  rw [hids, Except.ok.injEq] at hids'
  obtain ⟨before, glyphs, after, hfocus, hplain, hinner, hopening, hclosing⟩ :=
    hmarked ⟨2⟩ (hids' ▸ by simp)
  obtain ⟨left, inside, right, parsed, copy, shape, hdraw, _, hinside, hcopy, hparsed, hshape⟩ :=
    layout_focus.2 t ⟨2⟩ hobtained hproduct
  exact ⟨t, before, glyphs, after, left, inside, right, parsed, copy, shape, hparse, hfocus,
    hplain, hinner, hopening, hclosing, hdraw, hline, hinside, hcopy, hparsed, hshape⟩

end Tree

end FormulaEditor
