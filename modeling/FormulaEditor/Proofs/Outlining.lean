/-
What an outline tells of a tree.

An outline has one line for each node, in order, and says of each node how deep it stands and
what its name is.  As long as no literal can be mistaken, for an operator or for a piece of
another line, that is all there is to know about a shape: what stands below a node are the lines
that follow its own up to the next one that is not deeper.

* `Shape.lines` — the depths and names of the nodes, and `Shape.toList_outline` — the outline
  is written with them;
* `Shape.eq_of_lines` — depths and names make up one shape only;
* `OutlineLine.eq_of_written`, `OutlineLine.splitOn_flatMap_written` — lines can be read again;
* `Tree.Holds.forall₂_lines` — the nodes of a branch and their lines;
* `Tree.outline_identifies` — an outline lists the nodes, and tells shapes apart.
-/
import FormulaEditor.Proofs.Locating
import FormulaEditor.Proofs.Reproducing
import Mathlib

namespace FormulaEditor

/-! ### Lines -/

/-- A literal that is neither taken for an operator nor for a piece of an outline. -/
structure IsPlainText (text : String) : Prop where
  tab_notMem : '\t' ∉ text.toList
  newline_notMem : '\n' ∉ text.toList
  ne_symbol : ∀ operator : Operator, text ≠ operator.symbol

theorem Operator.notMem_symbol (operator : Operator) :
    '\t' ∉ operator.symbol.toList ∧ '\n' ∉ operator.symbol.toList := by
  cases operator <;> decide

/-- The name of a node, at a depth. -/
structure OutlineLine where
  depth : ℕ
  name : String

namespace OutlineLine

/-- The line as it is written, without the end of it. -/
def written (line : OutlineLine) : List Char :=
  List.replicate line.depth '\t' ++ line.name.toList

/-- The tabs and the end of the line cannot be taken for a part of the name. -/
structure IsPlain (line : OutlineLine) : Prop where
  tab_notMem : '\t' ∉ line.name.toList
  newline_notMem : '\n' ∉ line.name.toList

theorem toList_pushn_tab (depth : ℕ) :
    ("".pushn '\t' depth).toList = List.replicate depth '\t' := by
  rw [String.pushn]
  induction depth with
  | zero => rfl
  | succ depth ih => rw [Nat.repeat, String.toList_push, ih, List.replicate_succ']

theorem toList_append_newline (line : OutlineLine) :
    ("".pushn '\t' line.depth ++ line.name ++ "\n").toList = line.written ++ ['\n'] := by
  rw [String.toList_append, String.toList_append, toList_pushn_tab, written]
  rfl

theorem IsPlain.newline_notMem_written {line : OutlineLine} (h : line.IsPlain) :
    '\n' ∉ line.written := by
  rw [written, List.mem_append]
  rintro (htab | hname)
  · exact absurd (List.eq_of_mem_replicate htab) (by decide)
  · exact h.newline_notMem hname

theorem IsPlain.count_tab_written {line : OutlineLine} (h : line.IsPlain) :
    line.written.count '\t' = line.depth := by
  rw [written, List.count_append, List.count_replicate_self, List.count_eq_zero.mpr h.tab_notMem,
    Nat.add_zero]

/-- A line can be read again. -/
theorem eq_of_written {line line' : OutlineLine} (h : line.IsPlain) (h' : line'.IsPlain)
    (heq : line.written = line'.written) : line = line' := by
  have hdepth : line.depth = line'.depth := by
    rw [← h.count_tab_written, heq, h'.count_tab_written]
  have hname : line.name = line'.name := by
    rw [written, written, hdepth] at heq
    exact String.toList_inj.mp (List.append_cancel_left heq)
  cases line
  cases line'
  exact congrArg₂ mk hdepth hname

/-- Lines that are written one below the other can be told apart. -/
theorem splitOn_flatMap_written {lines : List OutlineLine} (h : ∀ line ∈ lines, line.IsPlain) :
    (lines.flatMap fun line => line.written ++ ['\n']).splitOn '\n'
      = lines.map written ++ [[]] := by
  induction lines with
  | nil => rw [List.flatMap_nil, List.splitOn_nil, List.map_nil, List.nil_append]
  | cons line lines ih =>
    have hnone : ∀ c ∈ line.written, (c == '\n') = false := by
      intro c hc
      rw [beq_eq_false_iff_ne]
      rintro rfl
      exact (h line (List.mem_cons_self ..)).newline_notMem_written hc
    have hrest := ih fun line hline => h line (List.mem_cons_of_mem _ hline)
    rw [List.splitOn_eq_splitOnP] at hrest ⊢
    rw [List.flatMap_cons, List.append_assoc, List.singleton_append,
      List.splitOnP_append_cons_of_forall_mem hnone '\n' (by rfl), hrest, List.map_cons,
      List.cons_append]

end OutlineLine

/-! ### Shapes -/

namespace Shape

/-- The depths and names of the nodes of a shape, the topmost at some depth. -/
def lines : Shape → ℕ → List OutlineLine
  | literal text => fun depth => [⟨depth, text⟩]
  | compound operator parts => fun depth =>
    ⟨depth, operator.symbol⟩ :: (parts.map lines).flatMap (· (depth + 1))

theorem lines_compound (operator : Operator) (parts : List Shape) (depth : ℕ) :
    (compound operator parts).lines depth
      = ⟨depth, operator.symbol⟩ :: parts.flatMap fun part => part.lines (depth + 1) := by
  simp only [lines, List.flatMap_map]

/-- An outline is written line by line. -/
theorem toList_outline (shape : Shape) (depth : ℕ) : (shape.outline depth).toList
    = (shape.lines depth).flatMap fun line => line.written ++ ['\n'] := by
  induction shape generalizing depth with
  | literal text =>
    simp only [outline, lines, List.flatMap_singleton]
    exact OutlineLine.toList_append_newline ⟨depth, text⟩
  | compound operator parts ih =>
    have hparts : (String.join ((parts.map outline).map (· (depth + 1)))).toList
        = (parts.flatMap fun part => part.lines (depth + 1)).flatMap
          fun line => line.written ++ ['\n'] := by
      rw [String.toList_join, List.map_map, List.flatMap_map, List.flatMap_assoc]
      exact List.flatMap_congr fun part hp => ih part hp (depth + 1)
    rw [outline, lines_compound, List.flatMap_cons, String.toList_append, hparts]
    exact congrArg (· ++ _) (OutlineLine.toList_append_newline ⟨depth, operator.symbol⟩)

/-- All literals have plain texts. -/
inductive IsPlain : Shape → Prop
  | literal {text : String} : IsPlainText text → IsPlain (literal text)
  | compound {operator : Operator} {parts : List Shape} : (∀ part ∈ parts, IsPlain part) →
      IsPlain (compound operator parts)

theorem IsPlain.isPlain_of_mem_lines {shape : Shape} (h : shape.IsPlain) {depth : ℕ}
    {line : OutlineLine} (hline : line ∈ shape.lines depth) : line.IsPlain := by
  induction h generalizing depth with
  | literal htext =>
    rw [lines, List.mem_singleton] at hline
    subst hline
    exact ⟨htext.tab_notMem, htext.newline_notMem⟩
  | @compound operator parts _ ih =>
    rw [lines_compound, List.mem_cons, List.mem_flatMap] at hline
    rcases hline with rfl | ⟨part, hp, hline⟩
    · exact ⟨operator.notMem_symbol.1, operator.notMem_symbol.2⟩
    · exact ih part hp hline

/-- The first one of some lines, if there are any, is less deep than this. -/
def EndsAbove (depth : ℕ) (rest : List OutlineLine) : Prop :=
  ∀ line ∈ rest.head?, line.depth < depth

theorem exists_lines_eq_cons (shape : Shape) (depth : ℕ) :
    ∃ (name : String) (below : List OutlineLine), shape.lines depth = ⟨depth, name⟩ :: below := by
  cases shape with
  | literal text => exact ⟨text, [], by rw [lines]⟩
  | compound operator parts => exact ⟨operator.symbol, _, lines_compound operator parts depth⟩

theorem not_endsAbove_lines (shape : Shape) (depth : ℕ) (rest : List OutlineLine) :
    ¬ EndsAbove depth (shape.lines depth ++ rest) := by
  obtain ⟨name, below, hlines⟩ := shape.exists_lines_eq_cons depth
  rw [hlines]
  intro h
  exact absurd (h ⟨depth, name⟩ (by simp)) (lt_irrefl depth)

/-- Next to a shape there is another one, or the end of all the shapes at this depth. -/
theorem endsAbove_flatMap_lines {depth : ℕ} {rest : List OutlineLine} (h : EndsAbove depth rest)
    (parts : List Shape) :
    EndsAbove (depth + 1) ((parts.flatMap fun part => part.lines depth) ++ rest) := by
  cases parts with
  | nil => exact fun line hline => Nat.lt_succ_of_lt (h line hline)
  | cons part parts =>
    obtain ⟨name, below, hlines⟩ := part.exists_lines_eq_cons depth
    rw [List.flatMap_cons, hlines]
    intro line hline
    obtain rfl : ⟨depth, name⟩ = line := by simpa using hline
    exact Nat.lt_succ_self depth

/-- The lines of a shape determine it, also among others, if nothing follows that is deeper than
its top. -/
def IsDetermined (shape : Shape) (depth : ℕ) : Prop :=
  ∀ (shape' : Shape) (rest rest' : List OutlineLine), shape'.IsPlain →
    EndsAbove (depth + 1) rest → EndsAbove (depth + 1) rest' →
    shape.lines depth ++ rest = shape'.lines depth ++ rest' → shape = shape' ∧ rest = rest'

/-- If the lines of each shape determine it, so do those of several ones. -/
theorem eq_of_flatMap_lines {parts parts' : List Shape} {depth : ℕ}
    {rest rest' : List OutlineLine} (h : ∀ part ∈ parts, part.IsDetermined depth)
    (h' : ∀ part ∈ parts', part.IsPlain) (hrest : EndsAbove depth rest)
    (hrest' : EndsAbove depth rest')
    (heq : (parts.flatMap fun part => part.lines depth) ++ rest
      = (parts'.flatMap fun part => part.lines depth) ++ rest') :
    parts = parts' ∧ rest = rest' := by
  induction parts generalizing parts' with
  | nil =>
    cases parts' with
    | nil => exact ⟨rfl, heq⟩
    | cons part' parts' =>
      -- what follows would start at the depth of one more shape
      rw [List.flatMap_nil, List.nil_append, List.flatMap_cons, List.append_assoc] at heq
      exact absurd (heq ▸ hrest) (part'.not_endsAbove_lines depth _)
  | cons part parts ih =>
    cases parts' with
    | nil =>
      rw [List.flatMap_nil, List.nil_append, List.flatMap_cons, List.append_assoc] at heq
      exact absurd (heq ▸ hrest') (part.not_endsAbove_lines depth _)
    | cons part' parts' =>
      rw [List.flatMap_cons, List.flatMap_cons, List.append_assoc, List.append_assoc] at heq
      obtain ⟨rfl, hlater⟩ := h part (List.mem_cons_self ..) _ _ _
        (h' part' (List.mem_cons_self ..)) (endsAbove_flatMap_lines hrest parts)
        (endsAbove_flatMap_lines hrest' parts') heq
      obtain ⟨rfl, rfl⟩ := ih (fun part hp => h part (List.mem_cons_of_mem _ hp))
        (fun part hp => h' part (List.mem_cons_of_mem _ hp)) hlater
      exact ⟨rfl, rfl⟩

/-- What stands below a node are the lines up to the next one that is not deeper. -/
theorem IsPlain.isDetermined {shape : Shape} (h : shape.IsPlain) (depth : ℕ) :
    shape.IsDetermined depth := by
  induction h generalizing depth with
  | @literal text htext =>
    intro shape' rest rest' h' _ _ heq
    cases h' with
    | @literal text' _ =>
      rw [lines, lines, List.singleton_append, List.singleton_append, List.cons.injEq,
        OutlineLine.mk.injEq] at heq
      obtain ⟨⟨-, rfl⟩, rfl⟩ := heq
      exact ⟨rfl, rfl⟩
    | @compound operator' parts' _ =>
      rw [lines, lines_compound, List.singleton_append, List.cons_append, List.cons.injEq,
        OutlineLine.mk.injEq] at heq
      exact absurd heq.1.2 (htext.ne_symbol operator')
  | @compound operator parts _ ih =>
    intro shape' rest rest' h' hrest hrest' heq
    cases h' with
    | @literal text' htext' =>
      rw [lines, lines_compound, List.singleton_append, List.cons_append, List.cons.injEq,
        OutlineLine.mk.injEq] at heq
      exact absurd heq.1.2.symm (htext'.ne_symbol operator)
    | @compound operator' parts' hparts' =>
      rw [lines_compound, lines_compound, List.cons_append, List.cons_append, List.cons.injEq,
        OutlineLine.mk.injEq, Operator.symbol_inj] at heq
      obtain ⟨⟨-, rfl⟩, heq⟩ := heq
      obtain ⟨rfl, rfl⟩ :=
        eq_of_flatMap_lines (fun part hp => ih part hp (depth + 1)) hparts' hrest hrest' heq
      exact ⟨rfl, rfl⟩

/-- Depths and names make up one shape only. -/
theorem eq_of_lines {shape shape' : Shape} (h : shape.IsPlain) (h' : shape'.IsPlain) {depth : ℕ}
    (heq : shape.lines depth = shape'.lines depth) : shape = shape' := by
  have hnil : EndsAbove (depth + 1) [] := by simp [EndsAbove]
  refine (h.isDetermined depth shape' [] [] h' hnil hnil ?_).1
  rw [List.append_nil, List.append_nil, heq]

/-- The lines of an outline, and the nothing that follows the last one. -/
theorem IsPlain.splitOn_outline {shape : Shape} (h : shape.IsPlain) (depth : ℕ) :
    (shape.outline depth).toList.splitOn '\n'
      = (shape.lines depth).map OutlineLine.written ++ [[]] := by
  rw [toList_outline]
  exact OutlineLine.splitOn_flatMap_written fun line hline => h.isPlain_of_mem_lines hline

/-- An outline tells the shape. -/
theorem outline_inj {shape shape' : Shape} (h : shape.IsPlain) (h' : shape'.IsPlain) {depth : ℕ} :
    shape.outline depth = shape'.outline depth ↔ shape = shape' := by
  constructor
  · intro heq
    have hwritten : (shape.lines depth).map OutlineLine.written
        = (shape'.lines depth).map OutlineLine.written := by
      have hsplit := h.splitOn_outline depth
      rw [heq, h'.splitOn_outline depth] at hsplit
      exact (List.append_cancel_right hsplit).symm
    have hlines := eq_of_map_eq hwritten fun line hline line' hline' =>
      OutlineLine.eq_of_written (h.isPlain_of_mem_lines hline) (h'.isPlain_of_mem_lines hline')
    exact eq_of_lines h h' hlines
  · rintro rfl
    rfl

end Shape

-- a literal that is named like an operator is taken for one
example : (Shape.literal "+").outline 0 = (Shape.compound .add []).outline 0 := by cbv

/-! ### Nodes -/

theorem Branch.lines_shape (parent : Option Handle) (b : Branch) (depth : ℕ) :
    b.shape.lines depth = ⟨depth, (b.node parent).name⟩
      :: b.parts.flatMap fun part => part.shape.lines (depth + 1) := by
  cases b with
  | literal id tag text =>
    rw [shape, Shape.lines, parts, List.flatMap_nil]
    rfl
  | compound id tag operator parts =>
    rw [shape, Shape.lines_compound, List.flatMap_map, Branch.parts]
    rfl

namespace Tree

/-- No literal is named like an operator, or with something that separates names. -/
structure HasPlainTexts (t : Tree) : Prop where
  hasPlainLiterals : t.HasPlainLiterals
  tab_notMem : ∀ id node text, t.get? id = some node → node.content = .literal text →
    '\t' ∉ text.toList
  newline_notMem : ∀ id node text, t.get? id = some node → node.content = .literal text →
    '\n' ∉ text.toList

/-- The trees that an editor keeps are such. -/
theorem IsProper.hasPlainTexts {t : Tree} (h : t.IsProper) : t.HasPlainTexts := by
  have hliteral (id node text) (hget : t.get? id = some node)
      (hcontent : node.content = .literal text) : Grammar.IsLiteral text.toList := by
    have hspells := h.isLegible id node (h.reaches id node hget) hget
    rwa [hcontent] at hspells
  refine ⟨h.hasPlainLiterals, fun id node text hget hcontent htab => ?_,
    fun id node text hget hcontent hnewline => ?_⟩
  · exact absurd ((hliteral id node text hget hcontent).bounds htab) (by decide)
  · exact absurd ((hliteral id node text hget hcontent).bounds hnewline) (by decide)

theorem Holds.isPlain_shape {t : Tree} {parent : Option Handle} {b : Branch}
    (h : t.Holds parent b) (ht : t.HasPlainTexts) : b.shape.IsPlain := by
  induction h with
  | @intro parent b hget _ ih =>
    cases b with
    | literal id tag text =>
      rw [Branch.shape]
      exact .literal ⟨ht.tab_notMem id _ text hget rfl, ht.newline_notMem id _ text hget rfl,
        ht.hasPlainLiterals id _ text hget rfl⟩
    | compound id tag operator parts =>
      rw [Branch.shape]
      refine .compound fun shape hshape => ?_
      obtain ⟨part, hp, rfl⟩ := List.mem_map.mp hshape
      exact ih part hp

/-- Each node of a branch has its line, as much deeper as it is further down. -/
theorem Holds.forall₂_lines {t : Tree} {parent : Option Handle} {b : Branch}
    {above : List Handle} (h : t.Holds parent b) (hway : t.Climbs b.top (b.top :: above))
    (depth : ℕ) :
    List.Forall₂ (fun id line => ∃ (node : Node) (below : List Handle), t.get? id = some node ∧
      t.Climbs id (below ++ b.top :: above) ∧ line = ⟨depth + below.length, node.name⟩)
      b.handles (b.shape.lines depth) := by
  induction h generalizing above depth with
  | @intro parent b hget hparts ih =>
    rw [Branch.handles_eq, Branch.lines_shape parent]
    refine .cons ⟨_, [], hget, hway, rfl⟩ ?_
    refine List.rel_flatMap (R := fun part other => part = other ∧ part ∈ b.parts) ?_ ?_
    · exact List.forall₂_same.mpr fun part hp => ⟨rfl, hp⟩
    · rintro part _ ⟨rfl, hp⟩
      have hstep : t.Climbs part.top (part.top :: b.top :: above) :=
        .step ⟨_, (hparts part hp).get, Branch.parent_node _ _⟩ hway
      refine (ih part hp hstep (depth + 1)).imp ?_
      rintro id line ⟨node, below, hget, hclimbs, rfl⟩
      refine ⟨node, below ++ [part.top], hget, ?_, ?_⟩
      · rwa [List.append_assoc, List.singleton_append]
      · rw [List.length_append, List.length_singleton, Nat.add_assoc, Nat.add_comm 1]

/-- An outline identifies what it is the outline of, as long as no literal can be taken for an
operator or for a piece of a line.  It has one line for each node, in the order in which the
nodes are visited, with as many more tabs as the node is further down; and outlines are the same
exactly if the shapes are. -/
theorem outline_identifies :
    (∀ (t : Tree) (id : Handle) (depth : ℕ), t.IsForest → t.HasPlainTexts →
      (t.get? id).isSome = true →
      ∃ (ids : List Handle) (text : String) (lines : List (List Char)),
        t.descendants id = .ok ids ∧ t.walk id = .ok ids ∧ t.outline id depth = .ok text ∧
        text.toList.splitOn '\n' = lines ++ [[]] ∧
        List.Forall₂ (fun other line => ∃ (node : Node) (above : List Handle) (below : ℕ),
          t.get? other = some node ∧ t.ancestors other = .ok above ∧ above[below]? = some id ∧
          line = List.replicate (depth + below) '\t' ++ node.name.toList) ids lines) ∧
    (∀ (t t' : Tree) (id id' : Handle) (depth : ℕ), t.IsForest → t.HasPlainTexts →
      t'.IsForest → t'.HasPlainTexts → (t.get? id).isSome = true → (t'.get? id').isSome = true →
      ∃ (text text' : String) (shape shape' : Shape),
        t.outline id depth = .ok text ∧ t'.outline id' depth = .ok text' ∧
        t.shape id = .ok shape ∧ t'.shape id' = .ok shape' ∧
        (text = text' ↔ shape = shape')) := by
  constructor
  · intro t id depth ht hplain hid
    obtain ⟨node, hget⟩ := Option.isSome_iff_exists.mp hid
    obtain ⟨b, rfl, hb⟩ := ht.exists_bears hget
    obtain ⟨way, hway⟩ := (ht.ascends hget).climbs
    obtain ⟨above, rfl⟩ := hway.exists_cons
    refine ⟨b.handles, _, _, hb.descendants_eq, hb.walk_eq, hb.outline_eq depth,
      (hb.holds.isPlain_shape hplain).splitOn_outline depth, ?_⟩
    rw [List.forall₂_map_right_iff]
    refine (hb.holds.forall₂_lines hway depth).imp ?_
    rintro other line ⟨node, below, hother, hclimbs, rfl⟩
    exact ⟨node, _, below.length, hother, hclimbs.ancestors_eq, by simp, rfl⟩
  · intro t t' id id' depth ht hplain ht' hplain' hid hid'
    obtain ⟨node, hget⟩ := Option.isSome_iff_exists.mp hid
    obtain ⟨node', hget'⟩ := Option.isSome_iff_exists.mp hid'
    obtain ⟨b, rfl, hb⟩ := ht.exists_bears hget
    obtain ⟨b', rfl, hb'⟩ := ht'.exists_bears hget'
    exact ⟨_, _, _, _, hb.outline_eq depth, hb'.outline_eq depth, hb.shape_eq, hb'.shape_eq,
      Shape.outline_inj (hb.holds.isPlain_shape hplain) (hb'.holds.isPlain_shape hplain')⟩

/-- A product has the same outline within a sum as on its own. -/
theorem outline_identifies_product : ∃ (t t' : Tree) (ids : List Handle) (text : String)
    (lines : List (List Char)) (shape : Shape),
    parse "a+b*c" = .ok t ∧ parse "b*c" = .ok t' ∧
    t.descendants ⟨2⟩ = .ok ids ∧ t.walk ⟨2⟩ = .ok ids ∧ t.outline ⟨2⟩ 1 = .ok text ∧
    text = "\t*\n\t\tb\n\t\tc\n" ∧ text.toList.splitOn '\n' = lines ++ [[]] ∧
    List.Forall₂ (fun other line => ∃ (node : Node) (above : List Handle) (below : ℕ),
      t.get? other = some node ∧ t.ancestors other = .ok above ∧ above[below]? = some ⟨2⟩ ∧
      line = List.replicate (1 + below) '\t' ++ node.name.toList) ids lines ∧
    t'.outline ⟨0⟩ 1 = .ok text ∧ t.shape ⟨2⟩ = .ok shape ∧ t'.shape ⟨0⟩ = .ok shape := by
  obtain ⟨t, hparse, ht⟩ := exists_sum_product
  obtain ⟨t', ht'⟩ : ∃ t' : Tree, t' = ⟨#[some ⟨.compound .mul [⟨1⟩, ⟨2⟩], none, ⟨0⟩⟩,
      some ⟨.literal "b", some ⟨0⟩, ⟨1⟩⟩, some ⟨.literal "c", some ⟨0⟩, ⟨2⟩⟩], ⟨0⟩, 3⟩ := ⟨_, rfl⟩
  have hparse' : parse "b*c" = .ok t' := by
    rw [ht']
    cbv
  have hproduct : (t.get? ⟨2⟩).isSome = true := by
    rw [ht]
    rfl
  have hroot : (t'.get? ⟨0⟩).isSome = true := by
    rw [ht']
    rfl
  have houtline : t.outline ⟨2⟩ 1 = .ok "\t*\n\t\tb\n\t\tc\n" := by
    rw [ht]
    cbv
  have houtline' : t'.outline ⟨0⟩ 1 = .ok "\t*\n\t\tb\n\t\tc\n" := by
    rw [ht']
    cbv
  have hproper : t.IsProper := (Obtained.parse hparse).isProper
  have hproper' : t'.IsProper := (Obtained.parse hparse').isProper
  obtain ⟨ids, text, lines, hids, hwalk, htext, hsplit, hlines⟩ := outline_identifies.1 t ⟨2⟩ 1
    hproper.toIsForest hproper.hasPlainTexts hproduct
  obtain ⟨text₂, text', shape, shape', htext₂, htext', hshape, hshape', hiff⟩ :=
    outline_identifies.2 t t' ⟨2⟩ ⟨0⟩ 1 hproper.toIsForest hproper.hasPlainTexts
      hproper'.toIsForest hproper'.hasPlainTexts hproduct hroot
  rw [houtline, Except.ok.injEq] at htext htext₂
  rw [houtline', Except.ok.injEq] at htext'
  subst htext htext₂ htext'
  obtain rfl := hiff.mp rfl
  exact ⟨t, t', ids, _, lines, shape, hparse, hparse', hids, hwalk, houtline, rfl, hsplit, hlines,
    houtline', hshape, hshape'⟩

end Tree

end FormulaEditor
