/-
How many nodes a text makes.

Reading a text makes one node for each operator, for each pair of parentheses and for each
literal, in the order in which they stand in the tree, and gives them slots and tags by
counting.  Merging then only takes nodes of sums and products away, so the slots that are
vacant in the end are missing operators:

* `Text.literals` — the texts of the literals, which is what stands between the other signs;
* `Branch.operators` — the operators of a branch, node by node;
* `Text.CutsTo.counts` — the nodes that are made, counted in the text;
* `Branch.filter_operators_flat` — the nodes that are not taken away;
* `numbers_of_parse` — the slots, handles and tags of a parsed tree.
-/
import FormulaEditor.Proofs.Parsing
import FormulaEditor.Proofs.Tagging
import Mathlib

namespace FormulaEditor

open Branch Grammar

/-! ### Counting in a text -/

namespace Operator

/-- The character that a node with the operator is made for. -/
def mark : Operator → Char
  | add => '+'
  | mul => '*'
  | group => '('

theorem mark_mem (operator : Operator) : operator.mark ∈ ['+', '*', '(', ')'] := by
  cases operator <;> decide

theorem mark_inj {operator other : Operator} : operator.mark = other.mark ↔ operator = other := by
  cases operator <;> cases other <;> decide

theorem mark_of_ofChar? {operator : Operator} {c : Char} (h : ofChar? c = some operator) :
    c = operator.mark := by
  rw [ofChar?.eq_def] at h
  split at h
  · cases h
    rfl
  · cases h
    rfl
  · cases h

end Operator

namespace Text

/-- What stands between operators and parentheses. -/
def literals (s : List Char) : List String :=
  ((s.splitOnP (· ∈ ['+', '*', '(', ')'])).filter (· ≠ [])).map String.ofList

@[simp] theorem literals_nil : literals [] = [] := by simp [literals]

/-- A sign between two texts belongs to no literal. -/
theorem literals_append_cons (s t : List Char) {c : Char} (h : c ∈ ['+', '*', '(', ')']) :
    literals (s ++ c :: t) = literals s ++ literals t := by
  rw [literals, List.splitOnP_append_cons s t (decide_eq_true h), List.filter_append,
    List.map_append]
  rfl

theorem literals_wrap (s : List Char) : literals ('(' :: s ++ [')']) = literals s := by
  rw [literals_append_cons ('(' :: s) [] (by simp), ← List.nil_append ('(' :: s),
    literals_append_cons [] s (by simp), literals_nil, List.nil_append, List.append_nil]

theorem literals_of_isLiteral {s : List Char} (h : IsLiteral s) :
    literals s = [String.ofList s] := by
  have hnone : ∀ c ∈ s, decide (c ∈ ['+', '*', '(', ')']) = false := by
    intro c hc
    rw [decide_eq_false_iff_not]
    exact fun hmem => h.not_isMark hc (List.mem_append_left [' '] hmem)
  rw [literals, List.splitOnP_eq_singleton hnone]
  simp [h.ne_nil]

end Text

/-! ### Counting in a branch -/

namespace Branch

/-- The operator of every node, or none for a literal, each before those below it. -/
def operators : Branch → List (Option Operator)
  | literal _ _ _ => [none]
  | compound _ _ operator parts => some operator :: parts.flatMap operators

theorem operators_eq (b : Branch) : b.operators = b.operator? :: b.parts.flatMap operators := by
  cases b with
  | literal => rw [operators, operator?, parts, List.flatMap_nil]
  | compound => rw [operators, operator?, parts]

/-- Whether a node is a literal or a pair of parentheses, which are never taken away. -/
def stays (operator : Option Operator) : Bool := !operator.any Operator.isAssociative

theorem filter_operators_operands {operator : Operator} (h : operator.isAssociative = true)
    (b : Branch) : ((b.operands operator).flatMap operators).filter stays
      = b.operators.filter stays := by
  cases b with
  | literal => rw [operands, List.flatMap_singleton]
  | compound id tag own parts =>
    rw [operands]
    split
    · next hown =>
      rw [operators, List.filter_cons_of_neg]
      simp [stays, hown, h]
    · rw [List.flatMap_singleton]

/-- Merging takes no literal and no parentheses away. -/
theorem filter_operators_flat (b : Branch) :
    b.flat.operators.filter stays = b.operators.filter stays := by
  induction b with
  | literal => rw [flat]
  | compound id tag operator parts ih =>
    have hparts : ((merged operator (parts.map flat)).flatMap operators).filter stays
        = (parts.flatMap operators).filter stays := by
      rw [merged]
      split
      · next ha =>
        rw [List.flatMap_assoc, List.flatMap_map, List.filter_flatMap, List.filter_flatMap]
        exact List.flatMap_congr fun part hp =>
          (filter_operators_operands ha part.flat).trans (ih part hp)
      · rw [List.flatMap_map, List.filter_flatMap, List.filter_flatMap]
        exact List.flatMap_congr ih
    rw [flat, operators, operators, List.filter_cons, List.filter_cons, hparts]

end Branch

namespace Text

/-- The nodes for a text before any of them are merged: one for each operator, one for each
opening parenthesis, and one for each literal. -/
theorem CutsTo.counts {s : List Char} {cut : Cut} (h : CutsTo s cut) (slots tags : Nat) :
    (∀ operator, (cut.branch slots tags).operators.count (some operator)
      = s.count operator.mark) ∧
    (cut.branch slots tags).operators.count none = (literals s).length := by
  induction h generalizing slots tags with
  | @literal s hl =>
    have hliteral := isLiteral_iff.mp hl
    rw [literals_of_isLiteral hliteral, Cut.branch, operators]
    refine ⟨fun operator => ?_, rfl⟩
    have hnone : operator.mark ∉ s := fun hmem =>
      hliteral.not_isMark hmem (List.mem_append_left [' '] operator.mark_mem)
    rw [List.count_eq_zero.mpr hnone, List.count_eq_zero.mpr (by simp)]
  | @group s inner hl hg hinner ih =>
    obtain ⟨hmarks, hliterals⟩ := ih (slots + 1) (tags + 1)
    rw [eq_of_isWrapped (isWrapped_of_isGroup hg), literals_wrap, Cut.branch, operators,
      List.flatMap_singleton]
    refine ⟨fun operator => ?_, by simpa using hliterals⟩
    rw [List.count_cons, hmarks]
    cases operator <;> simp [Operator.mark]
  | @split s i own left right hl hg hs hleft hright ihl ihr =>
    obtain ⟨hmarks, hliterals⟩ := ihl (slots + 1) (tags + 1)
    obtain ⟨hmarks', hliterals'⟩ := ihr (slots + 1 + left.size) (tags + 1 + left.size)
    obtain ⟨c, hc, heq⟩ := exists_ofChar?_of_splitPoint hs
    obtain rfl := Operator.mark_of_ofChar? hc
    have hsplit := literals_append_cons (s.take i) (s.drop (i + 1)) own.mark_mem
    rw [← heq] at hsplit
    rw [hsplit, Cut.branch, operators]
    refine ⟨fun operator => ?_, by simp [hliterals, hliterals']⟩
    have hcount : s.count operator.mark = (s.take i).count operator.mark
        + ((s.drop (i + 1)).count operator.mark + if own = operator then 1 else 0) := by
      conv_lhs => rw [heq]
      rw [List.count_append, List.count_cons]
      simp only [beq_iff_eq, Operator.mark_inj]
    rw [hcount, List.count_cons, List.flatMap_cons, List.flatMap_singleton, List.count_append,
      hmarks, hmarks']
    simp only [beq_iff_eq, Option.some_inj]
    omega

end Text

/-! ### Counting slots -/

namespace Tree

variable {t : Tree} {parent : Option Handle} {b : Branch}

theorem toList_slots (t : Tree) :
    t.slots.toList = ((List.range t.slots.size).map Handle.mk).map t.get? := by
  rw [List.map_map]
  refine List.ext_getElem (by simp) fun i hi _ => ?_
  rw [Array.length_toList] at hi
  simp [get?, hi]

/-- What is counted slot by slot can be counted along the live handles. -/
theorem countP_slots {ids : List Handle} (hnodup : ids.Nodup)
    (hlive : ∀ id, id ∈ ids ↔ (t.get? id).isSome = true) (p : Node → Bool) :
    t.slots.countP (·.any p) = ids.countP fun id => (t.get? id).any p := by
  have hrange : ((List.range t.slots.size).map Handle.mk).Nodup :=
    List.nodup_range.map fun i j h => congrArg Handle.index h
  rw [← Array.countP_toList, toList_slots, List.countP_map, List.countP_eq_length_filter,
    List.countP_eq_length_filter]
  refine List.Perm.length_eq ?_
  refine (List.perm_ext_iff_of_nodup (hrange.filter _) (hnodup.filter _)).mpr fun id => ?_
  rw [List.mem_filter, List.mem_filter]
  refine and_congr_left fun hany => ?_
  -- a node that is counted is live, and so it has a slot
  have hsome : (t.get? id).isSome = true := by
    rw [Function.comp_apply] at hany
    exact Option.isSome_of_any hany
  refine iff_of_true ?_ ((hlive id).mpr hsome)
  exact List.mem_map.mpr ⟨id.index, List.mem_range.mpr (lt_size_of_isSome hsome), rfl⟩

/-- A slot is vacant or holds a node. -/
theorem countP_isNone_slots (t : Tree) :
    t.slots.countP (·.isNone) + t.slots.countP (·.any fun _ => true) = t.slots.size := by
  have hsome : ∀ slot ∈ t.slots.toList,
      (slot.any fun _ => true) = true ↔ decide ¬slot.isNone = true := by
    rintro (_ | node) _ <;> simp
  rw [← Array.countP_toList, ← Array.countP_toList, List.countP_congr hsome,
    ← List.length_eq_countP_add_countP, Array.length_toList]

/-- The operators of a branch are those of its nodes in the store. -/
theorem Holds.operators_eq (h : t.Holds parent b) : b.operators = b.handles.map t.operator? := by
  induction h with
  | @intro parent b hget _ ih =>
    rw [Branch.operators_eq, Branch.handles_eq, List.map_cons, List.map_flatMap,
      List.flatMap_congr ih, operator?, hget, Option.bind_some, Branch.operator?_node]

/-- A branch without repeated nodes that is all there is in a store tells how many slots hold
a node with some operator. -/
theorem IsWhole.countP_slots (h : t.IsWhole b) (p : Option Operator → Bool) :
    t.slots.countP (·.any fun node => p node.operator?) = b.operators.countP p := by
  have hlive : ∀ id, id ∈ b.handles ↔ (t.get? id).isSome = true :=
    fun id => ⟨h.bears.holds.isSome id, h.mem id⟩
  rw [Tree.countP_slots h.bears.nodup hlive, h.bears.holds.operators_eq, List.countP_map]
  refine List.countP_congr fun id hid => ?_
  obtain ⟨node, hget⟩ := Option.isSome_iff_exists.mp ((hlive id).mp hid)
  rw [Function.comp_apply, operator?, hget]
  rfl

end Tree

/-! ### Nodes of a text -/

/-- A list of operators has as many members as it has of each kind. -/
theorem length_eq_counts (l : List (Option Operator)) : l.length
    = l.count none + l.count (some .group) + (l.count (some .add) + l.count (some .mul)) := by
  induction l with
  | nil => rfl
  | cons own l ih =>
    rw [List.length_cons, ih]
    rw [List.count_cons, List.count_cons, List.count_cons, List.count_cons]
    rcases own with _ | _ | _ | _ <;> simp <;> omega

theorem countP_sums_products (l : List (Option Operator)) :
    l.countP (fun own => own = some .add ∨ own = some .mul)
      = l.count (some .add) + l.count (some .mul) := by
  induction l with
  | nil => rfl
  | cons own l ih =>
    rw [List.countP_cons, ih, List.count_cons, List.count_cons]
    rcases own with _ | _ | _ | _ <;> simp <;> omega

namespace Branch

theorem length_operators (b : Branch) : b.operators.length = b.handles.length := by
  induction b with
  | literal => rw [operators, handles, List.length_singleton, List.length_singleton]
  | compound id tag operator parts ih =>
    rw [operators, handles, List.length_cons, List.length_cons, List.length_flatMap,
      List.length_flatMap, List.map_congr_left ih]

/-- Merging takes sums and products away and leaves the other nodes. -/
theorem count_operators_flat (b : Branch) :
    b.flat.operators.count none = b.operators.count none ∧
      b.flat.operators.count (some .group) = b.operators.count (some .group) := by
  have hcount {own : Option Operator} (h : stays own = true) :
      b.flat.operators.count own = b.operators.count own := by
    rw [← List.count_filter h, filter_operators_flat, List.count_filter h]
  exact ⟨hcount rfl, hcount rfl⟩

end Branch

namespace Text

/-- Nodes are made in the order in which they stand in the tree. -/
theorem Cut.handles_branch (slots tags : Nat) (cut : Cut) :
    (cut.branch slots tags).handles = (List.range' slots cut.size).map Handle.mk := by
  induction cut generalizing slots tags with
  | literal text =>
    rw [branch, handles, size]
    rfl
  | group inner ih =>
    rw [branch, handles, List.flatMap_singleton, ih, size, Nat.add_comm 1, List.range'_succ,
      List.map_cons]
  | split operator left right ihl ihr =>
    rw [branch, handles, List.flatMap_cons, List.flatMap_singleton, ihl, ihr, ← List.map_append,
      List.range'_append_1, size, Nat.add_assoc, Nat.add_comm 1, List.range'_succ, List.map_cons]

theorem Cut.inOrder_branch (slots tags : Nat) (cut : Cut) :
    InOrder (cut.branch slots tags).handles := by
  rw [handles_branch, InOrder, List.pairwise_map]
  exact List.pairwise_lt_range'

/-- What stands between the signs of a text that can be cut are literals. -/
theorem CutsTo.isLiteral_of_mem {s : List Char} {cut : Cut} (h : CutsTo s cut) :
    ∀ text ∈ literals s, isLiteral text.toList = true := by
  induction h with
  | literal hl =>
    rw [literals_of_isLiteral (isLiteral_iff.mp hl), List.forall_mem_singleton,
      String.toList_ofList]
    exact hl
  | group hl hg hinner ih =>
    rwa [eq_of_isWrapped (isWrapped_of_isGroup hg), literals_wrap]
  | split hl hg hs hleft hright ihl ihr =>
    obtain ⟨c, hc, heq⟩ := exists_ofChar?_of_splitPoint hs
    rw [heq, literals_append_cons _ _ (Operator.mark_of_ofChar? hc ▸ Operator.mark_mem _),
      List.forall_mem_append]
    exact ⟨ihl, ihr⟩

end Text

/-! ### Parsed trees -/

open Text

/-- The slots, handles and tags of a parsed tree.  There is a slot and a tag for each operator,
each opening parenthesis and each literal of the text.  The root has the first slot, every node
has the number of its slot as its tag, and the nodes have their slots in the order in which they
stand in the tree.  The slots of nodes that were merged away are vacant: together with the sums
and products that are left they are as many as there are operators in the text. -/
theorem numbers_of_parse {text : String} {t : Tree} (h : parse text = .ok t) :
    t.root = ⟨0⟩ ∧
    t.slots.size = (withoutSpaces text).count '+' + (withoutSpaces text).count '*'
      + (withoutSpaces text).count '(' + (literals (withoutSpaces text)).length ∧
    t.nextTag = t.slots.size ∧
    (∀ literal ∈ literals (withoutSpaces text), isLiteral literal.toList = true) ∧
    (∀ id node, t.get? id = some node → node.tag.value = id.index) ∧
    (∃ ids, t.descendants t.root = .ok ids ∧ InOrder ids) ∧
    t.slots.countP (·.isNone)
      + t.slots.countP (·.any fun node => node.operator? = some .add ∨ node.operator? = some .mul)
      = (withoutSpaces text).count '+' + (withoutSpaces text).count '*' := by
  obtain ⟨cut, hcut, hwhole, hslots⟩ := exists_cut_of_parse h
  have hnumbered := Tree.isNumbered_of_parse h
  obtain ⟨hmarks, hliterals⟩ := hcut.counts 0 0
  obtain ⟨hnone, hgroup⟩ := count_operators_flat (cut.branch 0 0)
  have hsize : (cut.branch 0 0).operators.length = cut.size := by
    rw [length_operators, Cut.handles_branch, List.length_map, List.length_range']
  have hadd : (cut.branch 0 0).operators.count (some .add) = (withoutSpaces text).count '+' :=
    hmarks .add
  have hmul : (cut.branch 0 0).operators.count (some .mul) = (withoutSpaces text).count '*' :=
    hmarks .mul
  have hopening : (cut.branch 0 0).operators.count (some .group) = (withoutSpaces text).count '(' :=
    hmarks .group
  have hmade := length_eq_counts (cut.branch 0 0).operators
  refine ⟨?_, ?_, hnumbered.nextTag_eq, hcut.isLiteral_of_mem, ?_, ?_, ?_⟩
  · rw [hwhole.root, top_flat, Cut.top_branch]
  · rw [hslots.size, ← hsize, hmade, hadd, hmul, hopening, hliterals]
    omega
  · intro id node hget
    rw [hnumbered.tag_eq hget]
  · exact ⟨_, hwhole.root ▸ hwhole.bears.descendants_eq,
      List.Pairwise.sublist (handles_flat_sublist _) (cut.inOrder_branch 0 0)⟩
  · -- what is not vacant holds a literal, parentheses, or a sum or product that is left
    have hvacant := t.countP_isNone_slots
    have hlive := hwhole.countP_slots fun _ => true
    have hsums := hwhole.countP_slots fun own => own = some .add ∨ own = some .mul
    have hleft := length_eq_counts (cut.branch 0 0).flat.operators
    rw [List.countP_true] at hlive
    rw [countP_sums_products] at hsums
    rw [hslots.size] at hvacant
    omega

/-- Three operators, one pair of parentheses and four literals.  Of the operators one sum and one
product are left, and the slot of the other sum is vacant. -/
theorem numbers_of_parse_sum : ∃ t, parse "a + b + (2*c)" = .ok t ∧ t.root = ⟨0⟩ ∧
    t.slots.size = 2 + 1 + 1 + 4 ∧ t.nextTag = 8 ∧
    t.descendants t.root = .ok [⟨0⟩, ⟨1⟩, ⟨3⟩, ⟨4⟩, ⟨5⟩, ⟨6⟩, ⟨7⟩] ∧
    InOrder [⟨0⟩, ⟨1⟩, ⟨3⟩, ⟨4⟩, ⟨5⟩, ⟨6⟩, ⟨7⟩] ∧
    t.slots.countP (·.any fun node => node.operator? = some .add ∨ node.operator? = some .mul) = 2 ∧
    t.slots.countP (·.isNone) = 1 := by
  obtain ⟨t, ht⟩ : ∃ t : Tree, t = ⟨#[some ⟨.compound .add [⟨1⟩, ⟨3⟩, ⟨4⟩], none, ⟨0⟩⟩,
      some ⟨.literal "a", some ⟨0⟩, ⟨1⟩⟩, none, some ⟨.literal "b", some ⟨0⟩, ⟨3⟩⟩,
      some ⟨.compound .group [⟨5⟩], some ⟨0⟩, ⟨4⟩⟩,
      some ⟨.compound .mul [⟨6⟩, ⟨7⟩], some ⟨4⟩, ⟨5⟩⟩, some ⟨.literal "2", some ⟨5⟩, ⟨6⟩⟩,
      some ⟨.literal "c", some ⟨5⟩, ⟨7⟩⟩], ⟨0⟩, 8⟩ := ⟨_, rfl⟩
  have hparse : parse "a + b + (2*c)" = .ok t := by
    rw [ht]
    cbv
  have hids : t.descendants t.root = .ok [⟨0⟩, ⟨1⟩, ⟨3⟩, ⟨4⟩, ⟨5⟩, ⟨6⟩, ⟨7⟩] := by
    rw [ht]
    cbv
  have hsums : t.slots.countP
      (·.any fun node => node.operator? = some .add ∨ node.operator? = some .mul) = 2 := by
    rw [ht]
    decide
  have hadd : (withoutSpaces "a + b + (2*c)").count '+' = 2 := by cbv
  have hmul : (withoutSpaces "a + b + (2*c)").count '*' = 1 := by cbv
  have hgroup : (withoutSpaces "a + b + (2*c)").count '(' = 1 := by cbv
  have hliterals : literals (withoutSpaces "a + b + (2*c)") = ["a", "b", "2", "c"] := by cbv
  obtain ⟨hroot, hsize, htag, _, _, ⟨ids, hids', horder⟩, hvacant⟩ := numbers_of_parse hparse
  rw [hadd, hmul, hgroup, hliterals] at hsize
  rw [hsums, hadd, hmul] at hvacant
  obtain rfl := Except.ok.inj (hids.symm.trans hids')
  exact ⟨t, hparse, hroot, hsize, htag.trans hsize, hids, horder, hsums, by omega⟩

end FormulaEditor
