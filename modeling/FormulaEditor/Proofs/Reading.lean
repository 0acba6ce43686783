/-
What the reader makes of a text.

The reader asks the acceptance rule about every part of a text, and cuts the part at its
split point.  Where the rule says yes the text can be cut, and the reader puts together the
branch of the cuts, merging each compound as soon as both of its sides are complete.
Nothing can go wrong on the way: new nodes have no place until they are attached, and the
root is none of them.

What is done in the end to a compound of two sides, and to the whole tree, does not matter
to most of this.  It may also be nothing, and then the branch of the cuts is what is left:

* `Text.Finishes` — last steps that make something of the branch of the cuts;
* `Text.BuildsCut` — reading a part of the text succeeds and gives that branch;
* `Text.buildsCut_of_cutsTo` — it does so for every part that can be cut;
* `Text.run_parse_of_cutsTo`, `Text.run_parseUnmerged` — so texts that can be cut are parsed,
  with compounds merged, or without (`parseUnmerged`).
-/
import FormulaEditor.Proofs.Cutting
import FormulaEditor.Proofs.Growth
import FormulaEditor.Proofs.Keeping

namespace FormulaEditor

/-- So many slots and so many tags have been given out. -/
structure Tree.HasSlots (slots tags : Nat) (t : Tree) : Prop where
  size : t.slots.size = slots
  nextTag : t.nextTag = tags

namespace Tree

variable {t u : Tree} {b : Branch} {slots tags : Nat}

theorem ignoresLinks_hasSlots (slots tags : Nat) : IgnoresLinks (HasSlots slots tags) where
  put h _ _ := ⟨(size_slots_put ..).trans h.size, h.nextTag⟩
  root _ h := ⟨h.size, h.nextTag⟩

theorem HasSlots.vacate (id : Handle) (h : t.HasSlots slots tags) :
    (t.put id none).HasSlots slots tags :=
  ⟨(size_slots_put ..).trans h.size, h.nextTag⟩

/-- A branch and the numbers of slots and tags make up the whole store. -/
theorem IsWhole.eq (ht : t.IsWhole b) (hu : u.IsWhole b) (htn : t.HasSlots slots tags)
    (hun : u.HasSlots slots tags) : t = u := by
  have hsame : u.SameExcept t b.handles := by
    refine ⟨htn.size.trans hun.size.symm, ht.root.trans hu.root.symm,
      htn.nextTag.trans hun.nextTag.symm, fun id hid => ?_⟩
    have hnone {v : Tree} (hv : v.IsWhole b) : v.get? id = none :=
      Option.not_isSome_iff_eq_none.mp fun hlive => hid (hv.mem id hlive)
    rw [hnone ht, hnone hu]
  exact hsame.eq (hu.bears.holds.get_eq ht.bears.holds)

end Tree

namespace Edit

variable {t t' : Tree} {slots tags : Nat} {id : Handle}

theorem hasSlots_addLiteral {text : String} (h : t.HasSlots slots tags)
    (hrun : (addLiteral text).run t = .ok id t') : t'.HasSlots (slots + 1) (tags + 1) := by
  cases hrun
  exact ⟨(Array.size_push ..).trans (congrArg (· + 1) h.size), congrArg (· + 1) h.nextTag⟩

theorem hasSlots_addCompound {operator : Operator} (h : t.HasSlots slots tags)
    (hrun : (addCompound operator).run t = .ok id t') : t'.HasSlots (slots + 1) (tags + 1) := by
  cases hrun
  exact ⟨(Array.size_push ..).trans (congrArg (· + 1) h.size), congrArg (· + 1) h.nextTag⟩

theorem hasSlots_attach {parent child : Handle} (h : t.HasSlots slots tags)
    (hrun : (attach parent child).run t = .ok () t') : t'.HasSlots slots tags :=
  (keeps_attach (Tree.ignoresLinks_hasSlots slots tags) parent child).of_ok h hrun

theorem keeps_flatten_hasSlots (slots tags : Nat) (id : Handle) :
    Keeps (Tree.HasSlots slots tags) (flatten id) :=
  keeps_flatten (Tree.ignoresLinks_hasSlots slots tags) (fun id h => h.vacate id) id

end Edit

namespace Text

open Grammar Reading

variable {source : Array Char} {span : Span} {progress : Progress}

/-! ### Steps of the reader -/

/-- An answer about a part of the text is that of the rule, and leaves the tree
alone. -/
theorem run_check (h : span.Fits source) (hsound : progress.verdicts.IsSound source) :
    ∃ known : Verdicts, known.IsSound source ∧ (check source span).run progress
      = .ok (accepts (span.chars source)) ⟨progress.tree, known⟩ := by
  obtain ⟨known, hrun, hknown, _⟩ := gives_acceptsSpan span h progress.verdicts hsound
  refine ⟨known, hknown, ?_⟩
  simp only [check, EStateM.run, hrun]

theorem run_edit {α : Type} {change : Edit α} {a : α} {t t' : Tree} {known : Verdicts}
    (h : change.run t = .ok a t') : (edit change).run ⟨t, known⟩ = .ok a ⟨t', known⟩ := by
  simp only [edit, editWith, EStateM.run] at h ⊢
  rw [h]

/-- What is refused is not read. -/
theorem run_readSpanWith_of_not_accepts (finish : Handle → Edit Unit) (progress : Progress)
    (h : span.Fits source) (hsound : progress.verdicts.IsSound source)
    (hno : accepts (span.chars source) = false) :
    ∃ progress', (readSpanWith finish source span).run progress
      = .error (.notFormula (String.ofList source.toList)) progress' := by
  obtain ⟨known, _, hrun⟩ := run_check h hsound
  rw [readSpanWith, run_bind_ok hrun, hno]
  exact ⟨_, rfl⟩

end Text

/-- Reads a text into a tree with two operands below every sum and product, and merges
nothing. -/
def parseUnmerged (text : String) : Except ParseError Tree :=
  parseFrom (fun _ => pure ()) ∅ text

namespace Text

open Grammar Reading

/-! ### Reading cuts -/

variable {finish : Handle → Edit Unit} {f : Branch → Branch} {source : Array Char} {span : Span}

/-- The last step for a compound of two sides makes the same of it and of its parts. -/
structure Finishes (finish : Handle → Edit Unit) (f : Branch → Branch) : Prop where
  top : ∀ b, (f b).top = b.top
  literal : ∀ id tag text, f (.literal id tag text) = .literal id tag text
  group : ∀ id tag part, f (.compound id tag .group [part]) = .compound id tag .group [f part]
  gains : ∀ {t t' : Tree} {id : Handle} {tag : Tag} {operator : Operator} {left right : Branch},
    t.Gains t' [.compound id tag operator [f left, f right]] →
      ∃ t'', (finish id).run t' = .ok () t'' ∧
        t.Gains t'' [f (.compound id tag operator [left, right])]
  keeps : ∀ slots tags id, Keeps (Tree.HasSlots slots tags) (finish id)

theorem finishes_pure : Finishes (fun _ => pure ()) fun b => b where
  top _ := rfl
  literal _ _ _ := rfl
  group _ _ _ := rfl
  gains h := ⟨_, rfl, h⟩
  keeps _ _ _ := .pure ()

theorem finishes_flatten : Finishes Edit.flatten Branch.flat where
  top := Branch.top_flat
  literal := Branch.flat.eq_1
  group id tag part := by
    rw [Branch.flat, List.map_singleton, Branch.merged, if_neg (by decide)]
  gains {t t' id tag operator left right} h := by
    have hflat : (Branch.compound id tag operator [left.flat, right.flat]).flat
        = (Branch.compound id tag operator [left, right]).flat := by
      simp only [Branch.flat, List.map_cons, List.map_nil, Branch.flat_flat]
    exact hflat ▸ Edit.gains_flatten h
  keeps := Edit.keeps_flatten_hasSlots

/-- Reading the span puts the branch of its cuts into whatever tree there is, or what the last
step makes of it, as long as the root of the tree is none of the nodes to come. -/
def BuildsCut (finish : Handle → Edit Unit) (f : Branch → Branch) (source : Array Char)
    (span : Span) (cut : Cut) : Prop :=
  ∀ (progress : Progress) (slots tags : Nat), progress.verdicts.IsSound source →
    progress.tree.root.index ≤ progress.tree.slots.size → progress.tree.HasSlots slots tags →
    ∃ (t : Tree) (known : Verdicts),
      (readSpanWith finish source span).run progress = .ok ⟨slots⟩ ⟨t, known⟩ ∧
      known.IsSound source ∧ progress.tree.Gains t [f (cut.branch slots tags)] ∧
      t.HasSlots (slots + cut.size) (tags + cut.size)

theorem buildsCut_literal (hf : Finishes finish f) (h : span.Fits source)
    (hyes : accepts (span.chars source) = true) (hl : isLiteral (span.chars source) = true) :
    BuildsCut finish f source span (.literal (String.ofList (span.chars source))) := by
  intro progress slots tags hsound _ hn
  obtain ⟨known, hknown, hcheck⟩ := run_check h hsound
  obtain ⟨t, hrun, hgains⟩ :=
    Edit.gains_addLiteral progress.tree (String.ofList (span.chars source))
  have hslots := Edit.hasSlots_addLiteral hn hrun
  rw [hn.size, hn.nextTag] at hgains
  rw [hn.size] at hrun
  refine ⟨t, known, ?_, hknown, ?_, hslots⟩
  · rw [readSpanWith, run_bind_ok hcheck, hyes, if_neg (by simp), if_pos hl]
    exact run_edit hrun
  · rw [Cut.branch, hf.literal]
    exact hgains

theorem buildsCut_group {inner : Cut} (hf : Finishes finish f) (h : span.Fits source)
    (hyes : accepts (span.chars source) = true) (hl : isLiteral (span.chars source) = false)
    (hg : isGroup (span.chars source) = true)
    (hinner : BuildsCut finish f source span.inside inner) :
    BuildsCut finish f source span (.group inner) := by
  intro progress slots tags hsound hroot hn
  obtain ⟨known, hknown, hcheck⟩ := run_check h hsound
  obtain ⟨t₁, hrun₁, hgains₁⟩ := Edit.gains_addCompound progress.tree .group
  have hslots₁ := Edit.hasSlots_addCompound hn hrun₁
  obtain ⟨t₂, known₂, hrun₂, hknown₂, hgains₂, hslots₂⟩ :=
    hinner ⟨t₁, known⟩ _ _ hknown (hgains₁.root_le_size hroot) hslots₁
  obtain ⟨t₃, hrun₃, hgains₃⟩ := Edit.gains_attach (hgains₁.trans hgains₂) hroot
  rw [hn.size] at hrun₁
  rw [hn.size, hf.top, Cut.top_branch] at hrun₃
  refine ⟨t₃, known₂, ?_, hknown₂, ?_, ?_⟩
  · rw [readSpanWith, run_bind_ok hcheck, hyes, if_neg (by simp), if_neg (by simp [hl]),
      dif_pos hg, run_bind_ok (run_edit hrun₁), run_bind_ok hrun₂, run_bind_ok (run_edit hrun₃)]
    rfl
  · rw [Cut.branch, hf.group]
    rwa [hn.size, hn.nextTag] at hgains₃
  · rw [Cut.size, ← Nat.add_assoc, ← Nat.add_assoc]
    exact Edit.hasSlots_attach hslots₂ hrun₃

theorem buildsCut_split {i : Nat} {operator : Operator} {left right : Cut}
    (hf : Finishes finish f) (h : span.Fits source)
    (hyes : accepts (span.chars source) = true) (hl : isLiteral (span.chars source) = false)
    (hg : isGroup (span.chars source) = false)
    (hsplit : splitPoint (span.chars source) = some (i, operator))
    (hleft : BuildsCut finish f source (span.before i) left)
    (hright : BuildsCut finish f source (span.after i) right) :
    BuildsCut finish f source span (.split operator left right) := by
  intro progress slots tags hsound hroot hn
  obtain ⟨known, hknown, hcheck⟩ := run_check h hsound
  obtain ⟨t₁, hrun₁, hgains₁⟩ := Edit.gains_addCompound progress.tree operator
  have hroot₁ := hgains₁.root_le_size hroot
  have hslots₁ := Edit.hasSlots_addCompound hn hrun₁
  obtain ⟨t₂, known₂, hrun₂, hknown₂, hgains₂, hslots₂⟩ :=
    hleft ⟨t₁, known⟩ _ _ hknown hroot₁ hslots₁
  obtain ⟨t₃, known₃, hrun₃, hknown₃, hgains₃, hslots₃⟩ :=
    hright ⟨t₂, known₂⟩ _ _ hknown₂ (hgains₂.root_le_size hroot₁) hslots₂
  -- both sides are read before the first one is attached
  obtain ⟨t₄, hrun₄, hgains₄⟩ := Edit.gains_attach (hgains₁.trans (hgains₂.trans hgains₃)) hroot
  obtain ⟨t₅, hrun₅, hgains₅⟩ := Edit.gains_attach hgains₄ hroot
  obtain ⟨t₆, hrun₆, hgains₆⟩ := hf.gains hgains₅
  have hslots₄ := Edit.hasSlots_attach hslots₃ hrun₄
  have hslots₅ := Edit.hasSlots_attach hslots₄ hrun₅
  have hslots₆ := (hf.keeps _ _ _).of_ok hslots₅ hrun₆
  rw [hn.size] at hrun₁ hrun₆
  rw [hn.size, hf.top, Cut.top_branch] at hrun₄ hrun₅
  refine ⟨t₆, known₃, ?_, hknown₃, ?_, ?_⟩
  · rw [readSpanWith, run_bind_ok hcheck, hyes, if_neg (by simp), if_neg (by simp [hl]),
      dif_neg (by simp [hg])]
    split
    · -- a text that is accepted has a split point
      next hnone => simp [hsplit] at hnone
    · next offset op hsome =>
      rw [hsplit, Option.some_inj, Prod.mk.injEq] at hsome
      obtain ⟨rfl, rfl⟩ := hsome
      rw [run_bind_ok (run_edit hrun₁), run_bind_ok hrun₂, run_bind_ok hrun₃,
        run_bind_ok (run_edit hrun₄), run_bind_ok (run_edit hrun₅), run_bind_ok (run_edit hrun₆)]
      rfl
  · rwa [hn.size, hn.nextTag] at hgains₆
  · simp only [Cut.size, ← Nat.add_assoc]
    exact hslots₆

/-- A span whose text is cut in some way is read as the branch of its cuts. -/
theorem buildsCut_of_cutsTo {s : List Char} {cut : Cut} (hf : Finishes finish f)
    (h : CutsTo s cut) (hs : span.chars source = s) (hfits : span.Fits source) :
    BuildsCut finish f source span cut := by
  have hyes : accepts (span.chars source) = true := hs ▸ h.accepts
  induction h generalizing span with
  | literal hl =>
    subst hs
    exact buildsCut_literal hf hfits hyes hl
  | group hl hg hinner ih =>
    subst hs
    have hchars := hfits.chars_inside
    exact buildsCut_group hf hfits hyes hl hg
      (ih hchars (hfits.inside (two_le_of_isGroup hg)) (hchars ▸ hinner.accepts))
  | @split s i operator left right hl hg hsplit hleft hright ihl ihr =>
    subst hs
    have hlt := splitPoint_lt hsplit
    have hbefore := hfits.chars_before (Nat.le_of_lt hlt)
    have hafter := span.chars_after source i
    exact buildsCut_split hf hfits hyes hl hg hsplit
      (ihl hbefore (hfits.before (Nat.le_of_lt hlt)) (hbefore ▸ hleft.accepts))
      (ihr hafter (hfits.after hlt) (hafter ▸ hright.accepts))

/-! ### Whole texts -/

/-- The nodes of a text, as the whole tree. -/
theorem exists_run_readSpanWith {text : String} {cut : Cut} (hf : Finishes finish f)
    (h : CutsTo (withoutSpaces text) cut) :
    ∃ (t t' : Tree) (known : Verdicts),
      (readSpanWith finish (withoutSpaces text).toArray
        (.whole (withoutSpaces text).toArray)).run ⟨.empty 0, ∅⟩ = .ok ⟨0⟩ ⟨t, known⟩ ∧
      (Edit.makeRoot ⟨0⟩).run t = .ok () t' ∧ t'.IsWhole (f (cut.branch 0 0)) ∧
      t'.HasSlots cut.size cut.size := by
  obtain ⟨t, known, hrun, _, hgains, hslots⟩ :=
    buildsCut_of_cutsTo hf h (Span.chars_whole (withoutSpaces text).toArray) (Span.Fits.whole _)
      ⟨.empty 0, ∅⟩ 0 0 (Verdicts.isSound_empty _) (Nat.le_refl _) ⟨rfl, rfl⟩
  obtain ⟨t', hroot, hwhole⟩ := Edit.run_makeRoot_whole hgains
  rw [hf.top, Cut.top_branch] at hroot
  rw [Nat.zero_add] at hslots
  exact ⟨t, t', known, hrun, hroot, hwhole,
    (Edit.keeps_makeRoot (Tree.ignoresLinks_hasSlots _ _) _).of_ok hslots hroot⟩

/-- What the last step makes of the whole tree is what is parsed. -/
theorem parseFrom_eq_ok {text : String} {t t' u : Tree} {known : Verdicts}
    (hrun : (readSpanWith finish (withoutSpaces text).toArray
      (.whole (withoutSpaces text).toArray)).run ⟨.empty 0, ∅⟩ = .ok ⟨0⟩ ⟨t, known⟩)
    (hroot : (Edit.makeRoot ⟨0⟩).run t = .ok () t') (hfinish : (finish ⟨0⟩).run t' = .ok () u) :
    parseFrom finish ∅ text = .ok u := by
  have hlast : (do Edit.makeRoot ⟨0⟩; finish ⟨0⟩ : Edit Unit).run t = .ok () u :=
    (run_bind_ok hroot).trans hfinish
  rw [parseFrom, treeOf, readText, run_bind_ok hrun, run_edit hlast]

/-- A text that is refused is named in the error. -/
theorem treeOf_readText_of_not_accepts {source : Array Char} (finish : Handle → Edit Unit)
    (hno : accepts source.toList = false) :
    treeOf ∅ (readText finish source) = .error (.notFormula (String.ofList source.toList)) := by
  have hwhole := congrArg accepts (Span.chars_whole source)
  obtain ⟨_, hrun⟩ := run_readSpanWith_of_not_accepts finish ⟨.empty 0, ∅⟩ (Span.Fits.whole _)
    (Verdicts.isSound_empty _) (hwhole.trans hno)
  rw [treeOf, readText, run_bind_error hrun]

/-- A text that can be cut is parsed into the flat form of the branch of its cuts. -/
theorem run_parse_of_cutsTo {text : String} {cut : Cut} (h : CutsTo (withoutSpaces text) cut) :
    ∃ t, parse text = .ok t ∧ t.IsWhole (cut.branch 0 0).flat ∧
      t.HasSlots cut.size cut.size := by
  obtain ⟨t, t', known, hrun, hroot, hwhole, hslots⟩ := exists_run_readSpanWith finishes_flatten h
  obtain ⟨t'', hflatten, hflat⟩ := Edit.run_flatten_whole hwhole
  rw [Branch.top_flat, Cut.top_branch] at hflatten
  rw [Branch.flat_flat] at hflat
  exact ⟨t'', parseFrom_eq_ok hrun hroot hflatten, hflat,
    (Edit.keeps_flatten_hasSlots _ _ _).of_ok hslots hflatten⟩

theorem run_parseUnmerged {text : String} {cut : Cut} (h : CutsTo (withoutSpaces text) cut) :
    ∃ t, parseUnmerged text = .ok t ∧ t.IsWhole (cut.branch 0 0) ∧
      t.HasSlots cut.size cut.size := by
  obtain ⟨t, t', known, hrun, hroot, hwhole, hslots⟩ := exists_run_readSpanWith finishes_pure h
  exact ⟨t', parseFrom_eq_ok hrun hroot rfl, hwhole, hslots⟩

end Text

end FormulaEditor
