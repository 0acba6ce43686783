/-
Lists and outcomes.

Subtrees are lists of children, and reading or rearranging them runs through such a
list.  What is known of each element makes up a statement about the whole list:

* `exists_forall₂`, `exists_of_mem_forall₂` — from elements to lists that are related
  one by one, and back;
* `exists_perm_of_perm_map` — a permutation of images;
* `or_exists_first_not` — how far a list can be followed;
* `flatMap_congr_of_append` — lists in the place of elements;
* `mapM_eq_ok`, `forall₂_of_mapM` — a computation that may fail, for every element;
* `FailsWith` — computations that fail with one cause only.
-/
import Mathlib.Data.List.Forall2
import Mathlib.Data.List.Nodup
import Mathlib.Data.List.Perm.Basic

namespace FormulaEditor

section

variable {α β γ : Type}

/-! ### Related lists -/

/-- Something related to each element of a list makes up a related list. -/
theorem exists_forall₂ {R : α → β → Prop} {l : List α} (h : ∀ a ∈ l, ∃ b, R a b) :
    ∃ m, List.Forall₂ R l m := by
  induction l with
  | nil => exact ⟨[], .nil⟩
  | cons a l ih =>
    obtain ⟨b, hb⟩ := h a (List.mem_cons_self ..)
    obtain ⟨m, hm⟩ := ih fun c hc => h c (List.mem_cons_of_mem _ hc)
    exact ⟨b :: m, .cons hb hm⟩

/-- What stands on the right of a relation between lists is related to something
on the left. -/
theorem exists_of_mem_forall₂ {R : α → β → Prop} {l : List α} {r : List β} {b : β}
    (h : List.Forall₂ R l r) (hb : b ∈ r) : ∃ a ∈ l, R a b := by
  obtain ⟨hlen, hget⟩ := List.forall₂_iff_get.mp h
  obtain ⟨i, hi, rfl⟩ := List.mem_iff_getElem.mp hb
  exact ⟨l[i], List.getElem_mem _, hget i (hlen ▸ hi) hi⟩

/-- A relation between lists, known for the elements of the first one. -/
theorem forall₂_imp_of_mem {R S : α → β → Prop} {l : List α} {m : List β}
    (h : List.Forall₂ R l m) (himp : ∀ a ∈ l, ∀ b, R a b → S a b) : List.Forall₂ S l m :=
  ((List.forall₂_and_left l m).mpr ⟨himp, h⟩).imp fun _ b hab => hab.1 b hab.2

/-- Two relations between lists one after the other. -/
theorem forall₂_comp_of_mem {R : α → β → Prop} {S : β → γ → Prop} {T : α → γ → Prop}
    {l : List α} {m : List β} {k : List γ} (h : List.Forall₂ R l m) (h' : List.Forall₂ S m k)
    (hcomp : ∀ a ∈ l, ∀ b c, R a b → S b c → T a c) : List.Forall₂ T l k := by
  induction h generalizing k with
  | nil =>
    cases h'
    exact .nil
  | @cons a b l m hab _ ih =>
    cases h' with
    | cons hbc hmk =>
      refine .cons (hcomp a (List.mem_cons_self ..) b _ hab hbc) (ih hmk ?_)
      exact fun a ha => hcomp a (List.mem_cons_of_mem _ ha)

/-- Lists with the same images, one by one. -/
theorem map_eq_map_of_forall₂ {f : α → γ} {g : β → γ} {l : List α} {m : List β}
    (h : List.Forall₂ (fun a b => g b = f a) l m) : m.map g = l.map f := by
  induction h with
  | nil => rfl
  | cons hb _ ih => rw [List.map_cons, List.map_cons, hb, ih]

theorem perm_flatMap_of_forall₂ {f : α → List γ} {g : β → List γ} {l : List α} {m : List β}
    (h : List.Forall₂ (fun a b => (g b).Perm (f a)) l m) : (m.flatMap g).Perm (l.flatMap f) := by
  induction h with
  | nil => exact .refl _
  | cons hab _ ih =>
    rw [List.flatMap_cons, List.flatMap_cons]
    exact hab.append ih

/-- Elements that are images of something are, as a list, the image of a list. -/
theorem exists_map_eq {f : α → β} {P : α → Prop} {l : List β}
    (h : ∀ b ∈ l, ∃ a, f a = b ∧ P a) : ∃ k : List α, k.map f = l ∧ ∀ a ∈ k, P a := by
  induction l with
  | nil => exact ⟨[], rfl, by simp⟩
  | cons b l ih =>
    obtain ⟨a, rfl, ha⟩ := h b (List.mem_cons_self ..)
    obtain ⟨k, rfl, hk⟩ := ih fun b hb => h b (List.mem_cons_of_mem _ hb)
    exact ⟨a :: k, rfl, List.forall_mem_cons.mpr ⟨ha, hk⟩⟩

/-- A permutation of images is the image of a permutation. -/
theorem exists_perm_of_perm_map {f : α → β} {l : List α} {m : List β} (h : m.Perm (l.map f)) :
    ∃ k : List α, k.Perm l ∧ k.map f = m := by
  have himages : List.Forall₂ (fun b a => f a = b) (l.map f) l :=
    List.forall₂_map_left_iff.mpr (List.forall₂_same.mpr fun _ _ => rfl)
  obtain ⟨k, hk, hperm⟩ := List.perm_comp_forall₂ h himages
  exact ⟨k, hperm, (map_eq_map_of_forall₂ hk).trans (List.map_id m)⟩

/-- Lists with the same images are the same if an image tells the element. -/
theorem eq_of_map_eq {f : α → β} {l m : List α} (h : l.map f = m.map f)
    (hinj : ∀ a ∈ l, ∀ b ∈ m, f a = f b → a = b) : l = m := by
  induction l generalizing m with
  | nil => exact (List.map_eq_nil_iff.mp h.symm).symm
  | cons a l ih =>
    cases m with
    | nil => cases h
    | cons b m =>
      obtain ⟨hhead, htail⟩ := List.cons.inj h
      obtain rfl := hinj a (List.mem_cons_self ..) b (List.mem_cons_self ..) hhead
      rw [ih htail fun c hc d hd =>
        hinj c (List.mem_cons_of_mem _ hc) d (List.mem_cons_of_mem _ hd)]

/-- What lists with the same images have in the same place has the same image. -/
theorem eq_of_mem_zip {f : α → γ} {g : β → γ} {l : List α} {m : List β} (h : l.map f = m.map g)
    {a : α} {b : β} (hmem : (a, b) ∈ l.zip m) : f a = g b := by
  induction l generalizing m with
  | nil => exact absurd hmem (by simp)
  | cons c l ih =>
    cases m with
    | nil => exact absurd hmem (by simp)
    | cons d m =>
      obtain ⟨hhead, htail⟩ := List.cons.inj h
      rw [List.zip_cons_cons, List.mem_cons] at hmem
      rcases hmem with heq | hmem
      · cases heq
        exact hhead
      · exact ih htail hmem

/-- Lists with the same images are related one by one if elements with the same image are. -/
theorem forall₂_of_map_eq {R : α → β → Prop} {f : α → γ} {g : β → γ} {l : List α} {m : List β}
    (h : l.map f = m.map g) (hR : ∀ a ∈ l, ∀ b ∈ m, f a = g b → R a b) : List.Forall₂ R l m := by
  refine List.forall₂_iff_zip.mpr ⟨by simpa using congrArg List.length h, fun hmem => ?_⟩
  obtain ⟨ha, hb⟩ := List.of_mem_zip hmem
  exact hR _ ha _ hb (eq_of_mem_zip h hmem)

/-- In lists with the same images, none of them twice, elements with the same image stand in
the same place. -/
theorem mem_zip_of_map_eq {f : α → γ} {g : β → γ} {l : List α} {m : List β}
    (h : l.map f = m.map g) (hnodup : (l.map f).Nodup) {a : α} {b : β} (ha : a ∈ l) (hb : b ∈ m)
    (heq : f a = g b) : (a, b) ∈ l.zip m := by
  induction l generalizing m with
  | nil => exact absurd ha List.not_mem_nil
  | cons c l ih =>
    cases m with
    | nil => exact absurd hb List.not_mem_nil
    | cons d m =>
      obtain ⟨hhead, htail⟩ := List.cons.inj h
      obtain ⟨hnot, hnodup⟩ := List.nodup_cons.mp hnodup
      rw [List.zip_cons_cons, List.mem_cons]
      rcases List.mem_cons.mp ha with rfl | ha' <;> rcases List.mem_cons.mp hb with rfl | hb'
      · exact .inl rfl
      · exact absurd (heq ▸ htail ▸ List.mem_map_of_mem hb') hnot
      · exact absurd (hhead ▸ heq ▸ List.mem_map_of_mem ha') hnot
      · exact .inr (ih htail hnodup ha' hb')

/-- What is left of a list without repetitions are the elements that can be told to be
left. -/
theorem eq_filter_of_sublist {p : α → Bool} {l kept : List α} (hl : l.Nodup)
    (hsub : kept.Sublist l) (hmem : ∀ a ∈ l, a ∈ kept ↔ p a = true) : kept = l.filter p := by
  have hkept : kept.filter p = kept :=
    List.filter_eq_self.mpr fun a ha => (hmem a (hsub.subset ha)).mp ha
  have hperm : kept.Perm (l.filter p) := by
    refine (List.perm_ext_iff_of_nodup (hl.sublist hsub) (hl.filter p)).mpr fun a => ?_
    rw [List.mem_filter]
    exact ⟨fun ha => ⟨hsub.subset ha, (hmem a (hsub.subset ha)).mp ha⟩,
      fun ha => (hmem a ha.1).mpr ha.2⟩
  exact (hkept ▸ hsub.filter p).eq_of_length hperm.length_eq

/-- What holds of no elements holds of the whole list, or there is a first element with which it
fails. -/
theorem or_exists_first_not {P : List α → Prop} (h : P []) (l : List α) :
    P l ∨ ∃ kept a rest, l = kept ++ a :: rest ∧ P kept ∧ ¬P (kept ++ [a]) := by
  induction l generalizing P with
  | nil => exact .inl h
  | cons a l ih =>
    by_cases ha : P [a]
    · rcases ih (P := fun s => P (a :: s)) ha with hall | ⟨kept, b, rest, rfl, hkept, hb⟩
      · exact .inl hall
      · exact .inr ⟨a :: kept, b, rest, rfl, hkept, hb⟩
    · exact .inr ⟨[], a, l, rfl, h, ha⟩

/-- If what is made of two lists in a row is put together from what is made of each, the
elements of a list may be replaced by lists of which the same is made. -/
theorem flatMap_congr_of_append {F : List α → β} {g : β → β → β}
    (happend : ∀ l m, l ≠ [] → m ≠ [] → F (l ++ m) = g (F l) (F m)) {f : α → List α}
    {l : List α} (hf : ∀ a ∈ l, f a ≠ [] ∧ F (f a) = F [a]) : F (l.flatMap f) = F l := by
  induction l with
  | nil => rfl
  | cons a l ih =>
    have hrest := ih fun b hb => hf b (List.mem_cons_of_mem _ hb)
    obtain ⟨hne, ha⟩ := hf a (List.mem_cons_self ..)
    cases l with
    | nil => rw [List.flatMap_singleton, ha]
    | cons b l =>
      -- what comes of the rest is not empty, since there is something for `b` already
      have hnext : (b :: l).flatMap f ≠ [] := by
        intro hnil
        exact (hf b (by simp)).1 (List.flatMap_eq_nil_iff.mp hnil b (List.mem_cons_self ..))
      calc F ((a :: b :: l).flatMap f)
        _ = g (F (f a)) (F ((b :: l).flatMap f)) := happend _ _ hne hnext
        _ = g (F [a]) (F (b :: l)) := by rw [ha, hrest]
        _ = F (a :: b :: l) := (happend [a] (b :: l) (by simp) (by simp)).symm

/-- One element from each of several lists that have none in common. -/
theorem nodup_map_of_nodup_flatMap {f : α → List β} {g : α → β} {l : List α}
    (h : (l.flatMap f).Nodup) (hg : ∀ a, g a ∈ f a) : (l.map g).Nodup := by
  refine List.pairwise_map.mpr ((List.nodup_flatMap.mp h).2.imp ?_)
  intro a b hdisjoint heq
  exact hdisjoint (hg a) (heq ▸ hg b)

end

/-! ### Outcomes -/

section

variable {ε α β : Type}

theorem exists_of_bind_eq_ok {x : Except ε α} {f : α → Except ε β} {b : β}
    (h : (x >>= f) = .ok b) : ∃ a, x = .ok a ∧ f a = .ok b := by
  cases x with
  | error e => cases h
  | ok a => exact ⟨a, rfl, h⟩

/-- Outcomes for the elements of a list are one for the list. -/
theorem exists_mapM_eq_ok {f : α → Except ε β} {R : α → β → Prop} {l : List α}
    (h : ∀ a ∈ l, ∃ b, f a = .ok b ∧ R a b) : ∃ r, l.mapM f = .ok r ∧ List.Forall₂ R l r := by
  induction l with
  | nil => exact ⟨[], rfl, .nil⟩
  | cons a l ih =>
    obtain ⟨b, hb, hab⟩ := h a (List.mem_cons_self ..)
    obtain ⟨r, hr, hlr⟩ := ih fun c hc => h c (List.mem_cons_of_mem _ hc)
    refine ⟨b :: r, ?_, .cons hab hlr⟩
    rw [List.mapM_cons, hb, hr]
    rfl

/-- An outcome for every element of a list is one for the list. -/
theorem mapM_eq_ok {f : α → Except ε β} {g : α → β} {l : List α}
    (h : ∀ a ∈ l, f a = .ok (g a)) : l.mapM f = .ok (l.map g) := by
  induction l with
  | nil => rfl
  | cons a l ih =>
    rw [List.mapM_cons, h a (List.mem_cons_self ..), ih fun b hb => h b (List.mem_cons_of_mem _ hb)]
    rfl

/-- Steps that are the same for every element are the same one after the other. -/
theorem forM_congr {m : Type → Type} [Monad m] {l : List α} {f g : α → m PUnit}
    (h : ∀ a ∈ l, f a = g a) : forM l f = forM l g := by
  induction l with
  | nil => rfl
  | cons a l ih =>
    rw [List.forM_cons, List.forM_cons, h a (List.mem_cons_self ..),
      ih fun b hb => h b (List.mem_cons_of_mem _ hb)]

/-- An outcome for every pair of elements of two lists, which depends on the first of
them. -/
theorem mapM_zip_eq_ok {γ δ ζ : Type} {step : γ × δ → Except ε ζ} {f : α → γ} {g : β → δ}
    {out : α → ζ} {l : List α} {m : List β} (hlen : l.length = m.length)
    (h : ∀ a b, (a, b) ∈ l.zip m → step (f a, g b) = .ok (out a)) :
    ((l.map f).zip (m.map g)).mapM step = .ok (l.map out) := by
  have hfst : (l.zip m).map Prod.fst = l := List.map_fst_zip (Nat.le_of_eq hlen)
  rw [List.zip_map, List.mapM_map]
  refine (mapM_eq_ok (g := fun pair : α × β => out pair.1) fun pair => h pair.1 pair.2).trans ?_
  exact congrArg Except.ok (List.map_map.symm.trans (congrArg (List.map out) hfst))

/-- Outcomes for a list are outcomes for its elements. -/
theorem forall₂_of_mapM {f : α → Except ε β} {l : List α} {r : List β}
    (h : l.mapM f = .ok r) : List.Forall₂ (fun a b => f a = .ok b) l r := by
  induction l generalizing r with
  | nil =>
    cases h
    exact .nil
  | cons a l ih =>
    rw [List.mapM_cons] at h
    obtain ⟨b, hb, h⟩ := exists_of_bind_eq_ok h
    obtain ⟨rest, hrest, h⟩ := exists_of_bind_eq_ok h
    cases h
    exact .cons hb (ih hrest)

theorem exists_of_mem_mapM {f : α → Except ε β} {l : List α} {r : List β} {b : β}
    (h : l.mapM f = .ok r) (hb : b ∈ r) : ∃ a ∈ l, f a = .ok b :=
  exists_of_mem_forall₂ (R := fun a b => f a = .ok b) (forall₂_of_mapM h) hb

/-- What is made of the results for a list does not depend on the order of the list if it
does not depend on that of the results. -/
theorem mapM_bind_perm {γ : Type} {f : α → Option β} {g : List β → Option γ}
    (hg : ∀ r r', r.Perm r' → g r = g r') {l l' : List α} (h : l.Perm l') :
    (l.mapM f >>= g) = (l'.mapM f >>= g) := by
  induction h generalizing g with
  | nil => rfl
  | cons a _ ih =>
    rw [List.mapM_cons, List.mapM_cons]
    cases f a with
    | none => rfl
    | some b =>
      have hrest := ih (g := fun r => g (b :: r)) fun r r' hr => hg _ _ (hr.cons b)
      simpa [Option.bind_assoc] using hrest
  | swap a b l =>
    simp only [List.mapM_cons]
    cases f a with
    | none => cases f b <;> rfl
    | some c =>
      cases f b with
      | none => rfl
      | some d =>
        cases l.mapM f with
        | none => rfl
        | some r => exact hg _ _ (.swap ..)
  | trans _ _ ih ih' => exact (ih hg).trans (ih' hg)

/-- The computation succeeds, or fails with this cause. -/
def FailsWith (cause : ε) (x : Except ε α) : Prop := ∀ e, x = .error e → e = cause

namespace FailsWith

variable {cause : ε} {x : Except ε α} {f : α → Except ε β}

protected theorem ok (a : α) : FailsWith cause (.ok a : Except ε α) := fun _ h => by cases h

protected theorem error : FailsWith cause (.error cause : Except ε α) := fun _ h => by
  cases h
  rfl

protected theorem bind (hx : FailsWith cause x) (hf : ∀ a, x = .ok a → FailsWith cause (f a)) :
    FailsWith cause (x >>= f) := by
  cases x with
  | ok a => exact hf a rfl
  | error e =>
    intro e' h
    cases h
    exact hx e rfl

protected theorem mapM {l : List α} (h : ∀ a ∈ l, FailsWith cause (f a)) :
    FailsWith cause (l.mapM f) := by
  induction l with
  | nil => exact .ok []
  | cons a l ih =>
    rw [List.mapM_cons]
    exact .bind (h a (List.mem_cons_self ..)) fun b _ =>
      .bind (ih fun c hc => h c (List.mem_cons_of_mem _ hc)) fun r _ => .ok _

end FailsWith

end

end FormulaEditor
