import NestedCss.Proofs.Selector.Resolved

/-!
# Substitution as text

Parents are put in the places of references fragment by fragment, and suffixes are glued to names. As
long as no parent brings a combinator to its ends, that is what replacing `&` in the written form would
do.

* `Selector.pieces`: what is written for each fragment of a selector;
* `Selector.insertTexts`: the written form with other texts in the places of `&`;
* `Selector.IsWhole`: fragments that can be put anywhere;
* `Selector.isNormalFrom_substituteIn`: what is put together is in normal form already;
* **`Selector.text_substitute`**: substitution of parents is substitution of their texts.
-/

namespace NestedCss

/-- Whether the fragment is neither white space nor a combinator. -/
def Fragment.isSimple (f : Fragment) : Bool := !f.isSpace && !f.isCombinator

theorem Fragment.isSimple_iff {f : Fragment} : f.isSimple ↔ f ≠ .space ∧ f.isCombinator = false := by
  rw [isSimple, Bool.and_eq_true, Bool.not_eq_true', Bool.not_eq_true', isSpace_eq_false_iff]

namespace Selector

variable {style : Style} {joins isFirst : Bool} {fragments a b rest : List Fragment} {f g : Fragment}
  {s : Selector} {parents : List Selector} {suffix : Text}

/-! ## Pieces -/

/-- The fragments, each with what is written for it in its place, where `isFirst` says whether they
start the selector. -/
def piecesFrom (style : Style) (isFirst : Bool) : List Fragment → List (Fragment × Text)
  | [] => []
  | f :: rest => (f, fragmentText style isFirst rest.isEmpty f) :: piecesFrom style false rest

/-- The fragments of a selector, each with what is written for it. -/
def pieces (s : Selector) (style : Style) : List (Fragment × Text) := piecesFrom style true s.fragments

/-- What is written with the texts in the places of `&`, in order. A suffix of `&` stays, and so does
all else. -/
def insertTexts : List (Fragment × Text) → List Text → Text
  | (.nesting suffix, _) :: rest, t :: texts => t ++ suffix.getD [] ++ insertTexts rest texts
  | (_, written) :: rest, texts => written ++ insertTexts rest texts
  | [], _ => []

theorem textFrom_eq_flatMap (style : Style) (isFirst : Bool) (fragments : List Fragment) :
    textFrom style isFirst fragments = (piecesFrom style isFirst fragments).flatMap Prod.snd := by
  induction fragments generalizing isFirst with
  | nil => rfl
  | cons f rest ih => rw [textFrom, ih, piecesFrom, List.flatMap_cons]

theorem map_fst_piecesFrom (style : Style) (isFirst : Bool) (fragments : List Fragment) :
    (piecesFrom style isFirst fragments).map Prod.fst = fragments := by
  induction fragments generalizing isFirst with
  | nil => rfl
  | cons f rest ih => rw [piecesFrom, List.map_cons, ih]

theorem fragmentText_of_isSimple (h : f.isSimple) (isFirst isLast : Bool) :
    fragmentText style isFirst isLast f = f.text := by
  rw [fragmentText, (Fragment.isSimple_iff.mp h).2, Bool.false_and, if_neg Bool.false_ne_true]

/-- A reference is written as `&` and its suffix, wherever it stands. -/
theorem written_of_mem_piecesFrom {suffix : Option Text} {written : Text}
    (h : (.nesting suffix, written) ∈ piecesFrom style isFirst fragments) :
    written = '&' :: suffix.getD [] := by
  induction fragments generalizing isFirst with
  | nil => cases h
  | cons f rest ih =>
    rcases List.mem_cons.mp h with h | h
    · cases h
      exact fragmentText_of_isSimple rfl _ _
    · exact ih h

/-! ## Whole selectors -/

/-- Fragments that stay as they are whatever is put around them: in normal form, with neither white
space nor a combinator at their ends. -/
structure IsWhole (fragments : List Fragment) : Prop where
  normal : isNormalFrom false fragments
  starts : startsCompound fragments
  ends : ∀ f ∈ fragments.getLast?, f.isSimple

theorem startsCompound_append (h : startsCompound a) (b : List Fragment) : startsCompound (a ++ b) := by
  fun_induction startsCompound a with
  | case1 => cases h
  | case2 rest ih => exact ih h
  | case3 f rest hf => rwa [List.cons_append, startsCompound_cons hf]

theorem isNormalFrom_append (ha : isNormalFrom joins a) (hne : a ≠ [])
    (hends : ∀ f ∈ a.getLast?, f.isSimple) (hb : isNormalFrom true b) :
    isNormalFrom joins (a ++ b) := by
  fun_induction isNormalFrom joins a with
  | case1 => exact absurd rfl hne
  | case2 joins rest ih =>
    simp only [Bool.and_eq_true] at ha
    have hrest := ne_nil_of_startsCompound ha.1.2
    rw [List.getLast?_cons_of_ne_nil hrest] at hends
    simp [isNormalFrom, ha.1.1, startsCompound_append ha.1.2, ih ha.2 hrest hends]
  | case3 joins f rest hf ih =>
    rw [List.cons_append, isNormalFrom_cons hf]
    cases rest with
    | nil =>
      rwa [(Fragment.isSimple_iff.mp (hends f rfl)).2, Bool.not_false]
    | cons g rest => exact ih ha (List.cons_ne_nil g rest) (by rwa [List.getLast?_cons_cons] at hends)

/-- What is written for fragments does not depend on what comes behind them, if they do not end in a
combinator. -/
theorem textFrom_append (hne : a ≠ []) (hends : ∀ f ∈ a.getLast?, f.isSimple) (b : List Fragment) :
    textFrom style isFirst (a ++ b) = textFrom style isFirst a ++ textFrom style false b := by
  induction a generalizing isFirst with
  | nil => exact absurd rfl hne
  | cons f a ih =>
    cases a with
    | nil =>
      have hf : f.isSimple := hends f rfl
      simp only [List.singleton_append, textFrom, fragmentText_of_isSimple hf, List.append_nil]
    | cons g a =>
      rw [List.getLast?_cons_cons] at hends
      rw [List.cons_append, textFrom, ih (List.cons_ne_nil g a) hends, ← List.append_assoc]
      rfl

namespace IsWhole

theorem ne_nil (h : IsWhole fragments) : fragments ≠ [] := ne_nil_of_startsCompound h.starts

/-- What is written for them does not depend on what comes in front either. -/
theorem textFrom_eq (h : IsWhole fragments) (isFirst : Bool) :
    textFrom style isFirst fragments = text style ⟨fragments⟩ := by
  cases fragments with
  | nil => rfl
  | cons f rest =>
    have hspace := ne_space_of_isNormalFrom h.normal
    have hcombinator := h.starts
    rw [startsCompound_cons hspace, Bool.not_eq_true'] at hcombinator
    have hf : f.isSimple := Fragment.isSimple_iff.mpr ⟨hspace, hcombinator⟩
    simp only [text, textFrom, fragmentText_of_isSimple hf]

theorem append (h : IsWhole a) (hb : isNormalFrom true b) (hends : ∀ f ∈ (a ++ b).getLast?, f.isSimple) :
    IsWhole (a ++ b) :=
  ⟨isNormalFrom_append h.normal h.ne_nil h.ends hb, startsCompound_append h.starts b, hends⟩

end IsWhole

/-! ## Suffixes -/

theorem startsCompound_of_isSimple (hf : f.isSimple) (rest : List Fragment) :
    startsCompound (f :: rest) := by
  obtain ⟨hspace, hcombinator⟩ := Fragment.isSimple_iff.mp hf
  rw [startsCompound_cons hspace, hcombinator, Bool.not_false]

theorem startsCompound_concat (hf : f.isSimple) (hg : g.isSimple) (a : List Fragment) :
    startsCompound (a ++ [g]) = startsCompound (a ++ [f]) := by
  induction a with
  | nil => rw [List.nil_append, List.nil_append, startsCompound_of_isSimple hf,
      startsCompound_of_isSimple hg]
  | cons h a ih =>
    by_cases hspace : h = .space
    · subst hspace
      exact ih
    · rw [List.cons_append, List.cons_append, startsCompound_cons hspace, startsCompound_cons hspace]

theorem isNormalFrom_concat (hf : f.isSimple) (hg : g.isSimple) (a : List Fragment) :
    isNormalFrom joins (a ++ [g]) = isNormalFrom joins (a ++ [f]) := by
  induction a generalizing joins with
  | nil =>
    rw [List.nil_append, List.nil_append, isNormalFrom_cons (Fragment.isSimple_iff.mp hf).1,
      isNormalFrom_cons (Fragment.isSimple_iff.mp hg).1]
    rfl
  | cons h a ih =>
    rw [List.cons_append, List.cons_append]
    by_cases hspace : h = .space
    · subst hspace
      rw [isNormalFrom, isNormalFrom, startsCompound_concat hf hg, ih]
    · rw [isNormalFrom_cons hspace, isNormalFrom_cons hspace, ih]

theorem textFrom_concat (hf : f.isSimple) (hg : g.isSimple) (htext : g.text = f.text ++ suffix)
    (a : List Fragment) :
    textFrom style isFirst (a ++ [g]) = textFrom style isFirst (a ++ [f]) ++ suffix := by
  induction a generalizing isFirst with
  | nil =>
    simp only [List.nil_append, textFrom, fragmentText_of_isSimple hf, fragmentText_of_isSimple hg,
      htext, List.append_nil]
  | cons h a ih =>
    have hnil (f : Fragment) : (a ++ [f]).isEmpty = false := by simp
    rw [List.cons_append, List.cons_append, textFrom, textFrom, ih, hnil, hnil, List.append_assoc]

/-- A suffix is written behind the name that it is glued to. -/
theorem glued_of_withSuffix? (h : f.withSuffix? suffix = some g) :
    f.isSimple ∧ g.isSimple ∧ g.text = f.text ++ suffix := by
  match f, h with
  | .type name, rfl | .id name, rfl | .className name, rfl | .placeholder name, rfl =>
    exact ⟨rfl, rfl, rfl⟩

/-- **A suffix is written behind the parent**, whatever that ends in. -/
theorem IsWhole.withSuffix (h : IsWhole fragments) (suffix : Text) :
    IsWhole (withSuffix fragments suffix) ∧
      ∀ style, text style ⟨withSuffix fragments suffix⟩ = text style ⟨fragments⟩ ++ suffix := by
  rw [Selector.withSuffix]
  split
  · next last hlast =>
    obtain ⟨f, hf, hglued⟩ := Option.bind_eq_some_iff.mp hlast
    obtain ⟨hsimple, hsimple', htext⟩ := glued_of_withSuffix? hglued
    obtain ⟨a, rfl⟩ := List.getLast?_eq_some_iff.mp hf
    rw [List.dropLast_concat]
    refine ⟨⟨?_, ?_, fun g hg => ?_⟩, fun style => textFrom_concat hsimple hsimple' htext a⟩
    · rw [isNormalFrom_concat hsimple hsimple']
      exact h.normal
    · rw [startsCompound_concat hsimple hsimple']
      exact h.starts
    · rw [List.getLast?_concat] at hg
      cases hg
      exact hsimple'
  · refine ⟨h.append rfl fun f hf => ?_, fun style => ?_⟩
    · rw [List.getLast?_concat] at hf
      cases hf
      rfl
    · rw [text, textFrom_append h.ne_nil h.ends]
      simp [text, textFrom, fragmentText, Fragment.isCombinator, Fragment.text]

theorem IsWhole.resolveNesting {parent : Selector} (h : IsWhole parent.fragments)
    (suffix : Option Text) : IsWhole (resolveNesting suffix parent) ∧
      ∀ style, text style ⟨resolveNesting suffix parent⟩ = parent.text style ++ suffix.getD [] := by
  cases suffix with
  | none => exact ⟨h, fun _ => (List.append_nil _).symm⟩
  | some suffix => exact h.withSuffix suffix

/-! ## Substitution -/

theorem isEmpty_substituteIn (hparents : ∀ p ∈ parents, IsWhole p.fragments) :
    (substituteIn fragments parents).isEmpty = fragments.isEmpty := by
  fun_cases substituteIn fragments parents with
  | case1 suffix rest parent parents =>
    obtain ⟨hwhole, -⟩ := (hparents parent List.mem_cons_self).resolveNesting suffix
    simp [hwhole.ne_nil]
  | case2 => rfl
  | case3 => rfl

theorem startsCompound_substituteIn (hparents : ∀ p ∈ parents, IsWhole p.fragments) :
    startsCompound (substituteIn fragments parents) = startsCompound fragments := by
  fun_induction substituteIn fragments parents with
  | case1 suffix rest parent parents ih =>
    obtain ⟨hwhole, -⟩ := (hparents parent List.mem_cons_self).resolveNesting suffix
    exact startsCompound_append hwhole.starts _
  | case2 f rest parents hf ih =>
    by_cases hspace : f = .space
    · subst hspace
      exact ih hparents
    · rw [startsCompound_cons hspace, startsCompound_cons hspace]
  | case3 => rfl

/-- **What is put together is in normal form** as it is. -/
theorem isNormalFrom_substituteIn (hparents : ∀ p ∈ parents, IsWhole p.fragments)
    (h : isNormalFrom joins fragments) : isNormalFrom joins (substituteIn fragments parents) := by
  fun_induction substituteIn fragments parents generalizing joins with
  | case1 suffix rest parent parents ih =>
    obtain ⟨hparent, hrest⟩ := List.forall_mem_cons.mp hparents
    obtain ⟨hwhole, -⟩ := hparent.resolveNesting suffix
    change isNormalFrom true rest at h
    exact isNormalFrom_append (isNormalFrom_of_false hwhole.normal) hwhole.ne_nil hwhole.ends (ih hrest h)
  | case2 f rest parents hf ih =>
    by_cases hspace : f = .space
    · subst hspace
      simp only [isNormalFrom, Bool.and_eq_true] at h ⊢
      exact ⟨⟨h.1.1, (startsCompound_substituteIn hparents).trans h.1.2⟩, ih hparents h.2⟩
    · rw [isNormalFrom_cons hspace] at h ⊢
      exact ih hparents h
  | case3 => rfl

theorem textFrom_substituteIn (hparents : ∀ p ∈ parents, IsWhole p.fragments) :
    textFrom style isFirst (substituteIn fragments parents) =
      insertTexts (piecesFrom style isFirst fragments) (parents.map (text style)) := by
  fun_induction substituteIn fragments parents generalizing isFirst with
  | case1 suffix rest parent parents ih =>
    obtain ⟨hparent, hrest⟩ := List.forall_mem_cons.mp hparents
    obtain ⟨hwhole, htext⟩ := hparent.resolveNesting suffix
    rw [textFrom_append hwhole.ne_nil hwhole.ends, hwhole.textFrom_eq, htext, ih hrest]
    rfl
  | case2 f rest parents hf ih =>
    rw [textFrom, isEmpty_substituteIn hparents, ih hparents, piecesFrom, insertTexts]
    intro suffix t texts htexts hnesting
    obtain ⟨parent, parents, rfl, -, -⟩ := List.map_eq_cons_iff.mp htexts
    exact hf suffix parent parents rfl hnesting
  | case3 => rfl

/-- The selector can be put in the place of a reference: it is not empty, and neither starts nor ends
with a combinator. -/
structure IsAttachable (s : Selector) : Prop where
  isEmpty : s.isEmpty = false
  isNormal : s.IsNormal
  head : ∀ f ∈ s.fragments.head?, f.isCombinator = false
  last : ∀ f ∈ s.fragments.getLast?, f.isCombinator = false

theorem IsAttachable.isWhole (h : s.IsAttachable) : IsWhole s.fragments := by
  obtain ⟨hempty, hnormal, hhead, hlast⟩ := h
  refine ⟨hnormal.isNormalFrom, ?_, fun f hf => ?_⟩
  · obtain ⟨fragments⟩ := s
    cases fragments with
    | nil => cases hempty
    | cons f rest =>
      have hspace : f ≠ .space := fun hspace => hnormal.head (congrArg some hspace)
      rw [startsCompound_cons hspace, hhead f rfl, Bool.not_false]
  · have hspace : f ≠ .space := by
      rintro rfl
      exact hnormal.last hf
    exact Fragment.isSimple_iff.mpr ⟨hspace, hlast f hf⟩

/-- **Substitution of parents is substitution of their texts.** What is written for a selector is what
is written for its fragments, `&` and its suffix for a reference; and what is written after the
substitution is the same with the text of each parent in the place of its `&`. -/
theorem text_substitute (hs : s.IsNormal) (hparents : ∀ p ∈ parents, p.IsAttachable) (style : Style) :
    (s.pieces style).map Prod.fst = s.fragments ∧ s.text style = (s.pieces style).flatMap Prod.snd ∧
      (∀ suffix written, (.nesting suffix, written) ∈ s.pieces style → written = '&' :: suffix.getD []) ∧
      (s.substitute parents).text style = insertTexts (s.pieces style) (parents.map (text style)) := by
  have hwhole : ∀ p ∈ parents, IsWhole p.fragments := fun p hp => (hparents p hp).isWhole
  refine ⟨map_fst_piecesFrom _ _ _, textFrom_eq_flatMap _ _ _,
    fun _ _ => written_of_mem_piecesFrom, ?_⟩
  rw [substitute, ofFragments, normalizeFrom_eq_self (isNormalFrom_substituteIn hwhole hs.isNormalFrom)]
  exact textFrom_substituteIn hwhole

/-- The selector `.x &-c > &-d:hover`. -/
def menuReference : Selector :=
  ⟨[.className ['x'], .space, .nesting (some "-c".toList), .combinator .child,
    .nesting (some "-d".toList), .pseudo ⟨"hover".toList, false, none⟩]⟩

/-- The selectors `a > .b` and `%p::before`, for the two references. -/
def menuParents : List Selector :=
  [⟨[.type ['a'], .combinator .child, .className ['b']]⟩,
    ⟨[.placeholder ['p'], .pseudo ⟨"before".toList, true, none⟩]⟩]

/-- A suffix is glued to the name at the end of `a > .b` and comes behind `%p::before`. -/
theorem text_substitute_menuReference :
    menuReference.IsNormal ∧ (∀ p ∈ menuParents, p.IsAttachable) ∧
      (menuReference.substitute menuParents).text .expanded =
        ".x a > .b-c > %p::before-d:hover".toList := by
  have hs : menuReference.IsNormal := isNormal_of_isNormalFrom rfl
  have hparents : ∀ p ∈ menuParents, p.IsAttachable := by
    refine List.forall_mem_cons.mpr ⟨?_, List.forall_mem_singleton.mpr ?_⟩ <;>
      exact ⟨rfl, isNormal_of_isNormalFrom rfl, by simp [Fragment.isCombinator],
        by simp [Fragment.isCombinator]⟩
  refine ⟨hs, hparents, ?_⟩
  rw [(text_substitute hs hparents .expanded).2.2.2]
  decide +kernel

end Selector

end NestedCss
