import NestedCss.Proofs.Selector.Resolved
import NestedCss.Proofs.Selector.RoundTrip

/-!
# Stitched selectors

Nesting puts fragments next to each other that were read from different texts, and glues suffixes to
names, without reading the result again. So what is written can stand for other fragments than those
that it was written from.

* `Fragment.IsStitched`, **`Selector.isStitched_combine`**: what nesting keeps of the fragments;
* `Selector.KeepsSeams`: no type selector is spoilt by a suffix, and no neighbours run into one;
* **`Selector.readList_text_iff_keepsSeams`**: the selectors that are read back as they are written;
* `Selector.isMisread_spoilt`: some that are not.
-/

namespace NestedCss

open Scanner Selector Extend

/-! ## Fragments -/

/-- What is known of a fragment that was read, perhaps with a suffix glued to its name. Only the name of
a type can be left such that it is not read as one. -/
structure Fragment.IsStitched (f : Fragment) : Prop where
  legible : f.Legible ∨ ∃ name, f = .type name
  isFirm : f ≠ .space → IsFirm f.text
  lines : Source.HasPlainLines f.text

/-- A suffix as it was read. -/
structure Selector.IsSuffix (suffix : Text) : Prop where
  name : IsName suffix
  lines : Source.HasPlainLines suffix

namespace Fragment

variable {f g : Fragment} {suffix : Text}

theorem isStitched_of_legible (hf : f.Legible) (hlines : Source.HasPlainLines f.text) : f.IsStitched :=
  ⟨.inl hf, isFirm_text hf, hlines⟩

theorem IsStitched.isSuffix (h : (Fragment.nesting (some suffix)).IsStitched) : IsSuffix suffix := by
  obtain ⟨hlegible | ⟨_, h⟩, -, hlines⟩ := h
  · exact ⟨hlegible suffix rfl, fun c hc => hlines c (List.mem_cons_of_mem _ hc)⟩
  · cases h

theorem isStitched_type (h : IsSuffix suffix) : (Fragment.type suffix).IsStitched :=
  ⟨.inr ⟨suffix, rfl⟩, fun _ => h.name.isFirm, h.lines⟩

theorem hasPlainLines_append {t u : Text} (ht : Source.HasPlainLines t) (hu : Source.HasPlainLines u) :
    Source.HasPlainLines (t ++ u) :=
  List.forall_mem_append.mpr ⟨ht, hu⟩

/-- What is glued to a name makes another name, unless it is the name of a type. -/
theorem IsStitched.withSuffix? (hf : f.IsStitched) (hs : IsSuffix suffix)
    (h : f.withSuffix? suffix = some g) : g.IsStitched := by
  obtain ⟨hlegible, hfirm, hlines⟩ := hf
  match f, h with
  | .type name, rfl =>
    exact ⟨.inr ⟨_, rfl⟩, fun _ => (hfirm nofun).append suffix, hasPlainLines_append hlines hs.lines⟩
  | .id name, rfl | .className name, rfl | .placeholder name, rfl =>
    have hname : IsName name := hlegible.resolve_right nofun
    exact isStitched_of_legible (hname.append hs.name) (hasPlainLines_append hlines hs.lines)

end Fragment

namespace Selector

variable {s t : Selector} {fragments : List Fragment} {parents list : List Selector}
  {suffix : Option Text} {implicitParent : Bool}

/-! ## Nesting -/

/-- What is known of all fragments of a selector that nesting made. -/
def IsStitched (s : Selector) : Prop := ∀ f ∈ s.fragments, f.IsStitched

theorem isStitched_ofFragments (h : ∀ f ∈ fragments, f.IsStitched) :
    (ofFragments fragments).IsStitched :=
  fun f hf => h f (mem_of_mem_ofFragments hf)

theorem isStitched_resolveNesting (hs : s.IsStitched) (hsuffix : (Fragment.nesting suffix).IsStitched) :
    ∀ f ∈ resolveNesting suffix s, f.IsStitched := by
  cases suffix with
  | none => exact hs
  | some suffix =>
    simp only [resolveNesting, withSuffix]
    split
    · next glued hglued =>
      obtain ⟨last, hlast, hglued⟩ := Option.bind_eq_some_iff.mp hglued
      refine List.forall_mem_append.mpr ⟨fun f hf => hs f ((List.dropLast_sublist _).subset hf), ?_⟩
      have hlast' := hs last (List.mem_of_getLast? hlast)
      exact List.forall_mem_singleton.mpr (hlast'.withSuffix? hsuffix.isSuffix hglued)
    · exact List.forall_mem_append.mpr
        ⟨hs, List.forall_mem_singleton.mpr (Fragment.isStitched_type hsuffix.isSuffix)⟩

theorem isStitched_substituteIn (hfragments : ∀ f ∈ fragments, f.IsStitched)
    (hparents : ∀ p ∈ parents, p.IsStitched) : ∀ f ∈ substituteIn fragments parents, f.IsStitched := by
  fun_induction substituteIn fragments parents with
  | case1 suffix rest parent parents ih =>
    obtain ⟨hsuffix, hrest⟩ := List.forall_mem_cons.mp hfragments
    obtain ⟨hparent, hparents⟩ := List.forall_mem_cons.mp hparents
    exact List.forall_mem_append.mpr ⟨isStitched_resolveNesting hparent hsuffix, ih hrest hparents⟩
  | case2 f rest parents _ ih =>
    obtain ⟨hf, hrest⟩ := List.forall_mem_cons.mp hfragments
    exact List.forall_mem_cons.mpr ⟨hf, ih hrest hparents⟩
  | case3 => exact List.forall_mem_nil _

theorem isStitched_expansions (hparents : ∀ p ∈ parents, p.IsStitched) (hs : s.IsStitched) :
    ∀ t ∈ expansions parents implicitParent s, t.IsStitched := by
  intro t ht
  simp only [expansions] at ht
  split at ht
  · cases implicitParent with
    | false =>
      obtain rfl := List.mem_singleton.mp ht
      exact hs
    | true =>
      obtain ⟨p, hp, rfl⟩ := List.mem_map.mp (List.mem_filter.mp ht).1
      have hspace : Fragment.space.IsStitched :=
        Fragment.isStitched_of_legible trivial (List.forall_mem_singleton.mpr (by decide))
      exact isStitched_ofFragments
        (List.forall_mem_append.mpr ⟨hparents p hp, List.forall_mem_cons.mpr ⟨hspace, hs⟩⟩)
  · obtain ⟨choice, -, rfl⟩ := List.mem_map.mp (List.mem_filter.mp ht).1
    exact isStitched_ofFragments
      (isStitched_substituteIn hs (forall_mem_map_getD hparents (List.forall_mem_nil _) choice))

/-- **Nesting keeps fragments legible** but for names of types. -/
theorem isStitched_combine (hparents : ∀ p ∈ parents, p.IsStitched) (hlist : ∀ s ∈ list, s.IsStitched) :
    ∀ t ∈ combine parents list implicitParent, t.IsStitched := by
  intro t ht
  obtain ⟨s, hs, ht⟩ := exists_of_mem_combine ht
  refine isStitched_expansions (fun p hp => ?_) (hlist s hs) t ht
  split at hp
  · rw [List.mem_singleton.mp hp]
    exact List.forall_mem_nil _
  · exact hparents p hp

/-! ## Chains of lists -/

/-- What nested selector lists stand for, the outermost first. Each goes with whether its members are
descendants of what the lists around it stand for. -/
def combineAll (levels : List (List Selector × Bool)) : List Selector :=
  levels.foldl (fun parents level => combine parents level.1 level.2) []

/-- All lists of the chain were read from texts. -/
def AreRead (levels : List (List Selector × Bool)) : Prop :=
  ∀ level ∈ levels, ∃ allowed t, readList allowed (Source.ofText t) = .ok level.1

variable {levels : List (List Selector × Bool)}

theorem isStitched_of_readList {allowed : Allowance} {text : Text}
    (h : readList allowed (Source.ofText text) = .ok list) : ∀ s ∈ list, s.IsStitched := by
  have hscan := readList_eq_ok.mp h
  intro s hs f hf
  have hread := readOutOf_of_scanList hscan s hs
  have hlines : Source.HasPlainLines (' ' :: (Source.ofText text).chars) :=
    List.forall_mem_cons.mpr ⟨by decide, Source.hasPlainLines_chars text⟩
  exact Fragment.isStitched_of_legible (hread.legible f hf) fun c hc => hlines c (hread.subset f hf hc)

theorem isStitched_foldl (hparents : ∀ p ∈ parents, p.IsResolved ∧ p.IsStitched)
    (hread : AreRead levels) :
    ∀ t ∈ levels.foldl (fun parents level => combine parents level.1 level.2) parents,
      t.IsResolved ∧ t.IsStitched := by
  induction levels generalizing parents with
  | nil => exact hparents
  | cons level levels ih =>
    obtain ⟨⟨allowed, text, hlist⟩, hlevels⟩ := List.forall_mem_cons.mp hread
    have hscan := readList_eq_ok.mp hlist
    refine ih (fun t ht => ⟨?_, ?_⟩) hlevels
    · exact isResolved_combine (fun p hp => (hparents p hp).1.isPlain) hscan t ht
    · exact isStitched_combine (fun p hp => (hparents p hp).2) (isStitched_of_readList hlist) t ht

theorem isStitched_combineAll (hread : AreRead levels) :
    ∀ s ∈ combineAll levels, s.IsResolved ∧ s.IsStitched :=
  isStitched_foldl (List.forall_mem_nil _) hread

/-! ## Reading stitched selectors back -/

/-- The names of types are written as such, and no two neighbours run into one. -/
structure KeepsSeams (s : Selector) : Prop where
  type : ∀ name, .type name ∈ s.fragments → IsTypeName name
  seams : s.fragments.IsChain (Fragment.Meets .expanded)

theorem IsStitched.isLegible_iff (hs : s.IsStitched) : IsLegible .expanded s ↔ KeepsSeams s := by
  constructor
  · rintro ⟨hlegible, hseams⟩
    exact ⟨fun name hname => hlegible _ hname, hseams⟩
  · rintro ⟨htype, hseams⟩
    refine ⟨fun f hf => ?_, hseams⟩
    obtain hlegible | ⟨name, rfl⟩ := (hs f hf).legible
    · exact hlegible
    · exact htype name hf

theorem isReadable_of_isStitched (hs : s.IsResolved ∧ s.IsStitched) (parent : Bool) :
    ∀ f ∈ s.fragments, f.IsReadable ⟨parent, true⟩ := by
  intro f hf
  refine ⟨(hs.2 f hf).isFirm, fun hnesting => ?_, fun _ => rfl⟩
  rw [hs.1.isPlain f hf] at hnesting
  cases hnesting

theorem IsStitched.hasPlainLines (hs : s.IsStitched) (style : Style) :
    Source.HasPlainLines (s.text style) := by
  intro c hc
  rcases mem_textFrom hc with rfl | ⟨f, hf, hc⟩
  · decide
  · exact (hs f hf).lines c hc

theorem scanList_singleton_iff {allowed : Allowance} {input : Text} :
    scanList allowed input = .ok [s] [] ↔ scanMember allowed input = .ok s [] := by
  rw [scanList_eq_ok]
  constructor
  · rintro ⟨hmembers, -⟩
    cases hmembers with
    | last h => exact h
    | cons _ hrest => exact absurd rfl hrest.ne_nil
  · exact fun h => ⟨.last h, rfl⟩

theorem scanList_text_iff (hs : s.IsResolved ∧ s.IsStitched) (parent : Bool) :
    scanList ⟨parent, true⟩ (Source.ofText (s.text .expanded)).chars = .ok [s] [] ↔ KeepsSeams s := by
  have hreadable := isReadable_of_isStitched hs parent
  have hmember : scanMember ⟨parent, true⟩ (s.text .expanded ++ []) = .ok s [] ↔
      IsLegible .expanded s :=
    scanMember_text_iff hs.1.isEmpty hs.1.isNormal.isNormalFrom hreadable rfl
  rw [List.append_nil] at hmember
  rw [Source.chars_ofText (hs.2.hasPlainLines .expanded), scanList_singleton_iff, hmember,
    hs.2.isLegible_iff]

theorem readList_target
    (h : scanList ⟨false, true⟩ (Source.ofText (s.text .expanded)).chars = .ok [s] []) :
    Target.readList false (s.text .expanded) = some [⟨s, .strict⟩] := by
  have htarget : Target.ofSelector false s = ⟨s, .strict⟩ := by
    unfold Target.ofSelector
    split <;> rfl
  simp [Target.readList, h, htarget]

/-- **What nesting made is read back** from its written form if and only if its seams are kept. Among
the selectors whose seams are kept no two are written alike, and each can be extended as it is
written. -/
theorem readList_text_iff_keepsSeams (hread : AreRead levels) (hs : s ∈ combineAll levels) :
    (∀ parent, readList ⟨parent, true⟩ (Source.ofText (s.text .expanded)) = .ok [s] ↔ KeepsSeams s) ∧
      (KeepsSeams s →
        (∀ levels', AreRead levels' → ∀ s' ∈ combineAll levels', KeepsSeams s' →
          s'.text .expanded = s.text .expanded → s' = s) ∧
        Target.readList false (s.text .expanded) = some [⟨s, .strict⟩] ∧
        (⟨s, .strict⟩ : Target).accepts s) := by
  have hscan parent := scanList_text_iff (isStitched_combineAll hread s hs) parent
  refine ⟨fun parent => readList_eq_ok.trans (hscan parent), fun hkeeps => ⟨?_, ?_, ?_⟩⟩
  · intro levels' hread' s' hs' hkeeps' htext
    have hback := (scanList_text_iff (isStitched_combineAll hread' s' hs') false).mpr hkeeps'
    rw [htext, (hscan false).mpr hkeeps] at hback
    cases hback
    rfl
  · exact readList_target ((hscan false).mpr hkeeps)
  · simp [Target.accepts, same]

theorem areRead_pair (outerText innerText : Text) {outer inner : List Selector} {b b' : Bool}
    (houter : readList ⟨true, true⟩ (Source.ofText outerText) = .ok outer)
    (hinner : readList ⟨true, true⟩ (Source.ofText innerText) = .ok inner) :
    AreRead [(outer, b), (inner, b')] :=
  List.forall_mem_cons.mpr ⟨⟨_, _, houter⟩, List.forall_mem_singleton.mpr ⟨_, _, hinner⟩⟩

/-- A list in which the parent is referred to twice, once with a suffix. -/
def menuChain : List (List Selector × Bool) :=
  [([⟨[.className ['a'], .className ['b']]⟩,
      ⟨[.placeholder ['p'], .pseudo ⟨"before".toList, true, none⟩]⟩], false),
    ([⟨[.nesting (some "-c".toList), .combinator .child, .nesting none,
      .pseudo ⟨"hover".toList, false, none⟩]⟩], true)]

/-- What the inner list of `menuChain` stands for with the parents in their order. -/
def menuSelector : Selector :=
  ⟨[.className ['a'], .className "b-c".toList, .combinator .child, .placeholder ['p'],
    .pseudo ⟨"before".toList, true, none⟩, .pseudo ⟨"hover".toList, false, none⟩]⟩

theorem readList_text_menuSelector :
    AreRead menuChain ∧ menuSelector ∈ combineAll menuChain ∧ KeepsSeams menuSelector ∧
      Target.readList false ".a.b-c > %p::before:hover".toList = some [⟨menuSelector, .strict⟩] := by
  have hread : AreRead menuChain :=
    areRead_pair ".a.b, %p::before".toList "&-c>&:hover".toList (by decide +kernel) (by decide +kernel)
  have hmem : menuSelector ∈ combineAll menuChain := by decide +kernel
  obtain ⟨hiff, hkept⟩ := readList_text_iff_keepsSeams hread hmem
  have hkeeps : KeepsSeams menuSelector := (hiff false).mp (by decide +kernel)
  exact ⟨hread, hmem, hkeeps, (hkept hkeeps).2.1⟩

/-- The chain stands for `made`, but from the written form of that `read` is read, which is written
alike and does not find `made` when it is extended. -/
def IsMisread (levels : List (List Selector × Bool)) (made read : Selector) : Prop :=
  AreRead levels ∧ made ∈ combineAll levels ∧
    readList ⟨false, true⟩ (Source.ofText (made.text .expanded)) = .ok [read] ∧ read ≠ made ∧
    Target.readList false (made.text .expanded) = some [⟨read, .strict⟩] ∧
    (⟨read, .strict⟩ : Target).accepts made = false ∧
    read ∈ combineAll [([read], false)] ∧ read.text .expanded = made.text .expanded

/-- A pseudo-class goes on with a suffix, a suffix is glued to `*`, an escape takes the blank behind it,
and a type becomes a namespace. -/
theorem isMisread_spoilt :
    IsMisread
      [([⟨[.pseudo ⟨"hover".toList, false, none⟩]⟩], false), ([⟨[.nesting (some "-x".toList)]⟩], false)]
      ⟨[.pseudo ⟨"hover".toList, false, none⟩, .type "-x".toList]⟩
      ⟨[.pseudo ⟨"hover-x".toList, false, none⟩]⟩ ∧
    IsMisread
      [([⟨[.type ['*']]⟩], false), ([⟨[.nesting (some "-x".toList)]⟩], false)]
      ⟨[.type "*-x".toList]⟩ ⟨[.type ['*'], .type "-x".toList]⟩ ∧
    IsMisread
      [([⟨[.className ['\\', '6', '1']]⟩], false), ([⟨[.type ['b']]⟩], true)]
      ⟨[.className ['\\', '6', '1'], .space, .type ['b']]⟩
      ⟨[.className ['\\', '6', '1', ' ', 'b']]⟩ ∧
    IsMisread
      [([⟨[.type ['a']]⟩], false), ([⟨[.nesting none, .type "|b".toList]⟩], false)]
      ⟨[.type ['a'], .type "|b".toList]⟩ ⟨[.type "a|b".toList]⟩ := by
  refine ⟨⟨?_, by decide +kernel⟩, ⟨?_, by decide +kernel⟩, ⟨?_, by decide +kernel⟩,
    ⟨?_, by decide +kernel⟩⟩
  · exact areRead_pair ":hover".toList "&-x".toList (by decide +kernel) (by decide +kernel)
  · exact areRead_pair "*".toList "&-x".toList (by decide +kernel) (by decide +kernel)
  · exact areRead_pair ".\\61".toList "b".toList (by decide +kernel) (by decide +kernel)
  · exact areRead_pair "a".toList "&|b".toList (by decide +kernel) (by decide +kernel)

end Selector

end NestedCss
