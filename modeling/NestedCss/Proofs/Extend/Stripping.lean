import Mathlib.Data.List.DropRight
import Mathlib.Tactic.TFAE
import NestedCss.Proofs.Extend.Quoting

/-!
# Stripping

The children of a rule nest under its selectors without the markers at their ends. A copy of the rule in an
at-rule is registered with these, and then they are stripped once more. That changes nothing unless white
space parts the markers of a selector: it goes with the markers behind it, and those in front of it come to
stand at the end.

* `Selector.IsExtending`: the fragments end in well-formed markers, with something in front of them;
* `Selector.takeExtends?_eq_some_iff`: what is left of such a selector, and what it asks for;
* `Selector.isExtending_ofFragments`: white space at the end is left out and nothing else there;
* `Selector.IsTorn`: white space parts the markers;
* **`Extend.stripExtends_tfae`**: stripping a list twice.
-/

namespace NestedCss

open Extend (Rule Target)

namespace Fragment

/-- What a fragment lists if it is a marker. -/
def extendTargets? : Fragment → Option Text
  | .pseudo p => p.extendTargets?
  | _ => none

/-- Whether the fragment is a marker. -/
def isMarker (f : Fragment) : Bool := f.extendTargets?.isSome

/-- The targets of a marker, unless it is malformed. -/
def targets? (f : Fragment) : Option (List Target) := f.extendTargets?.bind (Target.readList true)

theorem isMarker_pseudo (p : Pseudo) : isMarker (.pseudo p) = p.isExtend := rfl

theorem ne_space_of_isMarker {f : Fragment} (h : f.isMarker) : f ≠ .space := by
  rintro rfl
  cases h

theorem isCombinator_of_isMarker {f : Fragment} (h : f.isMarker) : f.isCombinator = false := by
  cases f with
  | pseudo => rfl
  | _ => cases h

end Fragment

namespace Selector

variable {fragments front run gap : List Fragment} {f : Fragment} {s t : Selector} {joins : Bool}

/-! ## Markers at the end -/

/-- The fragments end in markers, none of which is malformed, with something in front of them. -/
@[mk_iff]
structure IsExtending (fragments : List Fragment) : Prop where
  ne_nil : fragments.rtakeWhile Fragment.isMarker ≠ []
  targets : ∀ f ∈ fragments.rtakeWhile Fragment.isMarker, f.targets?.isSome
  front : ∃ f ∈ fragments.rdropWhile Fragment.isMarker, f ≠ .space

instance : DecidablePred IsExtending := fun _ => decidable_of_iff _ (isExtending_iff _).symm

theorem rtakeWhile_append (hfront : ∀ f ∈ front.getLast?, f.isMarker = false)
    (hrun : ∀ f ∈ run, f.isMarker) : (front ++ run).rtakeWhile Fragment.isMarker = run := by
  have hnone : front.reverse.takeWhile Fragment.isMarker = [] := by
    cases hreverse : front.reverse with
    | nil => rfl
    | cons f rest =>
      rw [List.takeWhile_cons_of_neg]
      rw [hfront f (by rw [← List.head?_reverse, hreverse]; rfl)]
      exact Bool.false_ne_true
  rw [List.rtakeWhile, List.reverse_append, List.takeWhile_append_of_pos (by simpa using hrun), hnone,
    List.append_nil, List.reverse_reverse]

theorem rdropWhile_append (hfront : ∀ f ∈ front.getLast?, f.isMarker = false)
    (hrun : ∀ f ∈ run, f.isMarker) : (front ++ run).rdropWhile Fragment.isMarker = front := by
  have h : (front ++ run).rdropWhile Fragment.isMarker ++ (front ++ run).rtakeWhile Fragment.isMarker =
      front ++ run := List.rdropWhile_append_rtakeWhile
  rw [rtakeWhile_append hfront hrun] at h
  exact List.append_cancel_right h

theorem isExtending_append (hfront : ∀ f ∈ front.getLast?, f.isMarker = false)
    (hrun : ∀ f ∈ run, f.isMarker) : IsExtending (front ++ run) ↔
      run ≠ [] ∧ (∀ f ∈ run, f.targets?.isSome) ∧ ∃ f ∈ front, f ≠ .space := by
  rw [isExtending_iff, rtakeWhile_append hfront hrun, rdropWhile_append hfront hrun]

theorem isMarker_of_mem_getLast?_rdropWhile (fragments : List Fragment) :
    ∀ f ∈ (fragments.rdropWhile Fragment.isMarker).getLast?, f.isMarker = false := by
  intro f hf
  obtain ⟨hne, rfl⟩ := List.mem_getLast?_eq_getLast hf
  exact Bool.eq_false_iff.mpr (List.rdropWhile_last_not _ _ hne)

/-! ## White space at the end -/

theorem startsCompound_append_cons (hf : f ≠ .space) (front rest : List Fragment) :
    startsCompound (front ++ f :: rest) = startsCompound (front ++ [f]) := by
  induction front with
  | nil => rw [List.nil_append, List.nil_append, startsCompound_cons hf, startsCompound_cons hf]
  | cons g front ih =>
    by_cases hg : g = .space
    · subst hg
      exact ih
    · rw [List.cons_append, List.cons_append, startsCompound_cons hg, startsCompound_cons hg]

/-- What is kept up to a fragment other than white space does not depend on what follows. -/
theorem exists_normalizeFrom_append_cons (joins : Bool) (front : List Fragment) (hf : f ≠ .space) :
    ∃ kept, ∀ rest, normalizeFrom joins (front ++ f :: rest) =
      kept ++ f :: normalizeFrom (!f.isCombinator) rest := by
  induction front generalizing joins with
  | nil => exact ⟨[], fun rest => normalizeFrom_cons hf⟩
  | cons g front ih =>
    by_cases hg : g = .space
    · subst hg
      obtain ⟨kept, hkept⟩ := ih false
      by_cases hspace : joins && startsCompound (front ++ [f])
      · refine ⟨.space :: kept, fun rest => ?_⟩
        rw [List.cons_append, normalizeFrom, startsCompound_append_cons hf, if_pos hspace, hkept]
        rfl
      · refine ⟨kept, fun rest => ?_⟩
        rw [List.cons_append, normalizeFrom, startsCompound_append_cons hf, if_neg hspace, hkept]
    · obtain ⟨kept, hkept⟩ := ih (!g.isCombinator)
      refine ⟨g :: kept, fun rest => ?_⟩
      rw [List.cons_append, normalizeFrom_cons hg, hkept]
      rfl

theorem startsCompound_gap (hgap : ∀ g ∈ gap, g = .space) (rest : List Fragment) :
    startsCompound (gap ++ rest) = startsCompound rest := by
  induction gap with
  | nil => rfl
  | cons g gap ih =>
    obtain ⟨rfl, htail⟩ := List.forall_mem_cons.mp hgap
    exact ih htail

/-- White space in front of something other than a combinator is kept once, if there is something that it
joins. -/
theorem normalizeFrom_gap (hgap : ∀ g ∈ gap, g = .space) (hf : f ≠ .space)
    (hcombinator : f.isCombinator = false) (rest : List Fragment) :
    normalizeFrom joins (gap ++ f :: rest) =
      (if joins && !gap.isEmpty then [.space] else []) ++ f :: normalizeFrom true rest := by
  induction gap generalizing joins with
  | nil => simp [normalizeFrom_cons hf, hcombinator]
  | cons g gap ih =>
    obtain ⟨rfl, htail⟩ := List.forall_mem_cons.mp hgap
    rw [List.cons_append, normalizeFrom, startsCompound_gap htail, startsCompound_cons hf, hcombinator,
      ih htail]
    cases joins <;> rfl

theorem normalizeFrom_of_forall_eq_space (hgap : ∀ g ∈ gap, g = .space) : normalizeFrom joins gap = [] := by
  induction gap generalizing joins with
  | nil => rfl
  | cons g gap ih =>
    obtain ⟨rfl, htail⟩ := List.forall_mem_cons.mp hgap
    have hstarts : startsCompound gap = false := by
      rw [← List.append_nil gap, startsCompound_gap htail]
      rfl
    rw [normalizeFrom, hstarts, Bool.and_false, if_neg Bool.false_ne_true, ih htail]

/-- Fragments end in white space, with a fragment in front of it that is none, unless they are nothing but
white space. -/
theorem forall_eq_space_or_exists (fragments : List Fragment) : (∀ f ∈ fragments, f = .space) ∨
    ∃ front f gap, fragments = front ++ f :: gap ∧ f ≠ .space ∧ ∀ g ∈ gap, g = .space := by
  induction fragments with
  | nil => exact .inl fun f hf => nomatch hf
  | cons g fragments ih =>
    obtain hspaces | ⟨front, f, gap, rfl, hf, hgap⟩ := ih
    · by_cases hg : g = .space
      · exact .inl (List.forall_mem_cons.mpr ⟨hg, hspaces⟩)
      · exact .inr ⟨[], g, fragments, rfl, hg, hspaces⟩
    · exact .inr ⟨g :: front, f, gap, rfl, hf, hgap⟩

theorem isEmpty_ofFragments : (ofFragments fragments).isEmpty = false ↔ ∃ f ∈ fragments, f ≠ .space := by
  obtain hspaces | ⟨front, f, gap, rfl, hf, hgap⟩ := forall_eq_space_or_exists fragments
  · rw [ofFragments, normalizeFrom_of_forall_eq_space hspaces]
    simpa [isEmpty] using hspaces
  · obtain ⟨kept, hkept⟩ := exists_normalizeFrom_append_cons false front hf
    rw [ofFragments, hkept, isEmpty]
    exact iff_of_true (by simp) ⟨f, by simp, hf⟩

theorem rdropWhile_isSpace (hf : f ≠ .space) (hgap : ∀ g ∈ gap, g = .space) :
    (front ++ f :: gap).rdropWhile Fragment.isSpace = front ++ [f] := by
  have hspaces : ∀ g ∈ gap.reverse, g.isSpace := fun g hg =>
    Fragment.isSpace_eq_true_iff.mpr (hgap g (List.mem_reverse.mp hg))
  rw [List.rdropWhile, List.reverse_append, List.reverse_cons, List.append_assoc,
    List.dropWhile_append_of_pos hspaces, List.cons_append, List.dropWhile_cons_of_neg]
  · simp
  · rwa [Fragment.isSpace_eq_true_iff]

theorem normalizeFrom_run (hrun : ∀ f ∈ run, f.isMarker) : normalizeFrom true run = run := by
  induction run with
  | nil => rfl
  | cons f run ih =>
    obtain ⟨hf, hrun⟩ := List.forall_mem_cons.mp hrun
    rw [normalizeFrom_cons (Fragment.ne_space_of_isMarker hf), Fragment.isCombinator_of_isMarker hf,
      Bool.not_false, ih hrun]

/-- The markers at the end are kept as they are, and nothing that is kept of what is in front of them becomes
one more of them. -/
theorem exists_normalizeFrom_append_run (hfront : ∀ f ∈ front.getLast?, f.isMarker = false)
    (hne : run ≠ []) (hrun : ∀ f ∈ run, f.isMarker) :
    ∃ kept, normalizeFrom false (front ++ run) = kept ++ run ∧
      (∀ f ∈ kept.getLast?, f.isMarker = false) ∧ ((∃ f ∈ kept, f ≠ .space) ↔ ∃ f ∈ front, f ≠ .space) := by
  obtain ⟨marker, run, rfl⟩ := List.exists_cons_of_ne_nil hne
  obtain ⟨hmarker, htail⟩ := List.forall_mem_cons.mp hrun
  have hgap (joins : Bool) {gap : List Fragment} (h : ∀ g ∈ gap, g = .space) :
      normalizeFrom joins (gap ++ marker :: run) =
        (if joins && !gap.isEmpty then [.space] else []) ++ marker :: run := by
    rw [normalizeFrom_gap h (Fragment.ne_space_of_isMarker hmarker)
      (Fragment.isCombinator_of_isMarker hmarker), normalizeFrom_run htail]
  obtain hspaces | ⟨front, f, gap, rfl, hf, hspaces⟩ := forall_eq_space_or_exists front
  · refine ⟨[], hgap false hspaces, by simp, ?_⟩
    simpa using hspaces
  · obtain ⟨kept, hkept⟩ := exists_normalizeFrom_append_cons false front hf
    refine ⟨kept ++ f :: (if !f.isCombinator && !gap.isEmpty then [.space] else []), ?_, ?_, ?_⟩
    · rw [List.append_assoc, List.cons_append, hkept, hgap _ hspaces, List.append_assoc, List.cons_append]
    · split
      · intro g hg
        have : g = .space := by simpa using hg.symm
        subst this
        rfl
      · next hkeeps =>
        intro g hg
        have : g = f := by simpa using hg.symm
        subst this
        cases gap with
        | nil => exact hfront g (by simp)
        | cons =>
          have hcombinator : g.isCombinator := by simpa using hkeeps
          cases g with
          | combinator => rfl
          | _ => cases hcombinator
    · exact iff_of_true ⟨f, by simp, hf⟩ ⟨f, by simp, hf⟩

/-- **White space at the end is left out** when a selector is made, and nothing else there. -/
theorem isExtending_ofFragments : IsExtending (ofFragments fragments).fragments ↔
    IsExtending (fragments.rdropWhile Fragment.isSpace) := by
  obtain hspaces | ⟨front, f, gap, rfl, hf, hspaces⟩ := forall_eq_space_or_exists fragments
  · have hnone : fragments.rdropWhile Fragment.isSpace = [] :=
      List.rdropWhile_eq_nil_iff.mpr fun f hf => Fragment.isSpace_eq_true_iff.mpr (hspaces f hf)
    rw [ofFragments, normalizeFrom_of_forall_eq_space hspaces, hnone]
  · obtain ⟨kept, hkept⟩ := exists_normalizeFrom_append_cons false front hf
    have hend : (ofFragments (front ++ f :: gap)).fragments = normalizeFrom false (front ++ [f]) := by
      rw [ofFragments, hkept, hkept, normalizeFrom_of_forall_eq_space hspaces]
      rfl
    rw [hend, rdropWhile_isSpace hf hspaces]
    by_cases hmarker : f.isMarker
    · have hsplit := List.rdropWhile_append_rtakeWhile (p := Fragment.isMarker) (l := front ++ [f])
      have hfront := isMarker_of_mem_getLast?_rdropWhile (front ++ [f])
      have hrun : ∀ g ∈ (front ++ [f]).rtakeWhile Fragment.isMarker, g.isMarker :=
        fun g hg => List.mem_rtakeWhile_imp hg
      have hne : (front ++ [f]).rtakeWhile Fragment.isMarker ≠ [] := by
        simp [List.rtakeWhile_concat_pos, hmarker]
      obtain ⟨kept, hkept, hlast, hsomething⟩ := exists_normalizeFrom_append_run hfront hne hrun
      rw [← hsplit, hkept, isExtending_append hlast hrun, isExtending_append hfront hrun, hsomething]
    · have hnone (front : List Fragment) : ¬ IsExtending (front ++ [f]) :=
        fun h => h.ne_nil (List.rtakeWhile_concat_neg _ _ _ hmarker)
      rw [hkept]
      exact iff_of_false (hnone kept) (hnone front)

/-! ## Taking markers -/

theorem takeMarkers_eq (fragments : List Fragment) : takeMarkers fragments =
    (fragments.dropWhile Fragment.isMarker,
      ((fragments.takeWhile Fragment.isMarker).filterMap Fragment.extendTargets?).reverse) := by
  fun_induction takeMarkers fragments with
  | case1 p before targets hextend rest lists hrest ih =>
    have hf : Fragment.extendTargets? (.pseudo p) = some targets := hextend
    have hmarker : Fragment.isMarker (.pseudo p) := by
      rw [Fragment.isMarker_pseudo, Pseudo.isExtend, hextend]
      rfl
    rw [hrest] at ih
    cases ih
    rw [List.dropWhile_cons_of_pos hmarker, List.takeWhile_cons_of_pos hmarker,
      List.filterMap_cons_some hf, List.reverse_cons]
  | case2 p before hextend =>
    have hmarker : ¬ Fragment.isMarker (.pseudo p) := by
      rw [Fragment.isMarker_pseudo, Pseudo.isExtend, hextend]
      exact Bool.false_ne_true
    rw [List.dropWhile_cons_of_neg hmarker, List.takeWhile_cons_of_neg hmarker]
    rfl
  | case3 fragments hpseudo =>
    cases fragments with
    | nil => rfl
    | cons f rest =>
      have hmarker : ¬ f.isMarker := by
        cases f with
        | pseudo p => exact absurd rfl (hpseudo p rest)
        | _ => exact Bool.false_ne_true
      rw [List.dropWhile_cons_of_neg hmarker, List.takeWhile_cons_of_neg hmarker]
      rfl

theorem mapM_isSome {α β : Type} {g : α → Option β} {l : List α} :
    (l.mapM g).isSome ↔ ∀ a ∈ l, (g a).isSome := by
  induction l with
  | nil => simp
  | cons a l ih =>
    rw [List.mapM_cons, List.forall_mem_cons, ← ih]
    cases g a <;> cases l.mapM g <;> simp

theorem mapM_filterMap_extendTargets? (h : ∀ f ∈ run, f.isMarker) :
    (run.filterMap Fragment.extendTargets?).mapM (Target.readList true) = run.mapM Fragment.targets? := by
  induction run with
  | nil => rfl
  | cons f run ih =>
    obtain ⟨hf, hrun⟩ := List.forall_mem_cons.mp h
    obtain ⟨text, htext⟩ := Option.isSome_iff_exists.mp hf
    rw [List.filterMap_cons_some htext, List.mapM_cons, List.mapM_cons, ih hrun, Fragment.targets?, htext]
    rfl

/-- What is left of a selector with markers at its end, and what it asks for. -/
theorem takeExtends?_eq_some_iff {targets : List Target} : s.takeExtends? = some (t, targets) ↔
    IsExtending s.fragments ∧ ofFragments (s.fragments.rdropWhile Fragment.isMarker) = t ∧
      ∃ lists, (s.fragments.rtakeWhile Fragment.isMarker).mapM Fragment.targets? = some lists ∧
        lists.flatten = targets := by
  have hmarkers : takeMarkers s.fragments.reverse = ((s.fragments.rdropWhile Fragment.isMarker).reverse,
      (s.fragments.rtakeWhile Fragment.isMarker).filterMap Fragment.extendTargets?) := by
    rw [takeMarkers_eq, List.rdropWhile, List.rtakeWhile, List.reverse_reverse, List.filterMap_reverse]
  have hrun : ∀ f ∈ s.fragments.rtakeWhile Fragment.isMarker, f.isMarker :=
    fun f hf => List.mem_rtakeWhile_imp hf
  have hnone : (s.fragments.rtakeWhile Fragment.isMarker).filterMap Fragment.extendTargets? = [] ↔
      s.fragments.rtakeWhile Fragment.isMarker = [] := by
    cases hmarkers : s.fragments.rtakeWhile Fragment.isMarker with
    | nil => simp
    | cons f run =>
      have hf : f.isMarker := hrun f (by rw [hmarkers]; exact List.mem_cons_self)
      obtain ⟨text, htext⟩ := Option.isSome_iff_exists.mp hf
      simp [List.filterMap_cons_some htext]
  rw [isExtending_iff, ← mapM_isSome, ← isEmpty_ofFragments, takeExtends?, hmarkers]
  dsimp only
  rw [List.reverse_reverse, mapM_filterMap_extendTargets? hrun]
  split
  · next hkept =>
    rw [Bool.or_eq_true, List.isEmpty_iff, hnone] at hkept
    refine iff_of_false (fun h => nomatch h) fun h => ?_
    obtain hnil | hempty := hkept
    · exact h.1.1 hnil
    · rw [h.1.2.2] at hempty
      cases hempty
  · next hkept =>
    rw [Bool.or_eq_true, List.isEmpty_iff, hnone, not_or, Bool.not_eq_true] at hkept
    cases (s.fragments.rtakeWhile Fragment.isMarker).mapM Fragment.targets? with
    | none => simp
    | some lists => simp [hkept]

theorem isExtending_iff_isSome : IsExtending s.fragments ↔ s.takeExtends?.isSome := by
  rw [Option.isSome_iff_exists]
  constructor
  · intro h
    obtain ⟨lists, hlists⟩ := Option.isSome_iff_exists.mp (mapM_isSome.mpr h.targets)
    exact ⟨(_, _), takeExtends?_eq_some_iff.mpr ⟨h, rfl, lists, hlists, rfl⟩⟩
  · rintro ⟨⟨t, targets⟩, h⟩
    exact (takeExtends?_eq_some_iff.mp h).1

/-! ## Stripping twice -/

/-- The selector without the markers at its end, or as it is if that takes nothing off it. -/
def stripped (s : Selector) : Selector := (s.takeExtends?.map Prod.fst).getD s

theorem stripped_of_isExtending (h : IsExtending s.fragments) :
    s.stripped = ofFragments (s.fragments.rdropWhile Fragment.isMarker) := by
  obtain ⟨⟨t, targets⟩, htake⟩ := Option.isSome_iff_exists.mp (isExtending_iff_isSome.mp h)
  rw [stripped, htake, (takeExtends?_eq_some_iff.mp htake).2.1]
  rfl

theorem stripped_of_not_isExtending (h : ¬ IsExtending s.fragments) : s.stripped = s := by
  rw [isExtending_iff_isSome, Option.not_isSome_iff_eq_none] at h
  rw [stripped, h]
  rfl

theorem stripped_eq_self_iff : s.stripped = s ↔ ¬ IsExtending s.fragments := by
  refine ⟨fun h hextending => ?_, stripped_of_not_isExtending⟩
  rw [stripped_of_isExtending hextending] at h
  have hsub : s.fragments.Sublist (s.fragments.rdropWhile Fragment.isMarker) := by
    conv_lhs => rw [← h]
    exact normalizeFrom_sublist _ _
  have hsplit : s.fragments.rdropWhile Fragment.isMarker ++ s.fragments.rtakeWhile Fragment.isMarker =
      s.fragments := List.rdropWhile_append_rtakeWhile
  have hlength := congrArg List.length hsplit
  have hpos := List.length_pos_iff.mpr hextending.ne_nil
  rw [List.length_append] at hlength
  have := hsub.length_le
  omega

/-- White space parts the markers at the end: what is in front of it ends in markers as well. -/
def IsTorn (fragments : List Fragment) : Prop :=
  IsExtending fragments ∧
    IsExtending ((fragments.rdropWhile Fragment.isMarker).rdropWhile Fragment.isSpace)

instance : DecidablePred IsTorn := fun _ => inferInstanceAs (Decidable (_ ∧ _))

theorem isExtending_stripped : IsExtending s.stripped.fragments ↔ IsTorn s.fragments := by
  by_cases h : IsExtending s.fragments
  · rw [stripped_of_isExtending h, isExtending_ofFragments, IsTorn, and_iff_right h]
  · rw [stripped_of_not_isExtending h]
    exact iff_of_false h fun htorn => h htorn.1

theorem stripExtends_eq_map (list : List Selector) : stripExtends list = list.map stripped := rfl

theorem forall_isExtending_stripExtends {list : List Selector} :
    (∀ s ∈ stripExtends list, ¬ IsExtending s.fragments) ↔ ∀ s ∈ list, ¬ IsTorn s.fragments := by
  simp only [stripExtends_eq_map, List.forall_mem_map, isExtending_stripped]

theorem stripExtends_eq_self_iff {list : List Selector} :
    stripExtends list = list ↔ ∀ s ∈ list, ¬ IsExtending s.fragments := by
  rw [stripExtends_eq_map]
  conv_lhs => rhs; rw [← List.map_id list]
  rw [List.map_inj_left]
  exact forall₂_congr fun s _ => stripped_eq_self_iff

end Selector

/-! ## Rules and their copies -/

namespace Extend

variable {list : List Selector} {containers : List ContainerId} {id : RuleId}

theorem Rule.selectors_ofSelectors (list : List Selector) (containers : List ContainerId) :
    (Rule.ofSelectors list containers).selectors = list := by
  rw [selectors, ofSelectors, List.map_map]
  exact List.map_id list

/-- What a rule is left with once the markers of its selectors were collected. -/
theorem Rule.selectors_stripped (list : List Selector) (containers : List ContainerId) :
    ((Rule.ofSelectors list containers).stripped .less).selectors = Selector.stripExtends list := by
  rw [selectors, stripped, ofSelectors, List.map_map, List.map_map]
  rfl

theorem Target.ne_nil_of_readList {allowsAll : Bool} {text : Text} {targets : List Target}
    (h : readList allowsAll text = some targets) : targets ≠ [] := by
  simp only [readList] at h
  split at h
  · next hlist =>
    cases h
    cases (Selector.scanList_eq_ok.mp hlist).1 <;> exact List.cons_ne_nil _ _
  · cases h

/-- A selector asks for something as soon as there is a well-formed marker at its end. -/
theorem ne_nil_of_takeExtends? {s t : Selector} {targets : List Target}
    (h : s.takeExtends? = some (t, targets)) : targets ≠ [] := by
  obtain ⟨hextending, -, lists, hlists, rfl⟩ := Selector.takeExtends?_eq_some_iff.mp h
  obtain ⟨marker, run, hrun⟩ := List.exists_cons_of_ne_nil hextending.ne_nil
  rw [hrun, List.mapM_cons] at hlists
  obtain ⟨first, hfirst, hlists⟩ := Option.bind_eq_some_iff.mp hlists
  obtain ⟨more, -, hlists⟩ := Option.bind_eq_some_iff.mp hlists
  cases hlists
  obtain ⟨text, -, hread⟩ := Option.bind_eq_some_iff.mp hfirst
  have hne := Target.ne_nil_of_readList hread
  simp [hne]

theorem Rule.trailingRequests_eq_nil_iff :
    (Rule.ofSelectors list containers).trailingRequests .less id = [] ↔
      ∀ s ∈ list, ¬ Selector.IsExtending s.fragments := by
  simp only [trailingRequests, selectors_ofSelectors, List.flatMap_eq_nil_iff]
  refine forall₂_congr fun s _ => ?_
  rw [Selector.isExtending_iff_isSome]
  cases htake : s.takeExtends? with
  | none => simp
  | some taken => simpa using ne_nil_of_takeExtends? htake

/-- **Stripping a list twice** is stripping it once as long as white space parts no markers, and only then.
This is also when no selector that was stripped ends in markers, and when a copy of a rule, which is
registered with the stripped selectors, is left with the selectors that the rule is left with and asks for
nothing on account of them. -/
theorem stripExtends_tfae (list : List Selector) (containers inner : List ContainerId) (id : RuleId) :
    let rule := Rule.ofSelectors list containers
    let copy := Rule.ofSelectors (Selector.stripExtends list) inner
    List.TFAE [
      ∀ s ∈ list, ¬ Selector.IsTorn s.fragments,
      Selector.stripExtends (Selector.stripExtends list) = Selector.stripExtends list,
      ∀ s ∈ Selector.stripExtends list, ¬ Selector.IsExtending s.fragments,
      (copy.stripped .less).selectors = (rule.stripped .less).selectors,
      copy.trailingRequests .less id = []] := by
  intro rule copy
  tfae_have 3 ↔ 1 := Selector.forall_isExtending_stripExtends
  tfae_have 2 ↔ 3 := Selector.stripExtends_eq_self_iff
  tfae_have 4 ↔ 2 := by rw [Rule.selectors_stripped, Rule.selectors_stripped]
  tfae_have 5 ↔ 3 := Rule.trailingRequests_eq_nil_iff
  tfae_finish

/-- The selector `a:extend(.b) :extend(.c)`. Children nest under `a:extend(.b)`, and a copy of the rule is
left with `a`. -/
def tornSelector : Selector :=
  ⟨[.type ['a'], .pseudo ⟨"extend".toList, false, some ".b".toList⟩, .space,
    .pseudo ⟨"extend".toList, false, some ".c".toList⟩]⟩

/-- A list that was read can end in a marker again once its markers are gone. -/
theorem not_stripExtends_stripExtends :
    ¬ ∀ (text : Text) (list : List Selector),
      Selector.readList ⟨true, false⟩ (Source.ofText text) = .ok list →
        Selector.stripExtends (Selector.stripExtends (Selector.combine [] list true)) =
          Selector.stripExtends (Selector.combine [] list true) := by
  intro h
  have hread : Selector.readList ⟨true, false⟩ (Source.ofText "a:extend(.b) :extend(.c)".toList) =
      .ok [tornSelector] := by decide +kernel
  have heq := h _ _ hread
  revert heq
  decide +kernel

/-- Markers that stand together are all taken off at once. -/
example : Selector.stripExtends [⟨[.type ['a'], .space, .className ['b'],
      .pseudo ⟨"extend".toList, false, some ".b".toList⟩,
      .pseudo ⟨"extend".toList, false, some ".c".toList⟩]⟩] =
    [⟨[.type ['a'], .space, .className ['b']]⟩] := by
  decide +kernel

end Extend

end NestedCss
