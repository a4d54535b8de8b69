import Mathlib.Data.List.Chain
import NestedCss.Proofs.Text.Collapse

/-!
# Strings and single characters

White space is collapsed only outside of strings, so a text is cut into units: every string is one, up to its
end if nothing closes it, and every other character is one by itself. Collapsing then keeps each unit as it
is, except for white space, of which a single space is left between units that had some between them.

* `Text.units`, `Text.flatten_units`: the units that make up a text;
* `Text.IsTidy`: units with single spaces, and these only between others;
* `Text.tidyFrom`, `Text.units_collapseFrom`: what collapsing does to units;
* **`Text.collapse_units`**: all that collapsing does.
-/

namespace NestedCss.Text

variable {quote c : Char} {started gap escaped : Bool} {t u p q : Text} {us before spacing after : List Text}

/-! ## Units -/

/-- The rest of a string, with the `quote` that closes it, and the text behind that. A backslash protects the
character that it is in front of. Without a `quote` that closes it, the string goes on to the end. -/
def splitString (quote : Char) (escaped : Bool) : Text → Text × Text
  | [] => ([], [])
  | c :: rest =>
    if c = quote ∧ escaped = false then ([c], rest)
    else
      let (contents, behind) := splitString quote (!escaped && c = '\\') rest
      (c :: contents, behind)

theorem length_splitString_le (quote : Char) (escaped : Bool) (t : Text) :
    (splitString quote escaped t).2.length ≤ t.length := by
  fun_induction splitString quote escaped t with
  | case1 => rfl
  | case2 => exact Nat.le_succ _
  | case3 escaped c rest h contents behind heq ih =>
    rw [heq] at ih
    exact Nat.le_succ_of_le ih

/-- The strings of a text and the single characters outside of them. A quote opens a string wherever it
stands outside of one. -/
def units : Text → List Text
  | [] => []
  | c :: rest =>
    if isQuote c then (c :: (splitString c false rest).1) :: units (splitString c false rest).2
    else [c] :: units rest
termination_by t => t.length
decreasing_by
  · exact Nat.lt_succ_of_le (length_splitString_le c false rest)
  · exact Nat.lt_succ_self _

/-- Whether a unit is white space. A string never is, since it starts with a quote. -/
def isSpacing (unit : Text) : Bool := unit.all isAsciiSpace

/-- The units other than white space. -/
def solid (us : List Text) : List Text := us.filter (!isSpacing ·)

/-- All white space among the units is single spaces between others. -/
structure IsTidy (us : List Text) : Prop where
  spaces : ∀ u ∈ us, isSpacing u → u = [' ']
  single : us.IsChain fun u v => ¬ (isSpacing u ∧ isSpacing v)
  head : ∀ u ∈ us.head?, isSpacing u = false
  last : ∀ u ∈ us.getLast?, isSpacing u = false

theorem append_splitString (quote : Char) (escaped : Bool) (t : Text) :
    (splitString quote escaped t).1 ++ (splitString quote escaped t).2 = t := by
  fun_induction splitString quote escaped t with
  | case1 => rfl
  | case2 => rfl
  | case3 escaped c rest h contents behind heq ih =>
    rw [heq] at ih
    exact congrArg (c :: ·) ih

theorem flatten_units (t : Text) : (units t).flatten = t := by
  fun_induction units t with
  | case1 => rfl
  | case2 c rest hc ih =>
    rw [List.flatten_cons, ih, List.cons_append, append_splitString]
  | case3 c rest hc ih => rw [List.flatten_cons, ih, List.singleton_append]

/-- A string ends in the same place whatever stands behind it, unless it is not closed. -/
theorem splitString_append {more : Text}
    (hmore : (splitString quote escaped t).2 = [] → more = []) :
    splitString quote escaped ((splitString quote escaped t).1 ++ more) =
      ((splitString quote escaped t).1, more) := by
  fun_induction splitString quote escaped t with
  | case1 =>
    rw [hmore rfl]
    rfl
  | case2 escaped c rest h =>
    rw [List.singleton_append, splitString, if_pos h]
  | case3 escaped c rest h contents behind heq ih =>
    rw [heq] at ih
    rw [List.cons_append, splitString, if_neg h, ih hmore]

/-! ## Collapsing units -/

/-- The units of a collapsed text: those of a text of which something was written already iff `started` and
from which white space is still to be written iff `gap`. -/
def tidyFrom (started gap : Bool) : List Text → List Text
  | [] => []
  | u :: us =>
    if isSpacing u then tidyFrom started started us
    else (if gap then [[' ']] else []) ++ u :: tidyFrom true false us

theorem isSpacing_singleton (c : Char) : isSpacing [c] = isAsciiSpace c := by
  simp [isSpacing]

theorem isSpacing_string (hc : isQuote c) (contents : Text) : isSpacing (c :: contents) = false := by
  simp [isSpacing, isAsciiSpace_eq_false_of_isQuote hc]

theorem units_cons (hc : isQuote c = false) (t : Text) : units (c :: t) = [c] :: units t := by
  rw [units, if_neg (by simp [hc])]

theorem units_gap (gap : Bool) (t : Text) :
    units ((if gap then [' '] else []) ++ t) = (if gap then [[' ']] else []) ++ units t := by
  cases gap with
  | false => rfl
  | true => exact units_cons (by decide) t

/-- A string is written as it is. -/
theorem collapseFrom_splitString (hquote : quote ≠ '\\') (escaped : Bool) (t : Text) :
    collapseFrom (if escaped then .escaped quote else .within quote) true false t =
      (splitString quote escaped t).1 ++ collapseFrom .plain true false (splitString quote escaped t).2 := by
  fun_induction splitString quote escaped t with
  | case1 => rfl
  | case2 escaped c rest h =>
    obtain ⟨rfl, rfl⟩ := h
    simp [collapseFrom, Quoting.after, hquote]
  | case3 escaped c rest h contents behind heq ih =>
    rw [heq] at ih
    have hafter : (if escaped then Quoting.escaped quote else .within quote).after c =
        if (!escaped && c = '\\') then .escaped quote else .within quote := by
      cases escaped with
      | true => rfl
      | false => simp [Quoting.after, show c ≠ quote by simpa using h]
    have hplain : (if escaped then Quoting.escaped quote else .within quote) ≠ .plain := by
      cases escaped <;> simp
    rw [collapseFrom, if_neg (by simp [hplain]), hafter, ih]
    rfl

theorem collapseFrom_solid (hc : isAsciiSpace c = false) (t : Text) : collapseFrom .plain started gap (c :: t) =
    (if gap then [' '] else []) ++ c :: collapseFrom (Quoting.plain.after c) true false t := by
  rw [collapseFrom_cons_of_isAsciiSpace_eq_false hc]
  cases gap <;> rfl

theorem tidyFrom_solid (hu : isSpacing u = false) (us : List Text) : tidyFrom started gap (u :: us) =
    (if gap then [[' ']] else []) ++ u :: tidyFrom true false us := by
  rw [tidyFrom, hu, if_neg Bool.false_ne_true]

/-- **Collapsing goes by units.** -/
theorem units_collapseFrom (started gap : Bool) (t : Text) :
    units (collapseFrom .plain started gap t) = tidyFrom started gap (units t) := by
  fun_induction units t generalizing started gap with
  | case1 => rw [collapseFrom, units, tidyFrom]
  | case2 c rest hc ih =>
    have hquote := Scanner.ne_backslash_of_isQuote hc
    have hbody : collapseFrom (Quoting.plain.after c) true false rest = (splitString c false rest).1 ++
        collapseFrom .plain true false (splitString c false rest).2 := by
      rw [Quoting.after, if_pos hc]
      exact collapseFrom_splitString hquote false rest
    have hmore : (splitString c false rest).2 = [] →
        collapseFrom .plain true false (splitString c false rest).2 = [] := fun h => by rw [h]; rfl
    rw [collapseFrom_solid (isAsciiSpace_eq_false_of_isQuote hc), hbody, units_gap, units, if_pos hc,
      splitString_append hmore, ih, tidyFrom_solid (isSpacing_string hc _)]
  | case3 c rest hc ih =>
    have hquote : isQuote c = false := by simpa using hc
    by_cases hspace : isAsciiSpace c
    · rw [collapseFrom, if_pos ⟨rfl, hspace⟩, ih, tidyFrom, isSpacing_singleton, if_pos hspace]
    · have hspace : isAsciiSpace c = false := by simpa using hspace
      have hplain : Quoting.plain.after c = .plain := if_neg hc
      rw [collapseFrom_solid hspace, hplain, units_gap, units_cons hquote, ih,
        tidyFrom_solid (by rwa [isSpacing_singleton])]

/-! ## What is left of white space -/

theorem solid_cons_of_isSpacing (hu : isSpacing u) (us : List Text) : solid (u :: us) = solid us :=
  List.filter_cons_of_neg (by simp [hu])

/-- Written white space goes first. -/
theorem solid_gap_append (hu : isSpacing u = false) (gap : Bool) (us : List Text) :
    solid ((if gap then [[' ']] else []) ++ u :: us) = u :: solid us := by
  have hcons : solid (u :: us) = u :: solid us := List.filter_cons_of_pos (by simp [hu])
  cases gap with
  | false => exact hcons
  | true => exact (solid_cons_of_isSpacing (by decide) _).trans hcons

theorem solid_tidyFrom (started gap : Bool) (us : List Text) : solid (tidyFrom started gap us) = solid us := by
  fun_induction tidyFrom started gap us with
  | case1 => rfl
  | case2 started gap u us hu ih => rw [ih, solid_cons_of_isSpacing hu]
  | case3 started gap u us hu ih =>
    have hu : isSpacing u = false := by simpa using hu
    rw [solid_gap_append hu, ih]
    exact (solid_gap_append hu false us).symm

theorem eq_of_mem_tidyFrom (h : u ∈ tidyFrom started gap us) (hu : isSpacing u) : u = [' '] := by
  fun_induction tidyFrom started gap us with
  | case1 => cases h
  | case2 started gap v us hv ih => exact ih h
  | case3 started gap v us hv ih =>
    rcases List.mem_append.mp h with h | h
    · cases gap with
      | false => cases h
      | true => exact List.mem_singleton.mp h
    · rcases List.mem_cons.mp h with rfl | h
      · exact absurd hu hv
      · exact ih h

theorem isChain_tidyFrom (started gap : Bool) (us : List Text) :
    (tidyFrom started gap us).IsChain fun u v => ¬ (isSpacing u ∧ isSpacing v) := by
  fun_induction tidyFrom started gap us with
  | case1 => exact .nil
  | case2 started gap u us hu ih => exact ih
  | case3 started gap u us hu ih =>
    have hrest : (u :: tidyFrom true false us).IsChain fun u v => ¬ (isSpacing u ∧ isSpacing v) :=
      List.isChain_cons.mpr ⟨fun v _ h => hu h.1, ih⟩
    cases gap with
    | false => exact hrest
    | true => exact .cons_cons (fun h => hu h.2) hrest

theorem isSpacing_head?_tidyFrom (us : List Text) :
    ∀ u ∈ (tidyFrom false false us).head?, isSpacing u = false := by
  induction us with
  | nil => exact fun u hu => by cases hu
  | cons v us ih =>
    by_cases hv : isSpacing v
    · rwa [tidyFrom, if_pos hv]
    · have hv : isSpacing v = false := by simpa using hv
      rw [tidyFrom_solid hv]
      intro u hu
      cases hu
      exact hv

theorem isSpacing_getLast?_tidyFrom (started gap : Bool) (us : List Text) :
    ∀ u ∈ (tidyFrom started gap us).getLast?, isSpacing u = false := by
  fun_induction tidyFrom started gap us with
  | case1 => exact fun u hu => by cases hu
  | case2 started gap u us hu ih => exact ih
  | case3 started gap u us hu ih =>
    intro v hv
    rw [List.getLast?_append_of_ne_nil _ (List.cons_ne_nil _ _), List.getLast?_cons] at hv
    cases hlast : (tidyFrom true false us).getLast? with
    | none =>
      rw [hlast] at hv
      cases hv
      simpa using hu
    | some w =>
      rw [hlast] at hv
      cases hv
      exact ih w hlast

theorem isTidy_tidyFrom (us : List Text) : IsTidy (tidyFrom false false us) where
  spaces _ := eq_of_mem_tidyFrom
  single := isChain_tidyFrom false false us
  head := isSpacing_head?_tidyFrom us
  last := isSpacing_getLast?_tidyFrom false false us

/-! ## Where spaces are left -/

/-- What comes behind a unit other than white space does not depend on what is in front of that. -/
theorem exists_tidyFrom_append (started gap : Bool) (before : List Text) (hp : isSpacing p = false) :
    ∃ before', solid before' = solid before ∧
      ∀ us, tidyFrom started gap (before ++ p :: us) = before' ++ p :: tidyFrom true false us := by
  induction before generalizing started gap with
  | nil =>
    refine ⟨if gap then [[' ']] else [], ?_, fun us => tidyFrom_solid hp us⟩
    cases gap <;> rfl
  | cons u before ih =>
    by_cases hu : isSpacing u
    · obtain ⟨before', hsolid, hbefore'⟩ := ih started started
      refine ⟨before', hsolid.trans (solid_cons_of_isSpacing hu before).symm, fun us => ?_⟩
      rw [List.cons_append, tidyFrom, if_pos hu, hbefore']
    · have hu : isSpacing u = false := by simpa using hu
      obtain ⟨before', hsolid, hbefore'⟩ := ih true false
      refine ⟨(if gap then [[' ']] else []) ++ u :: before', ?_, fun us => ?_⟩
      · rw [solid_gap_append hu, hsolid]
        exact (solid_gap_append hu false before).symm
      · rw [List.cons_append, tidyFrom_solid hu, hbefore', List.append_assoc, List.cons_append]

/-- White space between units is a single space. -/
theorem tidyFrom_spacing (hspacing : ∀ u ∈ spacing, isSpacing u) (hq : isSpacing q = false) (us : List Text) :
    tidyFrom true gap (spacing ++ q :: us) =
      (if spacing = [] ∧ gap = false then [] else [[' ']]) ++ q :: tidyFrom true false us := by
  induction spacing generalizing gap with
  | nil => rw [List.nil_append, tidyFrom_solid hq]; cases gap <;> rfl
  | cons u spacing ih =>
    obtain ⟨hu, hspacing⟩ := List.forall_mem_cons.mp hspacing
    rw [List.cons_append, tidyFrom, if_pos hu, ih hspacing]
    simp

/-- **What collapsing does to a text.** Its units make up the text. Nothing is left to be collapsed: outside of
strings there is no white space but single spaces between other units. Apart from white space the units stay,
strings with all that is in them, and two that come next to each other have a space between them iff they had
some white space between them before. -/
theorem collapse_units (t : Text) :
    (units t).flatten = t ∧ collapse (collapse t) = collapse t ∧ IsTidy (units (collapse t)) ∧
      solid (units (collapse t)) = solid (units t) ∧
      ∀ before p spacing q after, units t = before ++ p :: (spacing ++ q :: after) → isSpacing p = false →
        (∀ u ∈ spacing, isSpacing u) → isSpacing q = false →
        ∃ before' after', solid before' = solid before ∧ solid after' = solid after ∧
          units (collapse t) = before' ++ p :: ((if spacing = [] then [] else [[' ']]) ++ q :: after') := by
  have hunits : units (collapse t) = tidyFrom false false (units t) := units_collapseFrom false false t
  refine ⟨flatten_units t, collapse_collapse t, hunits ▸ isTidy_tidyFrom _, by rw [hunits, solid_tidyFrom], ?_⟩
  intro before p spacing q after ht hp hspacing hq
  obtain ⟨before', hbefore', htidy⟩ := exists_tidyFrom_append false false before hp
  refine ⟨before', tidyFrom true false after, hbefore', solid_tidyFrom true false after, ?_⟩
  rw [hunits, ht, htidy, tidyFrom_spacing hspacing hq]
  simp

/-- The text `  a\t "b  \"  ' c" /  ' d   e`, the last string of which is not closed. -/
def unclosedText : Text := "  a\t \"b  \\\"  ' c\" /  ' d   e".toList

theorem collapse_units_unclosedText : ∃ before' after',
    solid before' = [['a'], "\"b  \\\"  ' c\"".toList] ∧ solid after' = [] ∧
      units (collapse unclosedText) = before' ++ ['/'] :: ([[' ']] ++ "' d   e".toList :: after') := by
  have hunits : units unclosedText = [[' '], [' '], ['a'], ['\t'], [' '], "\"b  \\\"  ' c\"".toList, [' ']] ++
      ['/'] :: ([[' '], [' ']] ++ "' d   e".toList :: []) := by
    with_unfolding_all rfl
  obtain ⟨-, -, -, -, hspaces⟩ := collapse_units unclosedText
  exact hspaces _ _ _ _ _ hunits (by decide) (by decide) (by decide)

end NestedCss.Text
