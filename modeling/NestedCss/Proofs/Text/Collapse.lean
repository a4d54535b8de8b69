import Mathlib.Data.List.TakeWhile
import NestedCss.Proofs.Scanner.Lexeme
import NestedCss.Text.Quoting

/-!
# Collapsed white space

* **`Text.collapse_collapse`**: nothing is left to be collapsed;
* `Text.balanced_collapse`: collapsing tears neither strings nor brackets apart;
* `Text.mem_collapse`: nothing but spaces is added;
* `Text.IsClosed`: whether a text ends outside of strings, which collapsing does not change;
* **`Text.collapse_append`**, `Text.trim_append`: white space at the end makes no difference.
-/

namespace NestedCss.Text

open Scanner

variable {state : Quoting} {started gap : Bool} {t u raw : Text}

theorem isAsciiSpace_eq_false_of_isQuote {c : Char} (h : isQuote c) : isAsciiSpace c = false := by
  simp only [isQuote, Bool.or_eq_true, beq_iff_eq] at h
  rcases h with rfl | rfl <;> decide

/-- White space is only owed outside of strings and behind something that was written. -/
theorem collapseFrom_collapseFrom (hgap : gap → state = .plain ∧ started) :
    collapseFrom state started false (collapseFrom state started gap t) =
      collapseFrom state started gap t := by
  fun_induction collapseFrom state started gap t with
  | case1 => rfl
  | case2 state started gap c rest h ih =>
    rw [h.1]
    exact ih fun hstarted => ⟨rfl, hstarted⟩
  | case3 state started gap c rest h ih =>
    have hrest := ih (by simp)
    cases gap with
    | false => simp [collapseFrom, h, hrest]
    | true =>
      obtain ⟨rfl, rfl⟩ := hgap rfl
      have hspace : isAsciiSpace ' ' := by decide
      have hc : isAsciiSpace c = false := by simpa using h
      simp [collapseFrom, hspace, hc, hrest]

/-- **To collapse white space twice** is to collapse it once. -/
theorem collapse_collapse (t : Text) : collapse (collapse t) = collapse t :=
  collapseFrom_collapseFrom (by simp)

theorem mem_collapseFrom {c : Char} (h : c ∈ collapseFrom state started gap t) : c ∈ t ∨ c = ' ' := by
  fun_induction collapseFrom state started gap t with
  | case1 => cases h
  | case2 state started gap d rest _ ih => exact (ih h).imp_left (List.mem_cons_of_mem d)
  | case3 state started gap d rest _ ih =>
    rcases List.mem_append.mp h with h | h
    · have hd : c = ' ' ∨ c = d := by
        cases gap with
        | false => exact .inr (List.mem_singleton.mp h)
        | true => simpa using h
      exact hd.symm.imp_left fun (hd : c = d) => hd ▸ List.mem_cons_self
    · exact (ih h).imp_left (List.mem_cons_of_mem d)

theorem mem_collapse {c : Char} (h : c ∈ collapse t) : c ∈ t ∨ c = ' ' := mem_collapseFrom h

theorem collapseFrom_cons_of_isAsciiSpace_eq_false {c : Char} (hc : isAsciiSpace c = false) (t : Text) :
    collapseFrom .plain started gap (c :: t) =
      (if gap then [' ', c] else [c]) ++ collapseFrom (Quoting.plain.after c) true false t := by
  simp [collapseFrom, hc]

theorem collapseFrom_within {q : Char} (hq : q ≠ '\\') (ht : StringBody q t) (u : Text) :
    collapseFrom (.within q) true false (t ++ q :: u) = t ++ q :: collapseFrom .plain true false u := by
  induction ht with
  | nil => simp [collapseFrom, Quoting.after, hq]
  | escaped c ht ih => simp [collapseFrom, Quoting.after, ih]
  | char hslash hne _ ht ih => simp [collapseFrom, Quoting.after, hslash, hne, ih]

/-- A string is kept as it is. -/
theorem collapseFrom_string (hraw : IsString raw) (t : Text) :
    collapseFrom .plain started gap (raw ++ t) =
      (if gap then [' '] else []) ++ (raw ++ collapseFrom .plain true false t) := by
  obtain ⟨hq, hbody⟩ := hraw
  have hspace := isAsciiSpace_eq_false_of_isQuote hq
  rw [List.append_assoc, List.cons_append, collapseFrom_cons_of_isAsciiSpace_eq_false hspace]
  simp only [Quoting.after, hq, if_true, List.singleton_append]
  rw [collapseFrom_within (ne_backslash_of_isQuote hq) hbody]
  cases gap <;> simp

theorem balanced_gap {depth : Nat} (ht : Balanced '(' ')' depth t) (gap : Bool) :
    Balanced '(' ')' depth ((if gap then [' '] else []) ++ t) := by
  cases gap with
  | false => exact ht
  | true => exact .char (by decide) (by decide) (by decide) ht

theorem balanced_collapseFrom_cons {c : Char} {depth : Nat} (hspace : isAsciiSpace c = false)
    (hquote : isQuote c = false) (h : Balanced '(' ')' depth (c :: collapseFrom .plain true false t)) :
    Balanced '(' ')' depth (collapseFrom .plain started gap (c :: t)) := by
  rw [collapseFrom_cons_of_isAsciiSpace_eq_false hspace, Quoting.after, hquote]
  cases gap with
  | false => exact h
  | true => exact balanced_gap h true

/-- Collapsing outside of strings leaves the brackets where they are. -/
theorem balanced_collapseFrom {depth : Nat} (ht : Balanced '(' ')' depth t) :
    Balanced '(' ')' depth (collapseFrom .plain started gap t) := by
  induction ht generalizing started gap with
  | nil => exact .nil
  | string hraw ht ih =>
    rw [collapseFrom_string hraw]
    exact balanced_gap (.string hraw ih) gap
  | opening ht ih => exact balanced_collapseFrom_cons (by decide) (by decide) (.opening ih)
  | closing ht ih => exact balanced_collapseFrom_cons (by decide) (by decide) (.closing ih)
  | @char _ c t hquote hopening hclosing ht ih =>
    by_cases hspace : isAsciiSpace c
    · simpa [collapseFrom, hspace] using ih
    · exact balanced_collapseFrom_cons (by simpa using hspace) hquote (.char hquote hopening hclosing ih)

theorem balanced_collapse (ht : Balanced '(' ')' 0 t) : Balanced '(' ')' 0 (collapse t) :=
  balanced_collapseFrom ht

/-! ## White space at the end -/

theorem after_plain_of_isAsciiSpace {c : Char} (h : isAsciiSpace c) : Quoting.plain.after c = .plain := by
  have hquote : isQuote c = false :=
    Bool.eq_false_iff.mpr fun hquote => by simp [isAsciiSpace_eq_false_of_isQuote hquote] at h
  rw [Quoting.after, hquote]
  rfl

theorem foldl_collapseFrom (hgap : gap → state = .plain) :
    (collapseFrom state started gap t).foldl Quoting.after state = t.foldl Quoting.after state := by
  fun_induction collapseFrom state started gap t with
  | case1 => rfl
  | case2 state started gap c rest h ih =>
    obtain ⟨rfl, hc⟩ := h
    rw [ih fun _ => rfl, List.foldl_cons, after_plain_of_isAsciiSpace hc]
  | case3 state started gap c rest h ih =>
    have hrest := ih (by simp)
    cases gap with
    | false => exact hrest
    | true =>
      obtain rfl := hgap rfl
      exact hrest

/-- The text ends outside of strings, as far as its quotes tell. -/
def IsClosed (t : Text) : Prop := t.foldl Quoting.after .plain = .plain

instance (t : Text) : Decidable (IsClosed t) := inferInstanceAs (Decidable (_ = _))

theorem isClosed_collapse : IsClosed (collapse t) ↔ IsClosed t := by
  rw [IsClosed, collapse, foldl_collapseFrom (by simp), ← IsClosed]

theorem collapseFrom_spaces (h : ∀ c ∈ u, isAsciiSpace c) : collapseFrom .plain started gap u = [] := by
  induction u generalizing gap with
  | nil => rfl
  | cons c u ih =>
    obtain ⟨hc, hu⟩ := List.forall_mem_cons.mp h
    rw [collapseFrom, if_pos ⟨rfl, hc⟩, ih hu]

theorem collapseFrom_append (hclosed : t.foldl Quoting.after state = .plain) (h : ∀ c ∈ u, isAsciiSpace c) :
    collapseFrom state started gap (t ++ u) = collapseFrom state started gap t := by
  induction t generalizing state started gap with
  | nil =>
    obtain rfl : state = .plain := hclosed
    exact collapseFrom_spaces h
  | cons c t ih =>
    rw [List.cons_append, collapseFrom, collapseFrom]
    split
    · next hc =>
      obtain ⟨rfl, hspace⟩ := hc
      rw [List.foldl_cons, after_plain_of_isAsciiSpace hspace] at hclosed
      exact ih hclosed
    · rw [ih hclosed]

/-- White space behind a text that ends outside of strings is collapsed to nothing. -/
theorem collapse_append (hclosed : IsClosed t) (h : ∀ c ∈ u, isAsciiSpace c) :
    collapse (t ++ u) = collapse t :=
  collapseFrom_append hclosed h

/-- Whatever comes behind, what was written before stays. -/
theorem collapseFrom_prefix (t u : Text) :
    collapseFrom state started gap t <+: collapseFrom state started gap (t ++ u) := by
  induction t generalizing state started gap with
  | nil => exact List.nil_prefix
  | cons c t ih =>
    rw [List.cons_append, collapseFrom, collapseFrom]
    split
    · exact ih
    · exact (List.prefix_append_right_inj _).mpr ih

theorem trim_append (h : ∀ c ∈ u, isSpace c) : trim (t ++ u) = trim t := by
  have hend (t : Text) : trimEnd (t ++ u) = trimEnd t := by
    rw [trimEnd, List.reverse_append, List.dropWhile_append_of_pos (by simpa using h), ← trimEnd]
  rw [trim, trimStart, List.dropWhile_append]
  split
  · next hnil =>
    rw [trim, trimStart, List.isEmpty_iff.mp hnil, List.dropWhile_eq_nil_iff.mpr h]
  · exact hend _

/-! ## Splitting -/

theorem splitAtFirst_cons (c d : Char) (t : Text) : splitAtFirst c (d :: t) =
    if d = c then some ([], t) else (splitAtFirst c t).map fun (before, after) => (d :: before, after) := by
  by_cases hd : d = c
  · simp [splitAtFirst, hd]
  · simp only [splitAtFirst, hd, if_false, List.dropWhile_cons, List.takeWhile_cons, bne_iff_ne, ne_eq,
      not_false_eq_true, if_true]
    cases t.dropWhile (· != c) <;> rfl

theorem splitAtFirst_eq_some_iff {c : Char} {before after : Text} :
    splitAtFirst c t = some (before, after) ↔ c ∉ before ∧ t = before ++ c :: after := by
  induction t generalizing before with
  | nil => simp [splitAtFirst]
  | cons d t ih =>
    rw [splitAtFirst_cons]
    by_cases hd : d = c
    · rw [if_pos hd]
      subst hd
      cases before with
      | nil => simp
      | cons e before => simp +contextual
    · rw [if_neg hd, Option.map_eq_some_iff]
      constructor
      · rintro ⟨⟨before', after'⟩, hsplit, heq⟩
        cases heq
        obtain ⟨hbefore, rfl⟩ := ih.mp hsplit
        exact ⟨by simp [Ne.symm hd, hbefore], rfl⟩
      · rintro ⟨hbefore, heq⟩
        cases before with
        | nil => exact absurd (List.cons.inj heq).1 hd
        | cons e before =>
          cases heq
          exact ⟨_, ih.mpr ⟨fun h => hbefore (List.mem_cons_of_mem d h), rfl⟩, rfl⟩

theorem splitAtFirst_eq_none_iff {c : Char} : splitAtFirst c t = none ↔ c ∉ t := by
  induction t with
  | nil => simp [splitAtFirst]
  | cons d t ih =>
    rw [splitAtFirst_cons, List.mem_cons, not_or]
    by_cases hd : d = c
    · simp [hd]
    · rw [if_neg hd, Option.map_eq_none_iff, ih]
      exact ⟨fun h => ⟨Ne.symm hd, h⟩, And.right⟩

theorem splitAtFirst_append_of_not_mem {c : Char} (h : c ∉ t) (u : Text) :
    splitAtFirst c (t ++ u) = (splitAtFirst c u).map fun (before, after) => (t ++ before, after) := by
  induction t with
  | nil => simp
  | cons d t ih =>
    rw [List.mem_cons, not_or] at h
    rw [List.cons_append, splitAtFirst_cons, if_neg (Ne.symm h.1), ih h.2, Option.map_map]
    rfl

theorem splitAtFirst_append {c : Char} {before after : Text} (h : splitAtFirst c t = some (before, after))
    (u : Text) : splitAtFirst c (t ++ u) = some (before, after ++ u) := by
  rw [splitAtFirst_eq_some_iff] at h ⊢
  obtain ⟨hbefore, rfl⟩ := h
  exact ⟨hbefore, by simp⟩

end NestedCss.Text
