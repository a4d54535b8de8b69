import Mathlib.Data.List.Basic
import NestedCss.Proofs.Selector.Attribute

/-!
# Legible fragments

A fragment is legible if it is of the form that the reader knows for its kind: its names are names, the
brackets and strings in its arguments are closed, and white space in them is collapsed already. What
is behind a legible fragment can still go on with it, as a name does with a class; where nothing does,
the fragment `Stops`.

* **`Selector.scanFragment_text`**: the text of a legible fragment that stops is read as that fragment;
* `Selector.IsFirm`, `Selector.isFirm_text`: its first characters tell what it is.
-/

namespace NestedCss

open Scanner

/-! ## Legible fragments -/

namespace Selector

/-- Whether the name of an element may start with the character. -/
def beginsElement (c : Char) : Bool := isNameStart c || c == '-' || c == '\\'

/-- What may be in front of the `|` of a type selector, and a type selector by itself. -/
inductive IsElement : Text → Prop
  | any : IsElement ['*']
  | name {n : Text} : IsName n → n.head?.any beginsElement → IsElement n

/-- The written form of a type selector. -/
inductive IsTypeName : Text → Prop
  | element {n : Text} : IsElement n → IsTypeName n
  | interpolated {raw n : Text} : IsInterpolation raw → IsName n → IsTypeName (raw ++ n)
  | qualified {ns n : Text} : IsElement ns → IsName n → IsTypeName (ns ++ '|' :: n)
  | qualifiedAny {ns : Text} : IsElement ns → IsTypeName (ns ++ ['|', '*'])
  | unqualified {n : Text} : IsName n → IsTypeName ('|' :: n)

end Selector

open Selector

/-- The pseudo-class or pseudo-element is read back as it is written. -/
structure Pseudo.Legible (p : Pseudo) : Prop where
  name : IsName p.name
  argument : ∀ argument ∈ p.argument, Balanced '(' ')' 0 argument ∧ Text.collapse argument = argument

namespace Fragment

/-- The fragment is read back as it is written, if nothing behind it goes on with it. -/
def Legible : Fragment → Prop
  | .type name => IsTypeName name
  | .id name => IsName name
  | .className name => IsName name
  | .placeholder name => IsName name
  | .attribute a => a.Legible
  | .pseudo p => p.Legible
  | .combinator _ => True
  | .nesting suffix => ∀ s ∈ suffix, IsName s
  | .quoted contents quote => IsQuoted quote contents
  | .space => True
  | .interpolation raw => IsInterpolation raw

/-- Whether a name could go on behind the fragment. -/
def endsInName : Fragment → Bool
  | .type name => !(name == ['*'] || ['|', '*'].isSuffixOf name)
  | .id _ => true
  | .className _ => true
  | .placeholder _ => true
  | .pseudo p => p.argument.isNone
  | .nesting _ => true
  | .interpolation _ => true
  | _ => false

/-- Whether the fragment is read as a namespace if a `|` comes behind it. -/
def TakesBar : Fragment → Prop
  | .type name => IsElement name
  | _ => False

/-- Whether the fragment is read with an argument if a parenthesis comes behind it. -/
def takesArgument : Fragment → Bool
  | .pseudo p => p.argument.isNone
  | _ => false

/-- Nothing in the text goes on with the fragment in front of it. -/
structure Stops (f : Fragment) (rest : Text) : Prop where
  name : f.endsInName → continuesName rest = false ∧ Closes f.text rest
  bar : f.TakesBar → startsBar rest = false
  argument : f.takesArgument → rest.head? ≠ some '('

theorem endsInName_of_takesArgument {f : Fragment} (h : f.takesArgument) : f.endsInName := by
  cases f with
  | pseudo p => exact h
  | _ => cases h

theorem stops_of_endsInName_eq_false {f : Fragment} {rest : Text} (hname : f.endsInName = false)
    (hbar : ¬ f.TakesBar) : f.Stops rest where
  name h := absurd h (Bool.eq_false_iff.mp hname)
  bar h := absurd h hbar
  argument h := absurd (endsInName_of_takesArgument h) (Bool.eq_false_iff.mp hname)

end Fragment

namespace Selector

variable {s rest n t u ns raw : Text} {allowed : Allowance} {f : Fragment} {c : Char} {e : Text}

/-! ## Fragments by what they start with -/

/-- The fragment that starts with a character other than white space, a comment, an interpolation
and a quote. -/
def scanMarked (allowed : Allowance) (c : Char) : Scanner Fragment := do
  match c with
  | '&' => scanNesting allowed
  | '%' => scanPlaceholder allowed
  | ':' => return .pseudo (← scanPseudo)
  | '>' => skip; return .combinator .child
  | '+' => skip; return .combinator .nextSibling
  | '~' => skip; return .combinator .followingSibling
  | '.' => skip; return .className (← scanName)
  | '#' => skip; return .id (← scanName)
  | '[' => skip; return .attribute (← scanAttribute)
  | '|' => skip; return .type ('|' :: (← scanName))
  | '*' => skip; scanTypeRest ['*']
  | _ =>
    if isNameStart c || c == '-' || c == '\\' then scanTypeRest (← scanName)
    else failHere .expectedSelector

theorem scanFragmentAt_cons (allowed : Allowance) (c : Char) (s : Text) :
    scanFragmentAt allowed c (c :: s) =
      if isBlank c then .ok .space ((c :: s).dropWhile isBlank)
      else if "/*".toList.isPrefixOf (c :: s) then
        (do loudComment; return .space : Scanner Fragment) (c :: s)
      else if startsInterpolation (c :: s) then scanInterpolated (c :: s)
      else if isQuote c then
        (do return .quoted (← stringContents) (.ofChar c) : Scanner Fragment) (c :: s)
      else scanMarked allowed c (c :: s) := by
  unfold scanFragmentAt
  split
  · rfl
  · rw [bind_of_ok (rfl : atLoudComment (c :: s) = .ok _ (c :: s))]
    split
    · rfl
    · rw [bind_of_ok (atInterpolation_apply _)]
      split
      · rfl
      · split <;> rfl

theorem scanFragment_eq_ok {out : Option (List Fragment)} :
    scanFragment allowed (c :: s) = .ok out rest ↔
      c = ',' ∧ out = none ∧ c :: s = rest ∨
      c ≠ ',' ∧ ∃ f, scanFragmentAt allowed c (c :: s) = .ok f rest ∧ out = some [f] := by
  rw [scanFragment, peek_bind]
  dsimp only [List.head?_cons]
  by_cases hc : c = ','
  · simp [hc, pure_eq_ok, eq_comm]
  · simp only [beq_iff_eq, hc, if_false, bind_pure_eq_ok, ne_eq, not_false_eq_true, true_and, false_and,
      false_or]

/-! ## Type selectors -/

theorem scanTypeRest_of_startsBar_eq_false (h : startsBar s = false) :
    scanTypeRest n s = .ok (.type n) s := by
  rw [scanTypeRest, bind_of_ok (atNamespaceBar_apply s), h]
  rfl

/-- Behind the `|` there is a `*` or a name. -/
theorem scanTypeRest_eq_ok {f : Fragment} (hbar : startsBar ('|' :: s)) :
    scanTypeRest n ('|' :: s) = .ok f rest ↔
      s = '*' :: rest ∧ f = .type (n ++ ['|', '*']) ∨
      s.head? ≠ some '*' ∧ ∃ m, scanName s = .ok m rest ∧ f = .type (n ++ '|' :: m) := by
  rw [scanTypeRest, bind_of_ok (atNamespaceBar_apply _), hbar]
  simp only [Bool.not_true, Bool.false_eq_true, if_false]
  rw [skip_bind]
  simp only [bind_eq_ok, scanChar_eq_ok]
  constructor
  · rintro ⟨_, _, ⟨rfl, rfl⟩ | ⟨rfl, hstar, rfl⟩, h⟩
    · exact .inl (by cases h; exact ⟨rfl, rfl⟩)
    · exact .inr ⟨hstar, bind_pure_eq_ok.mp h⟩
  · rintro (⟨rfl, rfl⟩ | ⟨hstar, h⟩)
    · exact ⟨true, rest, .inl ⟨rfl, rfl⟩, rfl⟩
    · exact ⟨false, s, .inr ⟨rfl, hstar, rfl⟩, bind_pure_eq_ok.mpr h⟩

/-! ## The end of a name -/

theorem concat_eq_append {a b u : Text} (h : a ++ b = u ++ [c]) :
    b = [] ∧ a = u ++ [c] ∨ ∃ v, u = a ++ v ∧ b = v ++ [c] := by
  obtain rfl | ⟨b, d, rfl⟩ := List.eq_nil_or_concat' b
  · exact .inl ⟨rfl, by simpa using h⟩
  · rw [← List.append_assoc] at h
    obtain ⟨rfl, hd⟩ := List.append_inj' h rfl
    exact .inr ⟨b, rfl, by rw [hd]⟩

theorem eq_backslash_of_escape (he : IsEscape e) (h : e = u ++ ['*']) : u = ['\\'] := by
  cases he with
  | @char c =>
    rw [← List.singleton_append] at h
    exact (List.append_inj' h rfl).1.symm
  | @digits ds hds =>
    obtain rfl | ⟨ds, d, rfl⟩ := List.eq_nil_or_concat' ds
    · exact absurd rfl hds.ne_nil
    · rw [← List.cons_append] at h
      obtain rfl : d = '*' := by simpa using (List.append_inj' h rfl).2
      exact absurd (hds.hex '*' (by simp)) (by decide)
  | @blank ds b hds hb =>
    obtain rfl : b = '*' := by simpa using (List.append_inj' h rfl).2
    exact absurd hb (by decide)

/-- A name ends with `*` only in an escape. -/
theorem exists_backslash_of_concat_star (ht : Pieces IsNameUnit t) (h : t = u ++ ['*']) :
    ∃ v, u = v ++ ['\\'] := by
  induction ht generalizing u with
  | nil => simp at h
  | @escape e t he ht ih =>
    obtain ⟨rfl, he'⟩ | ⟨v, rfl, rfl⟩ := concat_eq_append h
    · exact ⟨[], eq_backslash_of_escape he he'⟩
    · obtain ⟨w, rfl⟩ := ih rfl
      exact ⟨e ++ w, by simp⟩
  | @unit w t hw ht ih =>
    obtain ⟨rfl, hw'⟩ | ⟨v, rfl, rfl⟩ := concat_eq_append h
    · exfalso
      cases hw with
      | @char c hc =>
        rw [← List.nil_append [c]] at hw'
        obtain rfl : c = '*' := by simpa using (List.append_inj' hw' rfl).2
        exact absurd hc (by decide)
      | interpolation hraw =>
        obtain ⟨-, -⟩ := hraw
        exact absurd (List.append_inj' hw' rfl).2 (by decide)
    · obtain ⟨v', rfl⟩ := ih rfl
      exact ⟨w ++ v', by simp⟩

/-- A text that ends with a name does not end with the `*` of a type selector. -/
theorem endsInName_type (hn : IsName n) (before : Text) : (Fragment.type (before ++ n)).endsInName := by
  have hstar {u : Text} (h : before ++ n = u ++ ['*']) : ∃ v, u = v ++ ['\\'] := by
    obtain ⟨hnil, -⟩ | ⟨v, rfl, hv⟩ := concat_eq_append h
    · exact absurd hnil hn.ne_nil
    · obtain ⟨w, rfl⟩ := exists_backslash_of_concat_star hn.pieces hv
      exact ⟨before ++ w, by simp⟩
  have hany : before ++ n ≠ ['*'] := by
    intro h
    obtain ⟨v, hv⟩ := hstar (h.trans (List.nil_append _).symm)
    simp at hv
  have hqualified : ['|', '*'].isSuffixOf (before ++ n) = false := by
    rw [Bool.eq_false_iff, ne_eq, List.isSuffixOf_iff_suffix]
    rintro ⟨u, h⟩
    obtain ⟨v, hv⟩ := hstar (h.symm.trans (List.append_cons u '|' ['*']))
    exact absurd (List.append_inj' hv rfl).2 (by decide)
  simp [Fragment.endsInName, hany, hqualified]

theorem openEscape?_concat (hhex : isHexDigit c = false) (hslash : c ≠ '\\') (t : Text) :
    openEscape? (t ++ [c]) = none := by
  rw [openEscape?, List.foldl_append, List.foldl_cons, List.foldl_nil]
  cases List.foldl digitsAfter none t with
  | none => simp [digitsAfter, hslash]
  | some n => simp [digitsAfter, hhex, hslash]

theorem closes_append_cons (hhex : isHexDigit c = false) (hslash : c ≠ '\\') (t n rest : Text) :
    Closes (t ++ c :: n) rest ↔ Closes n rest := by
  have happend : t ++ c :: n = (t ++ [c]) ++ n := by simp
  rw [Closes, happend, openEscape?_append_of_eq_none (openEscape?_concat hhex hslash t)]
  rfl

/-! ## Reading what is legible -/

/-- Whether the character by itself tells that no white space, comment, interpolation or string starts
with it. -/
def isMark (c : Char) : Bool :=
  !isBlank c && c != '/' && c != '#' && c != '@' && !isQuote c && c != ','

theorem scanFragmentAt_marked (hblank : isBlank c = false) (hslash : c ≠ '/')
    (hstarts : startsInterpolation (c :: s) = false) (hquote : isQuote c = false) :
    scanFragmentAt allowed c (c :: s) = scanMarked allowed c (c :: s) := by
  have hcomment : "/*".toList.isPrefixOf (c :: s) = false := by
    simp [List.isPrefixOf, Ne.symm hslash]
  rw [scanFragmentAt_cons, hblank, hcomment, hstarts, hquote]
  rfl

theorem scanFragment_of_isMark (hc : isMark c) (h : scanMarked allowed c (c :: s) = .ok f rest) :
    scanFragment allowed (c :: s) = .ok (some [f]) rest := by
  simp only [isMark, Bool.and_eq_true, Bool.not_eq_true', bne_iff_ne] at hc
  obtain ⟨⟨⟨⟨⟨hblank, hslash⟩, hhash⟩, hat⟩, hquote⟩, hcomma⟩ := hc
  have hstarts := startsInterpolation_eq_false hhash hat s
  refine scanFragment_eq_ok.mpr (.inr ⟨hcomma, f, ?_, rfl⟩)
  exact (scanFragmentAt_marked hblank hslash hstarts hquote).trans h

theorem scanFragment_hash (hstarts : startsInterpolation ('#' :: s) = false)
    (h : scanName s = .ok n rest) : scanFragment allowed ('#' :: s) = .ok (some [.id n]) rest := by
  refine scanFragment_eq_ok.mpr (.inr ⟨by decide, _, ?_, rfl⟩)
  refine (scanFragmentAt_marked (by decide) (by decide) hstarts (by decide)).trans ?_
  exact bind_pure_eq_ok.mpr ⟨n, h, rfl⟩

theorem scanFragment_quote (hc : isQuote c) (h : stringContents (c :: s) = .ok t rest) :
    scanFragment allowed (c :: s) = .ok (some [.quoted t (.ofChar c)]) rest := by
  have hread : (do return .quoted (← stringContents) (.ofChar c) : Scanner Fragment) (c :: s) =
      .ok (.quoted t (.ofChar c)) rest := bind_pure_eq_ok.mpr ⟨t, h, rfl⟩
  refine scanFragment_eq_ok.mpr (.inr ?_)
  simp only [isQuote, Bool.or_eq_true, beq_iff_eq] at hc
  rcases hc with rfl | rfl
  · rw [scanFragmentAt_cons, startsInterpolation_eq_false (by decide) (by decide)]
    exact ⟨by decide, _, hread, rfl⟩
  · rw [scanFragmentAt_cons, startsInterpolation_eq_false (by decide) (by decide)]
    exact ⟨by decide, _, hread, rfl⟩

theorem scanFragment_interpolation (hs : startsInterpolation s) (h : scanInterpolated s = .ok f rest) :
    scanFragment allowed s = .ok (some [f]) rest := by
  obtain ⟨mark, t, rfl, hmark⟩ := startsInterpolation_eq_true hs
  refine scanFragment_eq_ok.mpr (.inr ?_)
  rw [scanFragmentAt_cons, hs]
  rcases hmark with rfl | rfl
  · exact ⟨by decide, _, h, rfl⟩
  · exact ⟨by decide, _, h, rfl⟩

theorem atNameChar_apply (s : Text) : atNameChar s = .ok (continuesName s) s := by
  cases s with
  | nil => rfl
  | cons c s =>
    rw [atNameChar, peek_bind]
    dsimp only [List.head?_cons]
    by_cases hc : isNameChar c || c == '\\'
    · rw [if_pos hc, continuesName, hc]
      rfl
    · rw [if_neg hc, continuesName, Bool.eq_false_iff.mpr hc]
      exact atInterpolation_apply _

theorem scanNesting_cons (hparent : allowed.parent) (s : Text) : scanNesting allowed ('&' :: s) =
    if continuesName s then (do return .nesting (some (← scanName)) : Scanner Fragment) s
    else .ok (.nesting none) s := by
  rw [scanNesting, hparent]
  refine (bind_of_ok (rfl : expectChar '&' _ = .ok () s)).trans ?_
  refine (bind_of_ok (atNameChar_apply s)).trans ?_
  split <;> rfl

theorem scanInterpolated_of_scanName (hraw : IsInterpolation raw) (hn : IsName n)
    (h : scanName (n ++ rest) = .ok n rest) :
    scanInterpolated (raw ++ (n ++ rest)) = .ok (.type (raw ++ n)) rest := by
  have hread := (rawInterpolation_eq_ok (hraw.starts (n ++ rest))).mpr ⟨hraw, rfl⟩
  refine (bind_of_ok hread).trans ?_
  rw [bind_of_ok (atNameChar_apply _), hn.continues]
  exact bind_pure_eq_ok.mpr ⟨n, h, rfl⟩

theorem scanInterpolated_alone (hraw : IsInterpolation raw) (hrest : continuesName rest = false) :
    scanInterpolated (raw ++ rest) = .ok (.interpolation raw) rest := by
  have hread := (rawInterpolation_eq_ok (hraw.starts rest)).mpr ⟨hraw, rfl⟩
  refine (bind_of_ok hread).trans ?_
  rw [bind_of_ok (atNameChar_apply _), hrest]
  rfl

theorem ne_of_beginsElement {d : Char} (hc : beginsElement c) (hd : beginsElement d = false) :
    c ≠ d := by
  rintro rfl
  simp [hc] at hd

theorem scanMarked_of_beginsElement (hc : beginsElement c) :
    scanMarked allowed c = (do scanTypeRest (← scanName)) := by
  unfold scanMarked
  split
  case h_12 => exact if_pos hc
  all_goals exact absurd hc (by decide)

theorem scanFragment_element (hns : IsElement ns)
    (hs : IsName ns → continuesName s = false ∧ Closes ns s) (h : scanTypeRest ns s = .ok f rest) :
    scanFragment allowed (ns ++ s) = .ok (some [f]) rest := by
  cases hns with
  | any => exact scanFragment_of_isMark (by decide) h
  | name hname hstarts =>
    obtain ⟨hend, hcloses⟩ := hs hname
    have hread := scanName_eq_ok.mpr ⟨⟨hname, hcloses⟩, rfl, hend⟩
    obtain ⟨c, n, rfl⟩ := List.exists_cons_of_ne_nil hname.ne_nil
    have hc : beginsElement c := hstarts
    have hne {d : Char} (hd : beginsElement d = false) : c ≠ d := ne_of_beginsElement hc hd
    have hmark : isMark c := by
      simp [isMark, isBlank, isQuote, hne (by decide : beginsElement ' ' = false),
        hne (by decide : beginsElement '\t' = false), hne (by decide : beginsElement '\n' = false),
        hne (by decide : beginsElement '/' = false), hne (by decide : beginsElement '#' = false),
        hne (by decide : beginsElement '@' = false), hne (by decide : beginsElement '"' = false),
        hne (by decide : beginsElement '\'' = false), hne (by decide : beginsElement ',' = false)]
    refine scanFragment_of_isMark hmark ?_
    rw [scanMarked_of_beginsElement hc]
    exact (bind_of_ok hread).trans h

/-- The `|` behind a namespace ends it. -/
theorem endsNamespace (s ns : Text) : continuesName ('|' :: s) = false ∧ Closes ns ('|' :: s) := by
  have hend : continuesName ('|' :: s) = false :=
    continuesName_cons_eq_false (by decide) s
  exact ⟨hend, closes_of_continuesName hend rfl ns⟩

theorem scanName_behind (t : Text) (c : Char) (hhex : isHexDigit c = false) (hslash : c ≠ '\\')
    (hn : IsName n) (h : continuesName rest = false ∧ Closes (t ++ c :: n) rest) :
    scanName (n ++ rest) = .ok n rest :=
  scanName_eq_ok.mpr ⟨⟨hn, (closes_append_cons hhex hslash t n rest).mp h.2⟩, rfl, h.1⟩

theorem scanFragment_type (hname : IsTypeName n) (hstops : (Fragment.type n).Stops rest) :
    scanFragment allowed (n ++ rest) = .ok (some [.type n]) rest := by
  cases hname with
  | element hn =>
    refine scanFragment_element hn (fun hn => hstops.name (endsInName_type hn [])) ?_
    exact scanTypeRest_of_startsBar_eq_false (hstops.bar hn)
  | @interpolated raw n hraw hn =>
    obtain ⟨hend, hcloses⟩ := hstops.name (endsInName_type hn raw)
    have hopen := separates_isNameUnit.openEscape? (.interpolation hraw)
    rw [List.append_assoc]
    refine scanFragment_interpolation (hraw.starts _) (scanInterpolated_of_scanName hraw hn ?_)
    refine scanName_eq_ok.mpr ⟨⟨hn, ?_⟩, rfl, hend⟩
    rwa [Closes, Fragment.text, openEscape?_append_of_eq_none hopen] at hcloses
  | @qualified ns n hns hn =>
    have happend : ns ++ '|' :: n = (ns ++ ['|']) ++ n := by simp
    have hends : (Fragment.type (ns ++ '|' :: n)).endsInName := happend ▸ endsInName_type hn _
    have hread := scanName_behind ns '|' (by decide) (by decide) hn (hstops.name hends)
    rw [List.append_assoc]
    refine scanFragment_element hns (fun _ => endsNamespace _ ns) ?_
    refine (scanTypeRest_eq_ok (startsBar_cons (hn.continues rest))).mpr (.inr ⟨?_, n, hread, rfl⟩)
    exact head_ne_of_continuesName (hn.continues rest) (by decide)
  | @qualifiedAny ns hns =>
    rw [List.append_assoc]
    refine scanFragment_element hns (fun _ => endsNamespace _ ns) ?_
    exact (scanTypeRest_eq_ok rfl).mpr (.inl ⟨rfl, rfl⟩)
  | @unqualified n hn =>
    have hends := endsInName_type hn ['|']
    have hread := scanName_behind [] '|' (by decide) (by decide) hn (hstops.name hends)
    exact scanFragment_of_isMark (by decide) (bind_pure_eq_ok.mpr ⟨n, hread, rfl⟩)

theorem startsInterpolation_hash_of_continuesName (h : continuesName s) :
    startsInterpolation ('#' :: s) = false := by
  cases s with
  | nil => rfl
  | cons c s =>
    have hc := head_ne_of_continuesName h (by decide : endsName '{')
    unfold startsInterpolation
    split
    · next heq =>
      cases heq
      exact absurd rfl hc
    · rfl

/-- The written form of the argument of a pseudo. -/
def argumentText : Option Text → Text
  | some argument => '(' :: argument ++ [')']
  | none => []

theorem pseudoText_eq (p : Pseudo) :
    p.text = (if p.isElement then [':', ':'] else [':']) ++ (p.name ++ argumentText p.argument) := by
  obtain ⟨name, isElement, argument⟩ := p
  cases argument <;> simp [Pseudo.text, argumentText]

/-- The rest of a pseudo, behind its colons. -/
def scanPseudoName (isElement : Bool) : Scanner Pseudo := do
  let name ← scanName
  if ← scanChar '(' then
    return ⟨name, isElement, some (Text.collapse (← balanced '(' ')'))⟩
  return ⟨name, isElement, none⟩

theorem scanPseudoName_append {p : Pseudo} (hp : p.Legible)
    (hname : scanName (p.name ++ (argumentText p.argument ++ rest)) =
      .ok p.name (argumentText p.argument ++ rest))
    (hrest : p.argument = none → rest.head? ≠ some '(') :
    scanPseudoName p.isElement (p.name ++ (argumentText p.argument ++ rest)) = .ok p rest := by
  obtain ⟨name, isElement, argument⟩ := p
  refine (bind_of_ok hname).trans ?_
  cases argument with
  | none => exact bind_of_ok (scanChar_eq_ok.mpr (.inr ⟨rfl, hrest rfl, rfl⟩))
  | some argument =>
    obtain ⟨hbalanced, hcollapse⟩ := hp.argument argument rfl
    have hopen : scanChar '(' (argumentText (some argument) ++ rest) =
        .ok true (argument ++ ')' :: rest) :=
      scanChar_eq_ok.mpr (.inl ⟨rfl, by simp [argumentText]⟩)
    refine (bind_of_ok hopen).trans ?_
    have hread : balanced '(' ')' (argument ++ ')' :: rest) = .ok argument rest :=
      (balanced_eq_ok isBrackets_parens).mpr ⟨hbalanced, rfl⟩
    exact bind_pure_eq_ok.mpr ⟨argument, hread, by rw [hcollapse]⟩

theorem closes_pseudoText {p : Pseudo} (hargument : p.argument = none) :
    Closes p.text rest ↔ Closes p.name rest := by
  rw [pseudoText_eq, hargument, argumentText, List.append_nil]
  cases p.isElement with
  | false => exact closes_append_cons (by decide) (by decide) [] p.name rest
  | true => exact closes_append_cons (by decide) (by decide) [':'] p.name rest

theorem scanPseudo_append {p : Pseudo} (hp : p.Legible) (hstops : (Fragment.pseudo p).Stops rest) :
    scanPseudo (p.text ++ rest) = .ok p rest := by
  have hcontinues := hp.name.continues (argumentText p.argument ++ rest)
  have hname : scanName (p.name ++ (argumentText p.argument ++ rest)) =
      .ok p.name (argumentText p.argument ++ rest) := by
    cases hargument : p.argument with
    | none =>
      obtain ⟨hend, hcloses⟩ := hstops.name (by simp [Fragment.endsInName, hargument])
      exact scanName_eq_ok.mpr ⟨⟨hp.name, (closes_pseudoText hargument).mp hcloses⟩, rfl, hend⟩
    | some argument =>
      have hends : EndsNames (argumentText (some argument) ++ rest) :=
        ⟨continuesName_cons_eq_false (by decide) _, rfl, rfl⟩
      exact hends.scanName hp.name
  have hread := scanPseudoName_append hp hname fun hnone =>
    hstops.argument (by simp [Fragment.takesArgument, hnone])
  rw [pseudoText_eq]
  cases helement : p.isElement with
  | true =>
    rw [helement] at hread
    rw [if_pos rfl, List.append_assoc, List.append_assoc]
    exact hread
  | false =>
    rw [helement] at hread
    have hcolon := head_ne_of_continuesName hcontinues (by decide : endsName ':')
    rw [if_neg Bool.false_ne_true, List.append_assoc, List.append_assoc]
    exact (bind_of_ok (scanChar_eq_ok.mpr (.inr ⟨rfl, hcolon, rfl⟩))).trans hread

/-- **A legible fragment is read back** in front of any text that does not go on with it. -/
theorem scanFragment_text (hf : f.Legible) (hspace : f ≠ .space) (hstops : f.Stops rest)
    (hparent : f.isNesting → allowed.parent) (hplaceholder : f.isPlaceholder → allowed.placeholder) :
    scanFragment allowed (f.text ++ rest) = .ok (some [f]) rest := by
  match f with
  | .type name => exact scanFragment_type hf hstops
  | .id name =>
    have hread := scanName_behind [] '#' (by decide) (by decide) hf (hstops.name rfl)
    exact scanFragment_hash (startsInterpolation_hash_of_continuesName (hf.continues rest)) hread
  | .className name =>
    have hread := scanName_behind [] '.' (by decide) (by decide) hf (hstops.name rfl)
    exact scanFragment_of_isMark (by decide) (bind_pure_eq_ok.mpr ⟨name, hread, rfl⟩)
  | .placeholder name =>
    have hread := scanName_behind [] '%' (by decide) (by decide) hf (hstops.name rfl)
    refine scanFragment_of_isMark (by decide) ?_
    change scanPlaceholder allowed ('%' :: (name ++ rest)) = _
    rw [scanPlaceholder, hplaceholder rfl]
    exact bind_pure_eq_ok.mpr ⟨name, hread, rfl⟩
  | .attribute a =>
    have htext : (Fragment.attribute a).text ++ rest =
        '[' :: (a.name ++ (a.test.map AttributeTest.text).getD [] ++ ']' :: rest) := by
      simp [Fragment.text, Attribute.text]
    rw [htext]
    have hread := scanAttribute_append hf rest
    exact scanFragment_of_isMark (by decide) (bind_pure_eq_ok.mpr ⟨a, hread, rfl⟩)
  | .pseudo p =>
    have hread := scanPseudo_append hf hstops
    obtain ⟨s, hs⟩ : ∃ s, p.text ++ rest = ':' :: s := by
      rw [pseudoText_eq]
      cases p.isElement <;> exact ⟨_, rfl⟩
    rw [Fragment.text]
    rw [hs] at hread ⊢
    exact scanFragment_of_isMark (by decide) (bind_pure_eq_ok.mpr ⟨p, hread, rfl⟩)
  | .combinator c => cases c <;> exact scanFragment_of_isMark (by decide) rfl
  | .nesting none =>
    have hend := Bool.eq_false_iff.mp (hstops.name rfl).1
    refine scanFragment_of_isMark (by decide) ?_
    exact (scanNesting_cons (hparent rfl) rest).trans (if_neg hend)
  | .nesting (some suffix) =>
    have hread := scanName_behind [] '&' (by decide) (by decide) (hf suffix rfl) (hstops.name rfl)
    refine scanFragment_of_isMark (by decide) ?_
    refine (scanNesting_cons (hparent rfl) _).trans ((if_pos ((hf suffix rfl).continues rest)).trans ?_)
    exact bind_pure_eq_ok.mpr ⟨suffix, hread, rfl⟩
  | .quoted contents quote =>
    obtain @⟨q, _, hq, hbody⟩ := hf
    rw [Fragment.text, (Quote.text_ofChar hq).1]
    refine scanFragment_quote hq (stringContents_eq_ok.mpr ⟨q, hq, hbody, by simp⟩)
  | .space => exact absurd rfl hspace
  | .interpolation raw =>
    exact scanFragment_interpolation (hf.starts rest) (scanInterpolated_alone hf (hstops.name rfl).1)

/-! ## What a fragment starts with -/

/-- The first characters tell that neither white space, a comment nor an argument starts, and whether
a name or the `|` of a namespace does, whatever comes behind the text. -/
structure IsFirm (t : Text) : Prop where
  ne_nil : t ≠ []
  head : ∀ c ∈ t.head?, isBlank c = false ∧ c ≠ '/' ∧ c ≠ '('
  ne_mark : t ≠ ['#'] ∧ t ≠ ['@'] ∧ t ≠ ['|']

theorem isFirm_cons (hhead : isBlank c = false ∧ c ≠ '/' ∧ c ≠ '(')
    (hmark : s = [] → c ≠ '#' ∧ c ≠ '@' ∧ c ≠ '|') : IsFirm (c :: s) where
  ne_nil := List.cons_ne_nil c s
  head _ hc := by
    cases hc
    exact hhead
  ne_mark := by
    simp only [ne_eq, List.cons.injEq]
    tauto

namespace IsFirm

theorem append (h : IsFirm t) (s : Text) : IsFirm (t ++ s) := by
  obtain ⟨hne, hhead, hmark⟩ := h
  obtain ⟨c, t, rfl⟩ := List.exists_cons_of_ne_nil hne
  refine isFirm_cons (hhead c rfl) fun hnil => ?_
  obtain rfl := (List.append_eq_nil_iff.mp hnil).1
  simpa using hmark

theorem continuesName_append (h : IsFirm t) (s : Text) : continuesName (t ++ s) = continuesName t := by
  obtain ⟨hne, -, hmark⟩ := h
  obtain ⟨c, t, rfl⟩ := List.exists_cons_of_ne_nil hne
  cases t with
  | nil =>
    simp only [ne_eq, List.cons.injEq, and_true] at hmark
    obtain ⟨hhash, hat, -⟩ := hmark
    simp [continuesName, startsInterpolation_eq_false hhash hat]
  | cons d t =>
    have hstarts : startsInterpolation (c :: d :: t ++ s) = startsInterpolation (c :: d :: t) := by
      by_cases hd : d = '{'
      · subst hd
        rfl
      · simp [startsInterpolation, hd]
    rw [List.cons_append, continuesName, ← List.cons_append, hstarts, continuesName]

theorem startsBar_append (h : IsFirm t) (s : Text) : startsBar (t ++ s) = startsBar t := by
  obtain ⟨hne, -, hmark⟩ := h
  obtain ⟨c, t, rfl⟩ := List.exists_cons_of_ne_nil hne
  by_cases hc : c = '|'
  · subst hc
    obtain ⟨d, t, rfl⟩ := List.exists_cons_of_ne_nil (fun h : t = [] => hmark.2.2 (by rw [h]))
    rfl
  · rw [startsBar_of_head (by simpa using hc), startsBar_of_head (by simpa using hc)]

theorem head?_any_isBlank (h : IsFirm t) (s : Text) : (t ++ s).head?.any isBlank = false := by
  obtain ⟨hne, hhead, -⟩ := h
  obtain ⟨c, t, rfl⟩ := List.exists_cons_of_ne_nil hne
  exact (hhead c rfl).1

theorem head?_ne_paren (h : IsFirm t) (s : Text) : (t ++ s).head? ≠ some '(' := by
  obtain ⟨hne, hhead, -⟩ := h
  obtain ⟨c, t, rfl⟩ := List.exists_cons_of_ne_nil hne
  simpa using (hhead c rfl).2.2

end IsFirm

theorem isFirm_of_isInterpolation (hraw : IsInterpolation raw) : IsFirm raw := by
  obtain ⟨rfl | rfl, -⟩ := hraw
  · exact isFirm_cons (by decide) fun h => by cases h
  · exact isFirm_cons (by decide) fun h => by cases h

theorem IsName.isFirm (hn : IsName n) : IsFirm n := by
  obtain ⟨hpieces, hne⟩ := hn
  cases hpieces with
  | nil => exact absurd rfl hne
  | escape he =>
    obtain ⟨e, rfl⟩ := he.exists_eq_cons
    exact isFirm_cons (by decide) fun _ => by decide
  | unit hu =>
    cases hu with
    | char hc =>
      have hne {d : Char} (hd : isNameChar d = false) := ne_of_isNameChar hc hd
      exact isFirm_cons ⟨isBlank_eq_false_of_isNameChar hc, hne (by decide), hne (by decide)⟩ fun _ =>
        ⟨hne (by decide), hne (by decide), hne (by decide)⟩
    | interpolation hraw => exact (isFirm_of_isInterpolation hraw).append _

theorem IsElement.isFirm (hn : IsElement n) : IsFirm n := by
  cases hn with
  | any => exact isFirm_cons (by decide) fun _ => by decide
  | name hn => exact hn.isFirm

theorem IsTypeName.isFirm (hn : IsTypeName n) : IsFirm n := by
  cases hn with
  | element hn => exact hn.isFirm
  | interpolated hraw => exact (isFirm_of_isInterpolation hraw).append _
  | qualified hns => exact hns.isFirm.append _
  | qualifiedAny hns => exact hns.isFirm.append _
  | unqualified hn =>
    exact isFirm_cons (by decide) fun h => absurd h hn.ne_nil

theorem isFirm_text (hf : f.Legible) (hspace : f ≠ .space) : IsFirm f.text := by
  match f with
  | .type n => exact IsTypeName.isFirm hf
  | .id n => exact isFirm_cons (by decide) fun h => absurd h hf.ne_nil
  | .className n | .placeholder n | .attribute a | .nesting s =>
    exact isFirm_cons (by decide) fun _ => by decide
  | .pseudo p =>
    rw [Fragment.text, pseudoText_eq]
    cases p.isElement <;> exact isFirm_cons (by decide) fun _ => by decide
  | .combinator c => cases c <;> exact isFirm_cons (by decide) fun _ => by decide
  | .quoted contents quote =>
    obtain @⟨q, _, hq, hbody⟩ := hf
    simp only [isQuote, Bool.or_eq_true, beq_iff_eq] at hq
    rcases hq with rfl | rfl <;> exact isFirm_cons (by decide) fun _ => by decide
  | .space => exact absurd rfl hspace
  | .interpolation raw => exact isFirm_of_isInterpolation hf

end Selector

end NestedCss
