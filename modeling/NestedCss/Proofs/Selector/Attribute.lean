import NestedCss.Proofs.Selector.Name

/-!
# Reading attribute selectors

* `Selector.IsAttributeName`, `Selector.IsValue`: the parts of an attribute selector;
* `Attribute.Legible`: attribute selectors that are read back as they are written;
* **`Selector.scanAttribute_append`**: the written form is read back;
* **`Selector.legible_of_scanAttribute`**: all that is read is legible.
-/

namespace NestedCss

open Scanner

namespace Selector

/-! ## Parts of attribute selectors -/

/-- The name in an attribute selector, behind the `*|` of any namespace. -/
inductive IsLocalName : Text → Prop
  | name {n : Text} : IsName n → IsLocalName n
  | qualified {ns n : Text} : IsName ns → IsName n → IsLocalName (ns ++ '|' :: n)

/-- The written form of the name of an attribute. -/
inductive IsAttributeName : Text → Prop
  | plain {n : Text} : IsLocalName n → IsAttributeName n
  | any {n : Text} : IsLocalName n → IsAttributeName ('*' :: '|' :: n)

/-- What stands between two quotes of a kind. -/
inductive IsQuoted : Quote → Text → Prop
  | mk {q : Char} {contents : Text} : isQuote q → StringBody q contents → IsQuoted (.ofChar q) contents

/-- The value of an attribute is written in its quotes, or without any such that nothing in front of it
is taken for a quote or a comment. -/
inductive IsValue : Quote → Text → Prop
  | quoted {quote : Quote} {v : Text} : IsQuoted quote v → IsValue quote v
  | bare {v : Text} : IsBareValue v → isSolid v → v.head?.any isQuote = false → IsValue .bare v

end Selector

open Selector

/-- The test is read back as it is written. A modifier needs a blank in front of it that the value leaves
alone. -/
structure AttributeTest.Legible (t : AttributeTest) : Prop where
  value : IsValue t.quote t.value
  modifier : ∀ m ∈ t.modifier, m.isAlpha ∧ (t.quote = .bare → openEscape? t.value = none)

/-- The attribute selector is read back as it is written. -/
structure Attribute.Legible (a : Attribute) : Prop where
  name : IsAttributeName a.name
  test : ∀ t ∈ a.test, t.Legible

namespace Selector

variable {s rest n t u ns v : Text} {c : Char} {quote : Quote}

/-! ## Names of attributes -/

/-- The rest of the name of an attribute, of which `before` was read. -/
def scanLocalName (before : Text) : Scanner Text := do
  let name := before ++ (← scanName)
  if ← atNamespaceBar then
    skip
    return name ++ '|' :: (← scanName)
  return name

theorem isLocalName_of_scanLocalName {before : Text} (h : scanLocalName before s = .ok n rest) :
    ∃ m, IsLocalName m ∧ n = before ++ m ∧ s = m ++ rest := by
  obtain ⟨m, s', hm, h'⟩ := bind_eq_ok.mp h
  obtain ⟨⟨hname, -⟩, rfl, -⟩ := scanName_eq_ok.mp hm
  rw [bind_of_ok (atNamespaceBar_apply _)] at h'
  split at h'
  · next hbar =>
    obtain ⟨s', rfl, -⟩ := startsBar_eq_true hbar
    rw [skip_bind] at h'
    obtain ⟨m', hm', rfl⟩ := bind_pure_eq_ok.mp h'
    obtain ⟨⟨hname', -⟩, rfl, -⟩ := scanName_eq_ok.mp hm'
    exact ⟨_, .qualified hname hname', by simp, by simp⟩
  · cases h'
    exact ⟨_, .name hname, rfl, rfl⟩

theorem scanLocalName_append (before : Text) (hn : IsLocalName n) (hrest : EndsNames rest) :
    scanLocalName before (n ++ rest) = .ok (before ++ n) rest := by
  cases hn with
  | name hn =>
    refine (bind_of_ok (hrest.scanName hn)).trans ?_
    rw [bind_of_ok (atNamespaceBar_apply _), hrest.bar]
    rfl
  | @qualified ns n hns hn =>
    have hend : continuesName ('|' :: (n ++ rest)) = false :=
      continuesName_cons_eq_false (by decide) _
    have hname : scanName (ns ++ '|' :: (n ++ rest)) = .ok ns ('|' :: (n ++ rest)) :=
      scanName_eq_ok.mpr ⟨⟨hns, closes_of_continuesName hend rfl ns⟩, rfl, hend⟩
    have hbar : startsBar ('|' :: (n ++ rest)) := startsBar_cons (hn.continues rest)
    rw [List.append_assoc, List.cons_append]
    refine (bind_of_ok hname).trans ?_
    rw [bind_of_ok (atNamespaceBar_apply _), hbar]
    simp only [if_true, skip_bind]
    exact bind_pure_eq_ok.mpr ⟨n, hrest.scanName hn, by simp⟩

theorem isAttributeName_of_scanAttributeName (h : scanAttributeName s = .ok n rest) :
    IsAttributeName n ∧ s = n ++ rest := by
  obtain ⟨found, s₁, hstar, hname⟩ := bind_eq_ok.mp h
  obtain ⟨rfl, rfl⟩ | ⟨rfl, -, rfl⟩ := scanChar_eq_ok.mp hstar
  · obtain ⟨_, s₂, hbar, hname⟩ := bind_eq_ok.mp hname
    obtain rfl := expectChar_eq_ok.mp hbar
    change scanLocalName ['*', '|'] s₂ = _ at hname
    obtain ⟨m, hm, rfl, rfl⟩ := isLocalName_of_scanLocalName hname
    exact ⟨.any hm, rfl⟩
  · change scanLocalName [] _ = _ at hname
    obtain ⟨m, hm, rfl, rfl⟩ := isLocalName_of_scanLocalName hname
    exact ⟨.plain hm, rfl⟩

theorem IsLocalName.continues (hn : IsLocalName n) (s : Text) : continuesName (n ++ s) := by
  cases hn with
  | name hn => exact hn.continues s
  | qualified hns hn =>
    rw [List.append_assoc]
    exact hns.continues _

theorem scanAttributeName_append (hn : IsAttributeName n) (hrest : EndsNames rest) :
    scanAttributeName (n ++ rest) = .ok n rest := by
  cases hn with
  | plain hn =>
    have hstar : scanChar '*' (n ++ rest) = .ok false (n ++ rest) := by
      refine scanChar_eq_ok.mpr (.inr ⟨rfl, ?_, rfl⟩)
      exact head_ne_of_continuesName (hn.continues rest) (by decide)
    exact (bind_of_ok hstar).trans (scanLocalName_append [] hn hrest)
  | @any n hn =>
    exact scanLocalName_append ['*', '|'] hn hrest

/-! ## Operators -/

theorem scanOperator_text (operator : AttributeOperator) (rest : Text) :
    scanOperator (operator.text ++ rest) = .ok operator rest := by
  cases operator <;> rfl

theorem finish_eq_ok {operator operator' : AttributeOperator}
    (h : (do expectChar '='; return operator : Scanner AttributeOperator) s = .ok operator' rest) :
    operator = operator' ∧ s = '=' :: rest := by
  obtain ⟨_, _, hequals, h'⟩ := bind_eq_ok.mp h
  obtain rfl := expectChar_eq_ok.mp hequals
  obtain ⟨rfl, rfl⟩ := pure_eq_ok.mp h'
  exact ⟨rfl, rfl⟩

/-- The rest of an operator that starts with the character, or what to do if none does. -/
def operatorFrom (default : Scanner AttributeOperator) : Option Char → Scanner AttributeOperator
  | some '=' => return .equals
  | some '~' => do expectChar '='; return .includes
  | some '|' => do expectChar '='; return .dash
  | some '^' => do expectChar '='; return .startsWith
  | some '$' => do expectChar '='; return .endsWith
  | some '*' => do expectChar '='; return .contains
  | _ => default

theorem scanOperator_of_ne (hequals : c ≠ '=') (htilde : c ≠ '~') (hbar : c ≠ '|') (hcaret : c ≠ '^')
    (hdollar : c ≠ '$') (hstar : c ≠ '*') :
    scanOperator (c :: s) = failAt .expectedOperator (.last s.length) s := by
  have hdefault (default : Scanner AttributeOperator) : operatorFrom default (some c) = default := by
    simp [operatorFrom, hequals, htilde, hbar, hcaret, hdollar, hstar]
  exact congrFun (hdefault fun s => failAt .expectedOperator (.last s.length) s) s

theorem eq_of_scanOperator {operator : AttributeOperator} (h : scanOperator s = .ok operator rest) :
    s = operator.text ++ rest := by
  cases s with
  | nil => cases h
  | cons c s =>
    by_cases hequals : c = '='
    · subst hequals
      cases h
      rfl
    by_cases htilde : c = '~'
    · subst htilde
      obtain ⟨rfl, rfl⟩ := finish_eq_ok h
      rfl
    by_cases hbar : c = '|'
    · subst hbar
      obtain ⟨rfl, rfl⟩ := finish_eq_ok h
      rfl
    by_cases hcaret : c = '^'
    · subst hcaret
      obtain ⟨rfl, rfl⟩ := finish_eq_ok h
      rfl
    by_cases hdollar : c = '$'
    · subst hdollar
      obtain ⟨rfl, rfl⟩ := finish_eq_ok h
      rfl
    by_cases hstar : c = '*'
    · subst hstar
      obtain ⟨rfl, rfl⟩ := finish_eq_ok h
      rfl
    rw [scanOperator_of_ne hequals htilde hbar hcaret hdollar hstar] at h
    cases h

/-! ## Values -/

theorem Quote.ofChar_of_isQuote_eq_false (h : isQuote c = false) : Quote.ofChar c = .bare := by
  simp only [isQuote, Bool.or_eq_false_iff, beq_eq_false_iff_ne] at h
  simp [Quote.ofChar, h]

theorem Quote.text_ofChar (h : isQuote c) : (Quote.ofChar c).text = [c] ∧ Quote.ofChar c ≠ .bare := by
  simp only [isQuote, Bool.or_eq_true, beq_iff_eq] at h
  rcases h with rfl | rfl <;> decide

/-- The value of an attribute, without the quotes that it starts with. -/
def scanValue (quote : Quote) : Scanner Text :=
  if quote = .bare then scanBareValue else stringContents

/-- The quotes that a value starts with. -/
def startingQuote (s : Text) : Quote := s.head?.elim .bare .ofChar

theorem scanValue_append (hv : IsValue quote v) (hends : endsValue rest)
    (hcloses : quote = .bare → Closes v rest) :
    startingQuote (quote.text ++ v ++ quote.text ++ rest) = quote ∧
      scanValue quote (quote.text ++ v ++ quote.text ++ rest) = .ok v rest := by
  cases hv with
  | quoted hquoted =>
    obtain @⟨q, _, hq, hbody⟩ := hquoted
    obtain ⟨htext, hne⟩ := Quote.text_ofChar hq
    rw [htext, scanValue, if_neg hne]
    exact ⟨rfl, stringContents_eq_ok.mpr ⟨q, hq, hbody, by simp⟩⟩
  | bare hbare hsolid hquote =>
    have hread := scanBareValue_eq_ok.mpr ⟨⟨hbare, hcloses rfl⟩, rfl, hends⟩
    obtain ⟨c, v, rfl⟩ := List.exists_cons_of_ne_nil hbare.ne_nil
    exact ⟨Quote.ofChar_of_isQuote_eq_false hquote, by simpa [Quote.text, scanValue] using hread⟩

theorem isValue_of_scanValue (hsolid : isSolid s) (h : scanValue (startingQuote s) s = .ok v rest) :
    IsValue (startingQuote s) v ∧ s = (startingQuote s).text ++ v ++ (startingQuote s).text ++ rest ∧
      (startingQuote s = .bare → Closes v rest ∧ endsValue rest) := by
  unfold scanValue at h
  split at h
  · next hbare =>
    obtain ⟨⟨hv, hcloses⟩, rfl, hends⟩ := scanBareValue_eq_ok.mp h
    rw [hbare]
    refine ⟨.bare hv (isSolid_of_append hv.ne_nil hsolid) ?_, by simp [Quote.text], fun _ => ⟨hcloses, hends⟩⟩
    obtain ⟨c, v, rfl⟩ := List.exists_cons_of_ne_nil hv.ne_nil
    rw [List.head?_cons, Option.any_some, Bool.eq_false_iff]
    exact fun hquote => (Quote.text_ofChar hquote).2 hbare
  · next hne =>
    obtain ⟨q, hq, hbody, rfl⟩ := stringContents_eq_ok.mp h
    obtain ⟨htext, -⟩ := Quote.text_ofChar hq
    have hstarts : startingQuote (q :: v ++ q :: rest) = .ofChar q := rfl
    rw [hstarts, htext]
    exact ⟨.quoted ⟨hq, hbody⟩, by simp, fun h => absurd h (Quote.text_ofChar hq).2⟩

/-! ## Whole attribute selectors -/

theorem modifier_of_scanModifier {modifier : Option Char} (h : scanModifier s = .ok modifier rest) :
    rest <:+ s ∧ ∀ m ∈ modifier, m.isAlpha ∧ s.head? = some m := by
  cases s with
  | nil =>
    cases h
    simp
  | cons c s =>
    rw [scanModifier, peek_bind, List.head?_cons] at h
    dsimp only at h
    split at h
    · next hc =>
      rw [skip_bind] at h
      obtain ⟨_, s', htrivia, hpure⟩ := bind_eq_ok.mp h
      cases hpure
      have hsuffix := (trivia_eq_ok htrivia).2
      exact ⟨hsuffix.trans (List.suffix_cons _ _), by simpa using hc⟩
    · cases h
      simp

theorem scanModifier_letter (hc : c.isAlpha) (hs : isSolid s) : scanModifier (c :: s) = .ok (some c) s := by
  rw [scanModifier, peek_bind, List.head?_cons]
  simp only [hc, if_true]
  rw [skip_bind, bind_of_ok (trivia_solid hs)]
  rfl

/-- The text of a test ends the name in front of it. -/
theorem endsNames_operator (operator : AttributeOperator) (s : Text) : EndsNames (operator.text ++ s) := by
  cases operator <;>
    exact ⟨continuesName_cons_eq_false (by decide) _, rfl, rfl⟩

theorem endsNames_bracket (s : Text) : EndsNames (']' :: s) :=
  ⟨continuesName_cons_eq_false (by decide) _, rfl, rfl⟩

theorem IsAttributeName.isSolid (hn : IsAttributeName n) (s : Text) : isSolid (n ++ s) := by
  cases hn with
  | plain hn => exact isSolid_of_continuesName (hn.continues s)
  | any hn => exact isSolid_cons (by decide) (by decide) _

theorem isSolid_bracket (s : Text) : isSolid (']' :: s) := isSolid_cons (by decide) (by decide) s

theorem isSolid_operator (operator : AttributeOperator) (s : Text) : isSolid (operator.text ++ s) := by
  cases operator <;> exact isSolid_cons (by decide) (by decide) _

theorem IsValue.isSolid (hv : IsValue quote v) (hc : c ≠ '/') (hstar : c ≠ '*') (s : Text) :
    isSolid (quote.text ++ v ++ quote.text ++ c :: s) := by
  cases hv with
  | quoted hquoted =>
    obtain ⟨hq, hbody⟩ := hquoted
    rw [(Quote.text_ofChar hq).1]
    simp only [isQuote, Bool.or_eq_true, beq_iff_eq] at hq
    rcases hq with rfl | rfl <;> exact isSolid_cons (by decide) (by decide) _
  | bare hbare hsolid _ =>
    simpa [Quote.text] using isSolid_append hbare.ne_nil hsolid hc hstar s

/-- The written form of a modifier. -/
def modifierText : Option Char → Text
  | some modifier => [' ', modifier]
  | none => []

theorem testText_eq (t : AttributeTest) :
    t.text = t.operator.text ++ (t.quote.text ++ t.value ++ t.quote.text ++ modifierText t.modifier) := by
  obtain ⟨_, _, _, modifier⟩ := t
  cases modifier <;> simp [AttributeTest.text, modifierText]

theorem scanModifier_text {modifier : Option Char} (hm : ∀ m ∈ modifier, m.isAlpha) (rest : Text) :
    ∃ s, trivia (modifierText modifier ++ ']' :: rest) = .ok () s ∧
      scanModifier s = .ok modifier (']' :: rest) := by
  cases modifier with
  | none => exact ⟨_, trivia_solid (isSolid_bracket rest), rfl⟩
  | some m =>
    have hm : m.isAlpha := hm m rfl
    have hname : isNameChar m := by simp [isNameChar, isNameStart, hm]
    have hsolid : isSolid (m :: ']' :: rest) :=
      isSolid_cons (isBlank_eq_false_of_isNameChar hname) (ne_of_isNameChar hname (by decide)) _
    exact ⟨_, trivia_blank (by decide) hsolid, scanModifier_letter hm (isSolid_bracket rest)⟩

/-- What stands behind a value ends it. -/
theorem ends_value {t : AttributeTest} (ht : t.Legible) (rest : Text) :
    endsValue (modifierText t.modifier ++ ']' :: rest) ∧
      (t.quote = .bare → Closes t.value (modifierText t.modifier ++ ']' :: rest)) ∧
      isSolid (t.quote.text ++ t.value ++ t.quote.text ++ (modifierText t.modifier ++ ']' :: rest)) := by
  obtain ⟨operator, value, quote, modifier⟩ := t
  obtain ⟨hvalue, hmodifier⟩ := ht
  cases modifier with
  | none => exact ⟨rfl, fun _ _ _ => ⟨rfl, fun _ => rfl⟩, hvalue.isSolid (by decide) (by decide) _⟩
  | some m =>
    refine ⟨rfl, fun hbare => ?_, hvalue.isSolid (by decide) (by decide) _⟩
    exact closes_of_eq_none ((hmodifier m rfl).2 hbare) _

/-- The rest of an attribute selector, behind the name. -/
def scanTest (name : Text) : Scanner Attribute := do
  let operator ← scanOperator
  trivia
  let quote := (← peek).elim Quote.bare Quote.ofChar
  let value ← scanValue quote
  trivia
  let modifier ← scanModifier
  expectChar ']'
  return ⟨name, some ⟨operator, value, quote, modifier⟩⟩

theorem scanTest_eq (name : Text) : scanTest name = (do
    let operator ← scanOperator
    trivia
    let quote := (← peek).elim Quote.bare Quote.ofChar
    let value ← if quote = .bare then scanBareValue else stringContents
    trivia
    let modifier ← scanModifier
    expectChar ']'
    return ⟨name, some ⟨operator, value, quote, modifier⟩⟩) := by
  refine bind_congr fun operator => bind_congr fun _ => bind_congr fun next => ?_
  dsimp only [scanValue]
  split <;> rfl

theorem scanTest_append {test : AttributeTest} (htest : test.Legible) (name rest : Text) :
    scanTest name (test.text ++ ']' :: rest) = .ok ⟨name, some test⟩ rest := by
  obtain ⟨hends, hcloses, hsolid⟩ := ends_value htest rest
  obtain ⟨s, htrivia, hmodifier⟩ := scanModifier_text (fun m hm => (htest.modifier m hm).1) rest
  obtain ⟨hquote, hvalue⟩ := scanValue_append htest.value hends hcloses
  have htext : test.text ++ ']' :: rest = test.operator.text ++
      (test.quote.text ++ test.value ++ test.quote.text ++ (modifierText test.modifier ++ ']' :: rest)) := by
    simp [testText_eq]
  rw [htext]
  refine (bind_of_ok (scanOperator_text _ _)).trans ?_
  refine (bind_of_ok (trivia_solid hsolid)).trans ?_
  refine (bind_of_ok (rfl : peek _ = .ok _ _)).trans ?_
  simp only [startingQuote] at hquote
  rw [hquote]
  refine (bind_of_ok hvalue).trans ?_
  refine (bind_of_ok htrivia).trans ?_
  exact (bind_of_ok hmodifier).trans (bind_of_ok (rfl : expectChar ']' _ = .ok _ _))

/-- **A legible attribute test is read back** as itself, whatever stands behind it. -/
theorem scanAttribute_append {a : Attribute} (ha : a.Legible) (rest : Text) :
    scanAttribute (a.name ++ (a.test.map AttributeTest.text).getD [] ++ ']' :: rest) = .ok a rest := by
  obtain ⟨name, test⟩ := a
  obtain ⟨hname, htest⟩ := ha
  rw [List.append_assoc]
  refine (bind_of_ok (trivia_solid (hname.isSolid _))).trans ?_
  cases test with
  | none =>
    refine (bind_of_ok (scanAttributeName_append hname (endsNames_bracket rest))).trans ?_
    exact (bind_of_ok (trivia_solid (isSolid_bracket rest))).trans rfl
  | some test =>
    have htest := htest test rfl
    obtain ⟨tail, htail⟩ : ∃ tail, test.text ++ ']' :: rest = test.operator.text ++ tail :=
      ⟨_, by rw [testText_eq, List.append_assoc]⟩
    have hopen : scanChar ']' (test.operator.text ++ tail) = .ok false (test.operator.text ++ tail) := by
      cases test.operator <;> rfl
    have hread := scanTest_append htest name rest
    simp only [Option.map_some, Option.getD_some]
    rw [htail] at hread ⊢
    refine (bind_of_ok (scanAttributeName_append hname (endsNames_operator _ _))).trans ?_
    refine (bind_of_ok (trivia_solid (isSolid_operator _ _))).trans ?_
    refine (bind_of_ok hopen).trans ?_
    rwa [scanTest_eq] at hread

theorem suffix_of_append {s t u : Text} (h : t ++ u <:+ s) : t ⊆ s ∧ u <:+ s :=
  ⟨fun _ hc => h.subset (List.mem_append_left _ hc), (List.suffix_append t u).trans h⟩

/-- A letter is only read behind a value if the value leaves a blank in front of it alone. -/
theorem openEscape?_eq_none_of_letter (hcloses : Closes v s) (hends : endsValue s)
    (htrivia : trivia s = .ok () rest) (hletter : c.isAlpha ∧ rest.head? = some c) :
    openEscape? v = none := by
  rw [Option.eq_none_iff_forall_not_mem]
  intro n hn
  obtain ⟨hblank, -⟩ := hcloses n hn
  have hsolid : isSolid s := by
    cases s with
    | nil => rfl
    | cons d s =>
      refine isSolid_cons hblank ?_ s
      rintro rfl
      cases hends
  rw [trivia_solid hsolid] at htrivia
  cases htrivia
  obtain ⟨s, rfl⟩ := List.head?_eq_some_iff.mp hletter.2
  have hname : isNameChar c := by simp [isNameChar, isNameStart, hletter.1]
  have hne : c ≠ ']' := ne_of_isNameChar hname (by decide)
  simp [endsValue, hne, isAsciiSpace_eq_false_of_isNameChar hname] at hends

theorem legible_of_scanTest {a : Attribute} {name : Text} (h : scanTest name s = .ok a rest) :
    ∃ test, a = ⟨name, some test⟩ ∧ test.Legible ∧ ']' :: rest <:+ s ∧ test.text ⊆ ' ' :: s := by
  obtain ⟨operator, s₁, hoperator, h₁⟩ := bind_eq_ok.mp h
  obtain ⟨_, s₂, htrivia₂, h₂⟩ := bind_eq_ok.mp h₁
  obtain ⟨_, _, hpeek, h₃⟩ := bind_eq_ok.mp h₂
  cases hpeek
  obtain ⟨v, s₃, hvalue, h₃⟩ := bind_eq_ok.mp h₃
  obtain ⟨_, s₄, htrivia₄, h₄⟩ := bind_eq_ok.mp h₃
  obtain ⟨modifier, s₅, hmodifier, h₅⟩ := bind_eq_ok.mp h₄
  obtain ⟨_, s₆, hend, h₆⟩ := bind_eq_ok.mp h₅
  obtain ⟨rfl, rfl⟩ := pure_eq_ok.mp h₆
  obtain rfl := eq_of_scanOperator hoperator
  obtain rfl := expectChar_eq_ok.mp hend
  obtain ⟨hsolid₂, hsuffix₂⟩ := trivia_eq_ok htrivia₂
  obtain ⟨hv, hs₂, hbare⟩ := isValue_of_scanValue hsolid₂ hvalue
  obtain ⟨hsuffix₅, hletter⟩ := modifier_of_scanModifier hmodifier
  have hsuffix₄ := (trivia_eq_ok htrivia₄).2
  rw [hs₂] at hsuffix₂
  obtain ⟨hvalue_subset, hsuffix₃⟩ := suffix_of_append hsuffix₂
  have hclosing : ']' :: s₆ <:+ s₁ := (hsuffix₅.trans hsuffix₄).trans hsuffix₃
  refine ⟨_, rfl, ⟨hv, fun m hm => ⟨(hletter m hm).1, fun hq => ?_⟩⟩, ?_, ?_⟩
  · obtain ⟨hcloses, hends⟩ := hbare hq
    exact openEscape?_eq_none_of_letter hcloses hends htrivia₄ (hletter m hm)
  · exact hclosing.trans (List.suffix_append _ _)
  · have hmodifier_subset : modifierText modifier ⊆ ' ' :: s₁ := by
      cases modifier with
      | none => exact List.nil_subset _
      | some m =>
        have hm : m ∈ s₁ := (hsuffix₄.trans hsuffix₃).subset (List.mem_of_mem_head? (hletter m rfl).2)
        simp [modifierText, hm]
    have hs₁ : ' ' :: s₁ ⊆ ' ' :: (operator.text ++ s₁) :=
      List.cons_subset_cons ' ' (List.subset_append_right _ _)
    rw [testText_eq]
    refine List.append_subset.mpr ⟨?_, List.append_subset.mpr ⟨?_, List.Subset.trans hmodifier_subset hs₁⟩⟩
    · exact List.Subset.trans (List.subset_append_left _ _) (List.subset_cons_self _ _)
    · exact List.Subset.trans (List.subset_cons_of_subset _ hvalue_subset) hs₁

theorem attributeText_subset {a : Attribute} (hname : a.name ⊆ ' ' :: s) (hclosing : ']' ∈ s)
    (htest : ∀ test ∈ a.test, test.text ⊆ ' ' :: s) : a.text ⊆ ' ' :: '[' :: s := by
  have hs : ' ' :: s ⊆ ' ' :: '[' :: s := List.cons_subset_cons _ (List.subset_cons_self _ _)
  have hclosing : [']'] ⊆ ' ' :: '[' :: s := by simp [hclosing]
  refine List.append_subset.mpr ⟨List.append_subset.mpr ⟨?_, ?_⟩, hclosing⟩
  · exact List.cons_subset.mpr ⟨by simp, List.Subset.trans hname hs⟩
  · cases h : a.test with
    | none => exact List.nil_subset _
    | some test => exact List.Subset.trans (htest test h) hs

/-- **What is read is legible**, and made of characters that were there. -/
theorem legible_of_scanAttribute {a : Attribute} (h : scanAttribute s = .ok a rest) :
    a.Legible ∧ rest <:+ s ∧ a.text ⊆ ' ' :: '[' :: s := by
  obtain ⟨_, s₁, htrivia₁, h₁⟩ := bind_eq_ok.mp h
  obtain ⟨name, s₂, hname, h₂⟩ := bind_eq_ok.mp h₁
  obtain ⟨_, s₃, htrivia₃, h₃⟩ := bind_eq_ok.mp h₂
  obtain ⟨closed, s₄, hclosed, h₄⟩ := bind_eq_ok.mp h₃
  obtain ⟨hlegible, rfl⟩ := isAttributeName_of_scanAttributeName hname
  obtain ⟨hname_subset, hsuffix₂⟩ := suffix_of_append (trivia_eq_ok htrivia₁).2
  have hsuffix₃ := (trivia_eq_ok htrivia₃).2.trans hsuffix₂
  obtain ⟨rfl, rfl⟩ | ⟨rfl, -, rfl⟩ := scanChar_eq_ok.mp hclosed
  · cases h₄
    have hclosing : ']' ∈ s := hsuffix₃.subset List.mem_cons_self
    refine ⟨⟨hlegible, nofun⟩, (List.suffix_cons _ _).trans hsuffix₃, ?_⟩
    exact attributeText_subset (List.subset_cons_of_subset _ hname_subset) hclosing nofun
  · rw [← scanTest_eq] at h₄
    obtain ⟨test, rfl, htest, hclosing, htext⟩ := legible_of_scanTest h₄
    have hclosing := hclosing.trans hsuffix₃
    refine ⟨⟨hlegible, ?_⟩, (List.suffix_cons _ _).trans hclosing, ?_⟩
    · rintro _ ⟨⟩
      exact htest
    · refine attributeText_subset (List.subset_cons_of_subset _ hname_subset)
        (hclosing.subset List.mem_cons_self) ?_
      rintro _ ⟨⟩
      exact List.Subset.trans htext (List.cons_subset_cons _ hsuffix₃.subset)

end Selector

end NestedCss
