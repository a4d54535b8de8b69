import NestedCss.Proofs.Selector.Fragment
import NestedCss.Proofs.Text.Collapse

/-!
# What is read is legible

The other direction of `Selector.scanFragment_text`: every fragment that is read from a text is legible
and stops where the rest of the text begins. Most fragments keep all their characters; attribute
tests, arguments and white space lose some.

* **`readFrom_scanFragmentAt`**: `Fragment.ReadFrom` holds of every fragment that is read.
-/

namespace NestedCss

open Scanner Selector

namespace Fragment

/-- Whether the fragment keeps every character that it was read from. -/
def isVerbatim : Fragment → Bool
  | .attribute _ => false
  | .pseudo p => p.argument.isNone
  | .space => false
  | _ => true

/-- The fragment can have been read from the front of a text, up to the `rest` of it. -/
structure ReadFrom (f : Fragment) (s rest : Text) : Prop where
  legible : f.Legible
  stops : f.Stops rest
  consumed : ∃ t, t ≠ [] ∧ s = t ++ rest
  starts : f = .space → ∀ c ∈ s.head?, isBlank c ∨ c = '/'
  subset : f.text ⊆ ' ' :: s
  eq_append : f.isVerbatim → s = f.text ++ rest

theorem ReadFrom.of_eq {f : Fragment} {s rest : Text} (hlegible : f.Legible) (hstops : f.Stops rest)
    (hspace : f.isSpace = false) (heq : s = f.text ++ rest) : f.ReadFrom s rest where
  legible := hlegible
  stops := hstops
  consumed := by
    refine ⟨f.text, (isFirm_text hlegible ?_).ne_nil, heq⟩
    rintro rfl
    cases hspace
  starts h := by
    subst h
    cases hspace
  subset := heq ▸ List.subset_cons_of_subset _ (List.subset_append_left _ _)
  eq_append _ := heq

theorem ReadFrom.suffix {f : Fragment} {s rest : Text} (h : f.ReadFrom s rest) : rest <:+ s := by
  obtain ⟨t, -, rfl⟩ := h.consumed
  exact List.suffix_append t rest

theorem ReadFrom.length_lt {f : Fragment} {s rest : Text} (h : f.ReadFrom s rest) :
    rest.length < s.length := by
  obtain ⟨t, hne, rfl⟩ := h.consumed
  simpa [List.length_pos_iff] using hne

end Fragment

namespace Selector

variable {s rest n ns raw : Text} {allowed : Allowance} {f : Fragment} {c : Char}

theorem consumed_of_suffix (h : rest <:+ s) (c : Char) : ∃ t, t ≠ [] ∧ c :: s = t ++ rest := by
  obtain ⟨t, rfl⟩ := h
  exact ⟨c :: t, List.cons_ne_nil c t, rfl⟩

theorem readFrom_name (before : Text) (c : Char) (hhex : isHexDigit c = false) (hslash : c ≠ '\\')
    (hlegible : f.Legible) (hspace : f.isSpace = false) (hargument : f.takesArgument = false)
    (hbar : ¬ f.TakesBar) (htext : f.text = before ++ c :: n) (h : scanName s = .ok n rest) :
    f.ReadFrom (before ++ c :: s) rest := by
  obtain ⟨⟨-, hcloses⟩, rfl, hend⟩ := scanName_eq_ok.mp h
  have hparen (h : f.takesArgument) : rest.head? ≠ some '(' := absurd h (Bool.eq_false_iff.mp hargument)
  refine .of_eq hlegible ⟨fun _ => ⟨hend, ?_⟩, fun h => absurd h hbar, hparen⟩ hspace (by simp [htext])
  rw [htext]
  exact (closes_append_cons hhex hslash before n rest).mpr hcloses

theorem not_isElement_append (hns : IsElement ns) (n : Text) : ¬ IsElement (ns ++ '|' :: n) := by
  have hne : ns ≠ [] := by
    cases hns with
    | any => simp
    | name hname => exact hname.ne_nil
  generalize ht : ns ++ '|' :: n = t
  rintro (_ | ⟨hname, hbegins⟩)
  · have hlength := congrArg List.length ht
    have := List.length_pos_iff.mpr hne
    simp at hlength
    omega
  · cases hns with
    | any =>
      subst ht
      have hstar : beginsElement '*' := hbegins
      exact absurd hstar (by decide)
    | name hns =>
      obtain ⟨hend, hcloses⟩ := endsNamespace n ns
      have hread : scanName (ns ++ '|' :: n) = .ok ns ('|' :: n) :=
        scanName_eq_ok.mpr ⟨⟨hns, hcloses⟩, rfl, hend⟩
      have hwhole : scanName (t ++ []) = .ok t [] :=
        scanName_eq_ok.mpr ⟨⟨hname, fun _ _ => ⟨rfl, fun _ => rfl⟩⟩, rfl, rfl⟩
      rw [List.append_nil, ← ht, hread] at hwhole
      cases (EStateM.Result.ok.inj hwhole).2

theorem not_isElement_interpolation (hraw : IsInterpolation raw) (n : Text) :
    ¬ IsElement (raw ++ n) := by
  obtain ⟨rfl | rfl, -⟩ := hraw
  · rintro (_ | ⟨-, hbegins⟩)
    have hmark : beginsElement '#' := hbegins
    exact absurd hmark (by decide)
  · rintro (_ | ⟨-, hbegins⟩)
    have hmark : beginsElement '@' := hbegins
    exact absurd hmark (by decide)

theorem readFrom_scanTypeRest (hns : IsElement ns)
    (hname : (Fragment.type ns).endsInName → continuesName s = false ∧ Closes ns s)
    (h : scanTypeRest ns s = .ok f rest) : f.ReadFrom (ns ++ s) rest := by
  by_cases hbar : startsBar s
  · obtain ⟨s, rfl, -⟩ := startsBar_eq_true hbar
    obtain ⟨rfl, rfl⟩ | ⟨-, m, hm, rfl⟩ := (scanTypeRest_eq_ok hbar).mp h
    · have hbar : ¬ (Fragment.type (ns ++ ['|', '*'])).TakesBar := not_isElement_append hns ['*']
      have hsuffix : ['|', '*'].isSuffixOf (ns ++ ['|', '*']) :=
        List.isSuffixOf_iff_suffix.mpr (List.suffix_append _ _)
      refine .of_eq (.qualifiedAny hns) (Fragment.stops_of_endsInName_eq_false ?_ hbar) rfl ?_
      · simp [Fragment.endsInName, hsuffix]
      · simp [Fragment.text]
    · have hlegible := IsTypeName.qualified hns (scanName_eq_ok.mp hm).1.1
      have hbar : ¬ (Fragment.type (ns ++ '|' :: m)).TakesBar := not_isElement_append hns m
      exact readFrom_name ns '|' (by decide) (by decide) hlegible rfl rfl hbar rfl hm
  · rw [Bool.not_eq_true] at hbar
    rw [scanTypeRest_of_startsBar_eq_false hbar] at h
    cases h
    exact .of_eq (.element hns) ⟨hname, fun _ => hbar, (fun h => by cases h)⟩ rfl rfl

theorem readFrom_scanInterpolated (hs : startsInterpolation s) (h : scanInterpolated s = .ok f rest) :
    f.ReadFrom s rest := by
  obtain ⟨raw, s', hread, h'⟩ := bind_eq_ok.mp h
  obtain ⟨hraw, rfl⟩ := (rawInterpolation_eq_ok hs).mp hread
  have hopen := separates_isNameUnit.openEscape? (.interpolation hraw)
  rw [bind_of_ok (atNameChar_apply s')] at h'
  split at h'
  · obtain ⟨n, hn, rfl⟩ := bind_pure_eq_ok.mp h'
    obtain ⟨⟨hname, hcloses⟩, rfl, hend⟩ := scanName_eq_ok.mp hn
    refine .of_eq (.interpolated hraw hname) ⟨fun _ => ⟨hend, ?_⟩, fun h => ?_, (fun h => by cases h)⟩ rfl ?_
    · rwa [Closes, Fragment.text, openEscape?_append_of_eq_none hopen]
    · exact absurd h (not_isElement_interpolation hraw n)
    · simp [Fragment.text]
  · next hend =>
    cases h'
    have hcloses := closes_of_eq_none hopen rest
    refine .of_eq hraw ⟨fun _ => ⟨Bool.eq_false_iff.mpr hend, hcloses⟩, False.elim, ?_⟩ rfl rfl
    exact fun h => by cases h

theorem readFrom_scanPseudo {p : Pseudo} (h : scanPseudo (':' :: s) = .ok p rest) :
    (Fragment.pseudo p).ReadFrom (':' :: s) rest := by
  replace h : (scanChar ':' >>= scanPseudoName) s = .ok p rest := h
  obtain ⟨isElement, s₁, hcolon, h₁⟩ := bind_eq_ok.mp h
  obtain ⟨name, s₂, hname, h₂⟩ := bind_eq_ok.mp h₁
  obtain ⟨hasArgument, s₃, hopen, h₃⟩ := bind_eq_ok.mp h₂
  obtain ⟨⟨hlegible, hcloses⟩, rfl, hend⟩ := scanName_eq_ok.mp hname
  have hs : ':' :: s = (if isElement then [':', ':'] else [':']) ++ (name ++ s₂) := by
    obtain ⟨rfl, rfl⟩ | ⟨rfl, -, rfl⟩ := scanChar_eq_ok.mp hcolon <;> rfl
  obtain ⟨rfl, rfl⟩ | ⟨rfl, hparen, rfl⟩ := scanChar_eq_ok.mp hopen
  · obtain ⟨argument, hread, rfl⟩ := bind_pure_eq_ok.mp h₃
    obtain ⟨hbalanced, rfl⟩ := (balanced_eq_ok isBrackets_parens).mp hread
    refine ⟨⟨hlegible, ?_⟩, Fragment.stops_of_endsInName_eq_false rfl not_false, ?_, ?_, ?_, ?_⟩
    · rintro _ ⟨⟩
      exact ⟨Text.balanced_collapse hbalanced, Text.collapse_collapse argument⟩
    · refine ⟨(if isElement then [':', ':'] else [':']) ++ name ++ '(' :: (argument ++ [')']), ?_, ?_⟩
      · simp
      · simp [hs]
    · exact fun h => by cases h
    · rw [hs, Fragment.text, pseudoText_eq]
      intro d hd
      have hcollapse (hd : d ∈ Text.collapse argument) : d ∈ argument ∨ d = ' ' := Text.mem_collapse hd
      simp only [argumentText, List.mem_append, List.mem_cons] at hd ⊢
      tauto
    · exact fun h => by cases h
  · cases h₃
    refine .of_eq ⟨hlegible, ?_⟩ ⟨fun _ => ⟨hend, ?_⟩, False.elim, fun _ => hparen⟩ rfl ?_
    · exact fun _ h => by cases h
    · exact (closes_pseudoText rfl).mpr hcloses
    · rw [hs, Fragment.text, pseudoText_eq]
      simp [argumentText]

theorem readFrom_scanNesting (h : scanNesting allowed ('&' :: s) = .ok f rest) :
    f.ReadFrom ('&' :: s) rest := by
  cases hparent : allowed.parent with
  | true =>
    rw [scanNesting_cons hparent] at h
    split at h
    · obtain ⟨n, hn, rfl⟩ := bind_pure_eq_ok.mp h
      have hname := (scanName_eq_ok.mp hn).1.1
      refine readFrom_name [] '&' (by decide) (by decide) ?_ rfl rfl not_false rfl hn
      rintro _ ⟨⟩
      exact hname
    · next hend =>
      cases h
      have hcloses : Closes ['&'] s := closes_of_eq_none rfl s
      refine .of_eq (fun _ h => by cases h) ⟨fun _ => ⟨Bool.eq_false_iff.mpr hend, hcloses⟩, False.elim, ?_⟩
        rfl rfl
      exact fun h => by cases h
  | false =>
    rw [scanNesting, hparent] at h
    cases h

theorem readFrom_scanPlaceholder (h : scanPlaceholder allowed ('%' :: s) = .ok f rest) :
    f.ReadFrom ('%' :: s) rest := by
  cases hplaceholder : allowed.placeholder with
  | true =>
    rw [scanPlaceholder, hplaceholder] at h
    replace h : (do return .placeholder (← scanName) : Scanner Fragment) s = .ok f rest := h
    obtain ⟨n, hn, rfl⟩ := bind_pure_eq_ok.mp h
    have hlegible := (scanName_eq_ok.mp hn).1.1
    exact readFrom_name [] '%' (by decide) (by decide) hlegible rfl rfl not_false rfl hn
  | false =>
    rw [scanPlaceholder, hplaceholder] at h
    cases h

theorem readFrom_scanMarked (h : scanMarked allowed c (c :: s) = .ok f rest) :
    f.ReadFrom (c :: s) rest := by
  unfold scanMarked at h
  split at h
  · exact readFrom_scanNesting h
  · exact readFrom_scanPlaceholder h
  · obtain ⟨p, hp, rfl⟩ := bind_pure_eq_ok.mp h
    exact readFrom_scanPseudo hp
  · cases h
    exact .of_eq trivial (Fragment.stops_of_endsInName_eq_false rfl not_false) rfl rfl
  · cases h
    exact .of_eq trivial (Fragment.stops_of_endsInName_eq_false rfl not_false) rfl rfl
  · cases h
    exact .of_eq trivial (Fragment.stops_of_endsInName_eq_false rfl not_false) rfl rfl
  · obtain ⟨n, hn, rfl⟩ := bind_pure_eq_ok.mp h
    have hlegible := (scanName_eq_ok.mp hn).1.1
    exact readFrom_name [] '.' (by decide) (by decide) hlegible rfl rfl not_false rfl hn
  · obtain ⟨n, hn, rfl⟩ := bind_pure_eq_ok.mp h
    have hlegible := (scanName_eq_ok.mp hn).1.1
    exact readFrom_name [] '#' (by decide) (by decide) hlegible rfl rfl not_false rfl hn
  · obtain ⟨a, ha, rfl⟩ := bind_pure_eq_ok.mp h
    obtain ⟨hlegible, hsuffix, hsubset⟩ := legible_of_scanAttribute ha
    exact ⟨hlegible, Fragment.stops_of_endsInName_eq_false rfl not_false, consumed_of_suffix hsuffix '[',
      (fun h => by cases h), hsubset, (fun h => by cases h)⟩
  · obtain ⟨n, hn, rfl⟩ := bind_pure_eq_ok.mp h
    have hlegible := IsTypeName.unqualified (scanName_eq_ok.mp hn).1.1
    refine readFrom_name [] '|' (by decide) (by decide) hlegible rfl rfl ?_ rfl hn
    rintro (_ | ⟨-, hbegins⟩)
    have hbar : beginsElement '|' := hbegins
    exact absurd hbar (by decide)
  · exact readFrom_scanTypeRest .any (fun h => by cases h) h
  · split at h
    · next hbegins =>
      obtain ⟨n, s', hn, h'⟩ := bind_eq_ok.mp h
      obtain ⟨⟨hname, hcloses⟩, heq, hend⟩ := scanName_eq_ok.mp hn
      have hbegins : n.head?.any beginsElement := by
        obtain ⟨d, n, rfl⟩ := List.exists_cons_of_ne_nil hname.ne_nil
        cases heq
        exact hbegins
      rw [heq]
      exact readFrom_scanTypeRest (.name hname hbegins) (fun _ => ⟨hend, hcloses⟩) h'
    · cases h

theorem loudComment_suffix {a : Unit} (h : loudComment (c :: s) = .ok a rest) : rest <:+ s := by
  obtain ⟨_, s₁, h₁, h'⟩ := bind_eq_ok.mp h
  obtain ⟨_, s₂, h₂, h''⟩ := bind_eq_ok.mp h'
  cases h₁
  cases h₂
  exact (loudCommentRest_suffix h'').trans (List.tail_suffix _)

theorem readFrom_space (hsuffix : rest <:+ s) (hc : isBlank c ∨ c = '/') :
    Fragment.space.ReadFrom (c :: s) rest where
  legible := trivial
  stops := Fragment.stops_of_endsInName_eq_false rfl not_false
  consumed := consumed_of_suffix hsuffix c
  starts _ _ hd := by
    cases hd
    exact hc
  subset := by simp [Fragment.text]
  eq_append h := by cases h

/-- **What is read is legible**, and nothing behind it goes on with it. -/
theorem readFrom_scanFragmentAt (h : scanFragmentAt allowed c (c :: s) = .ok f rest) :
    f.ReadFrom (c :: s) rest := by
  rw [scanFragmentAt_cons] at h
  split at h
  · next hblank =>
    cases h
    refine readFrom_space ?_ (.inl hblank)
    rw [List.dropWhile_cons_of_pos hblank]
    exact List.dropWhile_suffix _
  · split at h
    · next hcomment =>
      obtain ⟨t, ht⟩ := List.isPrefixOf_iff_prefix.mp hcomment
      have hslash : c = '/' := (List.cons.inj ht).1.symm
      obtain ⟨_, s', hread, hpure⟩ := bind_eq_ok.mp h
      cases hpure
      exact readFrom_space (loudComment_suffix hread) (.inr hslash)
    · split at h
      · exact readFrom_scanInterpolated ‹_› h
      · split at h
        · obtain ⟨contents, hcontents, rfl⟩ := bind_pure_eq_ok.mp h
          obtain ⟨q, hq, hbody, heq⟩ := stringContents_eq_ok.mp hcontents
          cases heq
          refine .of_eq ⟨hq, hbody⟩ (Fragment.stops_of_endsInName_eq_false rfl not_false) rfl ?_
          rw [Fragment.text, (Quote.text_ofChar hq).1]
          simp
        · exact readFrom_scanMarked h

end Selector

end NestedCss
