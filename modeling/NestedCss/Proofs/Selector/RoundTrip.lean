import NestedCss.Proofs.Selector.Seams
import NestedCss.Proofs.Source.Tokens

/-!
# Reading lists back

* `Selector.scanMember_text_iff`: one selector is read back if and only if it is legible;
* `Selector.Members`, `Selector.scanList_eq_ok`, `Selector.readList_eq_ok`: what a list is read as;
* **`Selector.readList_intercalate_text`**: a list without escapes is read back from its written form
  in either style.
-/

namespace NestedCss

open Scanner

namespace Selector

variable {style : Style} {fs : List Fragment} {u : Selector} {list : List Selector}
  {s t rest tail : Text} {allowed : Allowance} {isFirst goesOn last : Bool} {c : Char}

/-! ## Members -/

theorem scanMember_eq_ok : scanMember allowed s = .ok u rest ↔
    u.isEmpty = false ∧ ReadsAs allowed false s u.fragments rest := by
  rw [scanMember, bind_eq_ok]
  constructor
  · rintro ⟨raw, s', hraw, h⟩
    dsimp only at h
    split at h
    · cases h
    · next hempty =>
      cases h
      exact ⟨Bool.eq_false_iff.mpr hempty, raw, hraw, rfl⟩
  · rintro ⟨hempty, raw, hraw, hnormal⟩
    obtain rfl : ofFragments raw = u := by rw [ofFragments, hnormal]
    refine ⟨raw, rest, hraw, ?_⟩
    dsimp only
    rw [hempty]
    rfl

theorem ReadsAs.length_lt {joins : Bool} (h : ReadsAs allowed joins s fs rest) (hne : fs ≠ []) :
    rest.length < s.length := by
  obtain ⟨raw, hraw, rfl⟩ := h
  obtain ⟨rfl, -, -⟩ | ⟨f, t, more, -, hread, hmore, -⟩ := gatherAll_scanFragment_cases hraw
  · exact absurd rfl hne
  · exact (readUpTo_of_gatherAll hmore).suffix.length_le.trans_lt hread.length_lt

theorem length_lt_of_scanMember (h : scanMember allowed s = .ok u rest) : rest.length < s.length := by
  obtain ⟨hempty, hread⟩ := scanMember_eq_ok.mp h
  exact hread.length_lt (by simpa [isEmpty] using hempty)

theorem endsMember_of_scanMember (h : scanMember allowed s = .ok u rest) : endsMember rest :=
  (scanMember_eq_ok.mp h).2.readUpTo.endsMember

/-! ## Lists -/

/-- One member of a list, and whether another one follows. -/
def memberStep (allowed : Allowance) : Bool → Scanner (Option (List Selector × Bool))
  | false => return none
  | true => do
    let s ← scanMember allowed
    return some ([s], ← scanChar ',')

/-- The text consists of the members of the list, with commas between them. -/
inductive Members (allowed : Allowance) : Text → List Selector → Prop
  | last {s : Text} {u : Selector} : scanMember allowed s = .ok u [] → Members allowed s [u]
  | cons {s t : Text} {u : Selector} {list : List Selector} :
      scanMember allowed s = .ok u (',' :: t) → Members allowed t list → Members allowed s (u :: list)

theorem memberStep_eq_ok {out : Option (List Selector × Bool)} :
    memberStep allowed true s = .ok out rest ↔ ∃ u,
      scanMember allowed s = .ok u (',' :: rest) ∧ out = some ([u], true) ∨
      scanMember allowed s = .ok u [] ∧ rest = [] ∧ out = some ([u], false) := by
  rw [memberStep, bind_eq_ok]
  simp only [bind_pure_eq_ok, scanChar_eq_ok]
  constructor
  · rintro ⟨u, s', hmember, found, ⟨rfl, rfl⟩ | ⟨rfl, hcomma, rfl⟩, rfl⟩
    · exact ⟨u, .inl ⟨hmember, rfl⟩⟩
    · have hend := endsMember_of_scanMember hmember
      cases s' with
      | nil => exact ⟨u, .inr ⟨hmember, rfl, rfl⟩⟩
      | cons c s' =>
        exact absurd (by simpa [endsMember] using hend) hcomma
  · rintro ⟨u, ⟨hmember, rfl⟩ | ⟨hmember, rfl, rfl⟩⟩
    · exact ⟨u, _, hmember, true, .inl ⟨rfl, rfl⟩, rfl⟩
    · exact ⟨u, _, hmember, false, .inr ⟨rfl, by simp, rfl⟩, rfl⟩

theorem gather_memberStep_false (s : Text) :
    gather (memberStep allowed) false s = .ok ([], false) s := by
  rw [gather]
  rfl

theorem members_of_gather (h : gather (memberStep allowed) goesOn s = .ok (list, last) rest)
    (hgoesOn : goesOn) : Members allowed s list ∧ rest = [] := by
  fun_induction gather (memberStep allowed) goesOn s generalizing list last rest with
  | case1 => cases h
  | case2 goesOn s rest' hstep =>
    subst hgoesOn
    obtain ⟨u, ⟨-, hout⟩ | ⟨-, -, hout⟩⟩ := memberStep_eq_ok.mp hstep <;> cases hout
  | case3 => cases h
  | case4 goesOn s piece goesOn' rest' hstep _ more last' rest'' hmore ih =>
    subst hgoesOn
    cases h
    obtain ⟨u, ⟨hmember, hout⟩ | ⟨hmember, rfl, hout⟩⟩ := memberStep_eq_ok.mp hstep
    · cases hout
      obtain ⟨hmembers, rfl⟩ := ih hmore rfl
      exact ⟨.cons hmember hmembers, rfl⟩
    · cases hout
      rw [gather_memberStep_false] at hmore
      cases hmore
      exact ⟨.last hmember, rfl⟩
  | case5 goesOn s piece goesOn' rest' hstep hlt =>
    subst hgoesOn
    obtain ⟨u, ⟨hmember, -⟩ | ⟨hmember, rfl, -⟩⟩ := memberStep_eq_ok.mp hstep
    · have := length_lt_of_scanMember hmember
      rw [List.length_cons] at this
      omega
    · exact absurd (length_lt_of_scanMember hmember) hlt

theorem gather_of_members (h : Members allowed s list) :
    gather (memberStep allowed) true s = .ok (list, false) [] := by
  induction h with
  | last hmember =>
    have hstep := memberStep_eq_ok.mpr ⟨_, .inr ⟨hmember, rfl, rfl⟩⟩
    exact gather_of_some hstep (length_lt_of_scanMember hmember) (gather_memberStep_false [])
  | cons hmember _ ih =>
    refine gather_of_some (memberStep_eq_ok.mpr ⟨_, .inl ⟨hmember, rfl⟩⟩) ?_ ih
    have := length_lt_of_scanMember hmember
    rw [List.length_cons] at this
    omega

/-- **A list is read as its members.** -/
theorem scanList_eq_ok : scanList allowed s = .ok list rest ↔ Members allowed s list ∧ rest = [] := by
  change (gather (memberStep allowed) true >>= _) s = .ok list rest ↔ _
  rw [bind_eq_ok]
  constructor
  · rintro ⟨⟨list', last⟩, s', hgather, h⟩
    obtain ⟨hmembers, rfl⟩ := members_of_gather hgather rfl
    cases h
    exact ⟨hmembers, rfl⟩
  · rintro ⟨hmembers, rfl⟩
    exact ⟨_, _, gather_of_members hmembers, rfl⟩

/-- A list is read from a source if the scanner takes all of its characters. -/
theorem readList_eq_ok {source : Source} :
    readList allowed source = .ok list ↔ scanList allowed source.chars = .ok list [] := by
  unfold readList
  constructor
  · intro h
    split at h
    · next heq =>
      cases h
      rwa [(scanList_eq_ok.mp heq).2] at heq
    · cases h
  · intro h
    rw [h]

/-! ## Written lists -/

theorem mem_fragmentText {isLast : Bool} {f : Fragment} (h : c ∈ fragmentText style isFirst isLast f) :
    c = ' ' ∨ c ∈ f.text := by
  rw [fragmentText] at h
  split at h
  · cases isFirst <;> cases isLast <;> simp at h <;> tauto
  · exact .inr h

theorem mem_textFrom (h : c ∈ textFrom style isFirst fs) : c = ' ' ∨ ∃ f ∈ fs, c ∈ f.text := by
  induction fs generalizing isFirst with
  | nil => cases h
  | cons f fs ih =>
    rcases List.mem_append.mp h with h | h
    · exact (mem_fragmentText h).imp_right fun h => ⟨f, List.mem_cons_self, h⟩
    · exact (ih h).imp_right fun ⟨g, hg, h⟩ => ⟨g, List.mem_cons_of_mem f hg, h⟩

/-- **A selector is read back** if and only if it is legible. -/
theorem scanMember_text_iff (hempty : u.isEmpty = false) (hnormal : isNormalFrom false u.fragments)
    (hreadable : ∀ f ∈ u.fragments, f.IsReadable allowed) (htail : endsMember tail) :
    scanMember allowed (u.text style ++ tail) = .ok u tail ↔ IsLegible style u := by
  rw [scanMember_eq_ok, text, readsAs_text_iff hnormal hreadable htail]
  simp [hempty]

theorem members_intercalate (hne : list ≠ [])
    (h : ∀ u ∈ list, ∀ tail, endsMember tail → scanMember allowed (u.text style ++ tail) = .ok u tail) :
    Members allowed ([','].intercalate (list.map (text style))) list := by
  induction list with
  | nil => exact absurd rfl hne
  | cons u list ih =>
    obtain ⟨hu, hlist⟩ := List.forall_mem_cons.mp h
    cases list with
    | nil =>
      rw [List.map_singleton, List.intercalate_singleton]
      exact .last (by simpa using hu [] rfl)
    | cons v list =>
      rw [List.map_cons, List.map_cons, List.intercalate_cons_cons, List.append_assoc]
      exact .cons (hu _ rfl) (ih (List.cons_ne_nil v list) hlist)

/-- What is known of each member of a list that was read. -/
theorem Members.forall_mem {P : Selector → Prop} (h : Members allowed s list)
    (hP : ∀ t u rest, t <:+ s → scanMember allowed t = .ok u rest → P u) : ∀ u ∈ list, P u := by
  induction h with
  | @last s u hmember =>
    intro v hv
    obtain rfl := List.mem_singleton.mp hv
    exact hP s v [] (List.suffix_refl s) hmember
  | @cons s t u list hmember _ ih =>
    have hread := (scanMember_eq_ok.mp hmember).2.readUpTo
    have hsuffix : t <:+ s := (List.suffix_cons ',' t).trans hread.suffix
    refine List.forall_mem_cons.mpr ⟨hP s u _ (List.suffix_refl s) hmember, ih ?_⟩
    exact fun t' u' rest ht' => hP t' u' rest (ht'.trans hsuffix)

theorem Members.ne_nil (h : Members allowed s list) : list ≠ [] := by
  cases h <;> exact List.cons_ne_nil _ _

/-- A member of a list that was read as it stands in the list. -/
structure ReadOutOf (s : Text) (u : Selector) : Prop where
  isEmpty : u.isEmpty = false
  isNormalFrom : isNormalFrom false u.fragments
  legible : ∀ f ∈ u.fragments, f.Legible
  subset : ∀ f ∈ u.fragments, f.text ⊆ ' ' :: s

theorem readOutOf_of_scanList (h : scanList allowed s = .ok list rest) : ∀ u ∈ list, ReadOutOf s u := by
  refine (scanList_eq_ok.mp h).1.forall_mem fun t u rest hsuffix hmember => ?_
  obtain ⟨hempty, hread⟩ := scanMember_eq_ok.mp hmember
  have hup := hread.readUpTo
  obtain ⟨raw, -, hnormal⟩ := hread
  refine ⟨hempty, hnormal ▸ isNormalFrom_normalizeFrom false raw, hup.legible, fun f hf => ?_⟩
  exact List.Subset.trans (hup.subset f hf) (List.cons_subset_cons ' ' hsuffix.subset)

theorem isReadable_of_legible {f : Fragment} (hf : f.Legible) : f.IsReadable ⟨true, true⟩ :=
  ⟨isFirm_text hf, fun _ => rfl, fun _ => rfl⟩

theorem mem_of_mem_intercalate {ts : List Text} (h : c ∈ [','].intercalate ts) :
    c = ',' ∨ ∃ t ∈ ts, c ∈ t := by
  induction ts with
  | nil => cases h
  | cons t ts ih =>
    cases ts with
    | nil => exact .inr ⟨t, List.mem_cons_self, by simpa using h⟩
    | cons u ts =>
      rw [List.intercalate_cons_cons] at h
      rcases List.mem_append.mp h with h | h
      · rcases List.mem_append.mp h with h | h
        · exact .inr ⟨t, List.mem_cons_self, h⟩
        · exact .inl (List.mem_singleton.mp h)
      · exact (ih h).imp_right fun ⟨v, hv, h⟩ => ⟨v, List.mem_cons_of_mem t hv, h⟩

theorem ReadOutOf.hasPlainLines (h : ReadOutOf s u) (hs : Source.HasPlainLines s) (style : Style) :
    Source.HasPlainLines (u.text style) := by
  have hs' : Source.HasPlainLines (' ' :: s) := List.forall_mem_cons.mpr ⟨by decide, hs⟩
  intro c hc
  rcases mem_textFrom hc with rfl | ⟨f, hf, hc⟩
  · decide
  · exact hs' c (h.subset f hf hc)

/-- **A list without escapes is read back** from its written form. -/
theorem readList_intercalate_text (hplain : '\\' ∉ t)
    (h : readList ⟨true, true⟩ (Source.ofText t) = .ok list) (style : Style) :
    readList ⟨true, true⟩ (Source.ofText ([','].intercalate (list.map (text style)))) = .ok list := by
  have hscan := readList_eq_ok.mp h
  have hplain' : '\\' ∉ (Source.ofText t).chars := fun hmem =>
    hplain ((Source.mem_map_char hmem).resolve_right (by decide))
  have hlines := Source.hasPlainLines_chars t
  generalize (Source.ofText t).chars = s at hscan hplain' hlines
  have hmembers := (scanList_eq_ok.mp hscan).1
  have hread := readOutOf_of_scanList hscan
  have hlegible : ∀ u ∈ list, IsLegible style u := hmembers.forall_mem fun t u rest hsuffix hmember =>
    (scanMember_eq_ok.mp hmember).2.isLegible fun hmem => hplain' (hsuffix.subset hmem)
  have hback : ∀ u ∈ list, ∀ tail, endsMember tail →
      scanMember ⟨true, true⟩ (u.text style ++ tail) = .ok u tail := by
    intro u hu tail htail
    have hreadable f (hf : f ∈ u.fragments) := isReadable_of_legible ((hread u hu).legible f hf)
    exact (scanMember_text_iff (hread u hu).isEmpty (hread u hu).isNormalFrom hreadable htail).mpr
      (hlegible u hu)
  have htext : Source.HasPlainLines ([','].intercalate (list.map (text style))) := by
    intro c hc
    rcases mem_of_mem_intercalate hc with rfl | ⟨_, hv, hc⟩
    · decide
    · obtain ⟨u, hu, rfl⟩ := List.mem_map.mp hv
      exact (hread u hu).hasPlainLines hlines style c hc
  rw [readList_eq_ok, Source.chars_ofText htext]
  exact scanList_eq_ok.mpr ⟨members_intercalate hmembers.ne_nil hback, rfl⟩

/-- Fragments of many kinds in one list, with white space in odd places. -/
def mixedText : Text :=
  "svg|rect[ lang |= \"en\"  i ]:not( .a ,  b )  >&-x::before, %p-#\x7b$q\x7d  *|*.c~ &".toList

/-- What `mixedText` lists. -/
def mixedList : List Selector :=
  [⟨[.type "svg|rect".toList, .attribute ⟨"lang".toList, some ⟨.dash, "en".toList, .double, some 'i'⟩⟩,
      .pseudo ⟨"not".toList, false, some ".a , b".toList⟩, .combinator .child,
      .nesting (some "-x".toList), .pseudo ⟨"before".toList, true, none⟩]⟩,
    ⟨[.placeholder "p-#\x7b$q\x7d".toList, .space, .type "*|*".toList, .className ['c'],
      .combinator .followingSibling, .nesting none]⟩]

theorem readList_intercalate_text_mixedList :
    '\\' ∉ mixedText ∧ readList ⟨true, true⟩ (Source.ofText mixedText) = .ok mixedList ∧
      ∀ style, readList ⟨true, true⟩ (Source.ofText ([','].intercalate (mixedList.map (text style)))) =
        .ok mixedList := by
  have hplain : '\\' ∉ mixedText := by decide +kernel
  have hread : readList ⟨true, true⟩ (Source.ofText mixedText) = .ok mixedList := by decide +kernel
  exact ⟨hplain, hread, readList_intercalate_text hplain hread⟩

end Selector

end NestedCss
