import NestedCss.Proofs.Selector.Normal
import NestedCss.Proofs.Selector.ReadFrom

/-!
# Seams

A selector is read back as it is written if each of its fragments is legible and no two of them that
stand next to each other run into one. Nothing else is needed, and nothing less is enough.

* `Fragment.Meets`, `Selector.IsLegible`: the conditions;
* `Fragment.stops_textFrom_iff`: they say that each fragment stops where the next begins;
* `Selector.ReadsAs`: the fragments that a text stands for, but for superfluous white space;
* **`Selector.readsAs_text_iff`**: a selector is read back if and only if it is legible;
* **`Selector.ReadsAs.isLegible`**: what is read is legible, if no escape is left open in it.
-/

namespace NestedCss

open Scanner Selector

variable {style : Style} {f g : Fragment} {fs raw more : List Fragment} {s t rest tail : Text}
  {allowed : Allowance} {joins isFirst : Bool}

/-- Whether the text is at the end of a member of a list. -/
def Selector.endsMember (s : Text) : Bool := s.head?.all (· == ',')

/-! ## Neighbours -/

namespace Fragment

/-- Whether a blank is written in front of the fragment, unless that is the first one. -/
def startsBlank (style : Style) (f : Fragment) : Bool :=
  f.isSpace || f.isCombinator && style == .expanded

/-- The fragments do not run into one when `g` is written right behind `f`: `g` does not go on with a
name, the blank in front of it does not belong to an escape, and no namespace is made of `f`. -/
structure Meets (style : Style) (f g : Fragment) : Prop where
  name : f.endsInName → continuesName g.text = false
  escape : f.endsInName → g.startsBlank style → openEscape? f.text = none
  bar : f.TakesBar → Selector.startsBar g.text = false

theorem meets_of_endsInName_eq_false (hname : f.endsInName = false) (hbar : ¬ f.TakesBar) :
    f.Meets style g where
  name h := absurd h (by simp [hname])
  escape h := absurd h (by simp [hname])
  bar h := absurd h hbar

/-- The first characters of the fragment tell what it is, and that is allowed. -/
structure IsReadable (allowed : Allowance) (f : Fragment) : Prop where
  isFirm : f ≠ .space → IsFirm f.text
  parent : f.isNesting → allowed.parent
  placeholder : f.isPlaceholder → allowed.placeholder

theorem exists_of_isCombinator (h : f.isCombinator) : ∃ c, f = .combinator c := by
  match f, h with
  | .combinator c, _ => exact ⟨c, rfl⟩

theorem text_of_startsBlank (h : f.startsBlank style) :
    continuesName f.text = false ∧ Selector.startsBar f.text = false := by
  match f, h with
  | .space, _ => exact ⟨rfl, rfl⟩
  | .combinator c, _ => cases c <;> exact ⟨rfl, rfl⟩

theorem textFrom_of_startsBlank (h : g.startsBlank style) (fs : List Fragment) :
    ∃ s, textFrom style false (g :: fs) = ' ' :: s := by
  match g, h with
  | .space, _ => exact ⟨_, rfl⟩
  | .combinator c, h =>
    have hstyle : style = .expanded := by simpa [startsBlank, isSpace, isCombinator] using h
    subst hstyle
    exact ⟨_, rfl⟩

theorem textFrom_cons (h : (g.isCombinator && style == .expanded) = false) (isFirst : Bool)
    (fs : List Fragment) : textFrom style isFirst (g :: fs) = g.text ++ textFrom style false fs := by
  rw [textFrom, fragmentText, h]
  rfl

theorem text_of_isVerbatim_eq_false (h : f.isVerbatim = false) :
    continuesName f.text = false ∧ Selector.startsBar f.text = false := by
  match f, h with
  | .attribute a, _ =>
    exact ⟨continuesName_cons_eq_false (by decide) _, rfl⟩
  | .space, _ => exact ⟨rfl, rfl⟩
  | .pseudo p, _ =>
    rw [text, pseudoText_eq]
    cases p.isElement <;>
      exact ⟨continuesName_cons_eq_false (by decide) _, rfl⟩

/-! ## Where fragments stop -/

/-- Nothing goes on with what loses characters when it is read. -/
theorem stops_of_isVerbatim_eq_false (h : f.isVerbatim = false) (t : Text) : f.Stops t := by
  match f, h with
  | .attribute a, _ => exact stops_of_endsInName_eq_false rfl not_false
  | .space, _ => exact stops_of_endsInName_eq_false rfl not_false
  | .pseudo p, h => exact stops_of_endsInName_eq_false h not_false

theorem stops_of_endsMember (h : endsMember tail) (f : Fragment) : f.Stops tail := by
  cases tail with
  | nil => exact ⟨fun _ => ⟨rfl, closes_of_continuesName rfl rfl _⟩, fun _ => rfl, fun _ => by simp⟩
  | cons c tail =>
    obtain rfl : c = ',' := by simpa [endsMember] using h
    have hend : continuesName (',' :: tail) = false :=
      continuesName_cons_eq_false (by decide) tail
    exact ⟨fun _ => ⟨hend, closes_of_continuesName hend rfl _⟩, fun _ => rfl, fun _ => by simp⟩

theorem stops_blank : f.Stops (' ' :: s) ↔ (f.endsInName → openEscape? f.text = none) := by
  constructor
  · intro h hname
    have hcloses := (h.name hname).2
    rw [Option.eq_none_iff_forall_not_mem]
    intro n hn
    exact absurd (hcloses n hn).1 (by simp [isBlank])
  · intro h
    refine ⟨fun hname => ⟨?_, closes_of_eq_none (h hname) _⟩, fun _ => rfl, fun _ => by simp⟩
    exact continuesName_cons_eq_false (by decide) s

theorem stops_append (ht : IsFirm t) : f.Stops (t ++ s) ↔
    (f.endsInName → continuesName t = false) ∧ (f.TakesBar → Selector.startsBar t = false) := by
  have hname := ht.continuesName_append s
  have hbar := ht.startsBar_append s
  constructor
  · intro h
    exact ⟨fun hends => hname ▸ (h.name hends).1, fun htakes => hbar ▸ h.bar htakes⟩
  · rintro ⟨h, h'⟩
    refine ⟨fun hends => ?_, fun htakes => hbar.trans (h' htakes), fun _ => ht.head?_ne_paren s⟩
    have hend := hname.trans (h hends)
    exact ⟨hend, closes_of_continuesName hend (ht.head?_any_isBlank s) _⟩

/-- **A fragment stops where the next begins**, if the two do not run into one. -/
theorem stops_textFrom_iff (hfirm : ∀ g ∈ fs, g ≠ .space → IsFirm g.text) (htail : endsMember tail) :
    f.Stops (textFrom style false fs ++ tail) ↔ ∀ g ∈ fs.head?, f.Meets style g := by
  cases fs with
  | nil => simpa [textFrom] using stops_of_endsMember htail f
  | cons g fs =>
    simp only [List.head?_cons, Option.mem_some_iff, forall_eq']
    by_cases hblank : g.startsBlank style
    · obtain ⟨s, hs⟩ := textFrom_of_startsBlank hblank fs
      obtain ⟨hname, hbar⟩ := text_of_startsBlank hblank
      rw [hs, List.cons_append, stops_blank]
      exact ⟨fun h => ⟨fun _ => hname, fun hends _ => h hends, fun _ => hbar⟩,
        fun h hends => h.escape hends hblank⟩
    · simp only [startsBlank, Bool.or_eq_true, not_or, Bool.not_eq_true] at hblank
      obtain ⟨hspace, hcombinator⟩ := hblank
      have hg : g ≠ .space := by
        rintro rfl
        cases hspace
      rw [textFrom_cons hcombinator, List.append_assoc, stops_append (hfirm g List.mem_cons_self hg)]
      refine ⟨fun ⟨hname, hbar⟩ => ⟨hname, fun _ hblank => ?_, hbar⟩, fun h => ⟨h.name, h.bar⟩⟩
      simp [startsBlank, hspace, hcombinator] at hblank

end Fragment

namespace Selector

/-! ## Normalizing -/

/-- White space that joins nothing is left out. -/
theorem normalizeFrom_space_cons (h : joins = false ∨ startsCompound more = false) :
    normalizeFrom joins (.space :: more) = normalizeFrom joins more := by
  have hcompound : (joins && startsCompound more) = false := by rcases h with h | h <;> simp [h]
  rw [normalizeFrom, hcompound, if_neg Bool.false_ne_true]
  cases more with
  | nil => rfl
  | cons f more =>
    by_cases hf : f = .space
    · subst hf
      rw [normalizeFrom, normalizeFrom, Bool.false_and, if_neg Bool.false_ne_true]
      rw [startsCompound] at hcompound
      rw [hcompound, if_neg Bool.false_ne_true]
    · rw [normalizeFrom_cons hf, normalizeFrom_cons hf]

/-! ## Reading fragments one after the other -/

theorem scanFragment_of_endsMember (h : endsMember s) : scanFragment allowed s = .ok none s := by
  cases s with
  | nil => rfl
  | cons c s =>
    obtain rfl : c = ',' := by simpa [endsMember] using h
    exact scanFragment_eq_ok.mpr (.inl ⟨rfl, rfl, rfl⟩)

theorem endsMember_of_scanFragment (h : scanFragment allowed s = .ok none rest) :
    s = rest ∧ endsMember s := by
  cases s with
  | nil =>
    cases h
    exact ⟨rfl, rfl⟩
  | cons c s =>
    obtain ⟨rfl, -, h⟩ | ⟨-, _, -, h⟩ := scanFragment_eq_ok.mp h
    · exact ⟨h, rfl⟩
    · cases h

theorem readFrom_scanFragment {piece : List Fragment}
    (h : scanFragment allowed s = .ok (some piece) rest) : ∃ f, piece = [f] ∧ f.ReadFrom s rest := by
  cases s with
  | nil => cases h
  | cons c s =>
    obtain ⟨-, h, -⟩ | ⟨-, f, hf, h⟩ := scanFragment_eq_ok.mp h
    · cases h
    · cases h
      exact ⟨f, rfl, readFrom_scanFragmentAt hf⟩

theorem gatherAll_scanFragment_cons (h : scanFragment allowed s = .ok (some [f]) t) :
    gatherAll (scanFragment allowed) s = .ok raw rest ↔
      ∃ more, gatherAll (scanFragment allowed) t = .ok more rest ∧ raw = f :: more := by
  obtain ⟨_, -, hread⟩ := readFrom_scanFragment h
  exact gatherAll_of_some h hread.length_lt

/-- What holds of nothing at the end of a member, and is handed on from what is read behind a fragment
to the fragment together with that, holds of all that is read. -/
theorem gatherAll_scanFragment_induction {motive : Text → List Fragment → Text → Prop}
    (stop : ∀ s, endsMember s → motive s [] s)
    (next : ∀ s f t more rest, scanFragment allowed s = .ok (some [f]) t → f.ReadFrom s t →
      gatherAll (scanFragment allowed) t = .ok more rest → motive t more rest →
      motive s (f :: more) rest)
    (h : gatherAll (scanFragment allowed) s = .ok raw rest) : motive s raw rest := by
  refine gatherAll_induction (motive := motive) ?_ ?_ ?_ h
  · intro s rest hstep
    obtain ⟨rfl, hend⟩ := endsMember_of_scanFragment hstep
    exact stop s hend
  · intro s piece rest hstep hlt
    obtain ⟨_, -, hread⟩ := readFrom_scanFragment hstep
    exact absurd hread.length_lt hlt
  · intro s piece t more rest hstep _ hmore ih
    obtain ⟨f, rfl, hread⟩ := readFrom_scanFragment hstep
    exact next s f t more rest hstep hread hmore ih

theorem gatherAll_scanFragment_cases (h : gatherAll (scanFragment allowed) s = .ok raw rest) :
    raw = [] ∧ s = rest ∧ endsMember s ∨
      ∃ f t more, scanFragment allowed s = .ok (some [f]) t ∧ f.ReadFrom s t ∧
        gatherAll (scanFragment allowed) t = .ok more rest ∧ raw = f :: more := by
  refine gatherAll_scanFragment_induction (motive := fun s raw rest =>
    raw = [] ∧ s = rest ∧ endsMember s ∨
      ∃ f t more, scanFragment allowed s = .ok (some [f]) t ∧ f.ReadFrom s t ∧
        gatherAll (scanFragment allowed) t = .ok more rest ∧ raw = f :: more) ?_ ?_ h
  · exact fun s hend => .inl ⟨rfl, rfl, hend⟩
  · exact fun s f t more rest hstep hread hmore _ => .inr ⟨f, t, more, hstep, hread, hmore, rfl⟩

/-- The text up to `rest` stands for the fragments, where `joins` tells of what is in front of it. -/
def ReadsAs (allowed : Allowance) (joins : Bool) (s : Text) (fs : List Fragment) (rest : Text) : Prop :=
  ∃ raw, gatherAll (scanFragment allowed) s = .ok raw rest ∧ normalizeFrom joins raw = fs

theorem readsAs_cons (h : scanFragment allowed s = .ok (some [f]) t) (hf : f ≠ .space) :
    ReadsAs allowed joins s (f :: fs) rest ↔ ReadsAs allowed (!f.isCombinator) t fs rest := by
  simp only [ReadsAs, gatherAll_scanFragment_cons h]
  constructor
  · rintro ⟨_, ⟨more, hmore, rfl⟩, hnormal⟩
    rw [normalizeFrom_cons hf] at hnormal
    exact ⟨more, hmore, (List.cons.inj hnormal).2⟩
  · rintro ⟨more, hmore, rfl⟩
    exact ⟨_, ⟨more, hmore, rfl⟩, normalizeFrom_cons hf⟩

theorem gatherAll_blank {c : Char} (hc : isBlank c) :
    gatherAll (scanFragment allowed) (c :: s) = .ok raw rest ↔
      ∃ more, gatherAll (scanFragment allowed) (s.dropWhile isBlank) = .ok more rest ∧
        raw = .space :: more := by
  refine gatherAll_scanFragment_cons (scanFragment_eq_ok.mpr (.inr ⟨?_, .space, ?_, rfl⟩))
  · rintro rfl
    exact absurd hc (by decide)
  · rw [scanFragmentAt_cons, if_pos hc, List.dropWhile_cons_of_pos hc]

/-- Blanks that join nothing can be left out. -/
theorem readsAs_dropWhile (h : joins = false ∨ startsCompound fs = false) :
    ReadsAs allowed joins (s.dropWhile isBlank) fs rest ↔ ReadsAs allowed joins s fs rest := by
  cases s with
  | nil => rfl
  | cons c s =>
    by_cases hc : isBlank c
    · simp only [ReadsAs, gatherAll_blank hc, List.dropWhile_cons_of_pos hc]
      constructor
      · rintro ⟨more, hmore, rfl⟩
        rw [startsCompound_normalizeFrom] at h
        exact ⟨_, ⟨more, hmore, rfl⟩, normalizeFrom_space_cons h⟩
      · rintro ⟨_, ⟨more, hmore, rfl⟩, rfl⟩
        rw [startsCompound_normalizeFrom, startsCompound] at h
        exact ⟨more, hmore, (normalizeFrom_space_cons h).symm⟩
    · rw [List.dropWhile_cons_of_neg (by simpa using hc)]

theorem readsAs_blank (h : joins = false ∨ startsCompound fs = false) :
    ReadsAs allowed joins (' ' :: s) fs rest ↔ ReadsAs allowed joins s fs rest := by
  rw [← readsAs_dropWhile h, ← readsAs_dropWhile (s := s) h]
  rfl

/-- A blank that joins two compound selectors stands for itself. -/
theorem readsAs_space (hcompound : startsCompound fs) (hnormal : isNormalFrom false fs) :
    ReadsAs allowed true (' ' :: s) (.space :: fs) rest ↔ ReadsAs allowed false s fs rest := by
  rw [← readsAs_dropWhile (.inl rfl)]
  simp only [ReadsAs, gatherAll_blank (by decide : isBlank ' ')]
  constructor
  · rintro ⟨_, ⟨more, hmore, rfl⟩, hspace⟩
    rw [normalizeFrom] at hspace
    split at hspace
    · exact ⟨more, hmore, (List.cons.inj hspace).2⟩
    · have hnormal' := isNormalFrom_normalizeFrom false more
      rw [hspace] at hnormal'
      exact absurd rfl (ne_space_of_isNormalFrom hnormal')
  · rintro ⟨more, hmore, rfl⟩
    rw [startsCompound_normalizeFrom] at hcompound
    exact ⟨_, ⟨more, hmore, rfl⟩, by simp [normalizeFrom, hcompound]⟩

/-! ## Reading selectors back -/

/-- The selector is read back as it is written. -/
structure IsLegible (style : Style) (s : Selector) : Prop where
  legible : ∀ f ∈ s.fragments, f.Legible
  seams : s.fragments.IsChain (Fragment.Meets style)

theorem isLegible_cons_iff : IsLegible style ⟨f :: fs⟩ ↔
    (f.Legible ∧ ∀ g ∈ fs.head?, f.Meets style g) ∧ IsLegible style ⟨fs⟩ := by
  constructor
  · rintro ⟨hlegible, hseams⟩
    obtain ⟨hf, hfs⟩ := List.forall_mem_cons.mp hlegible
    obtain ⟨hmeets, hseams⟩ := List.isChain_cons.mp hseams
    exact ⟨⟨hf, hmeets⟩, hfs, hseams⟩
  · rintro ⟨⟨hf, hmeets⟩, hfs, hseams⟩
    exact ⟨List.forall_mem_cons.mpr ⟨hf, hfs⟩, List.isChain_cons.mpr ⟨hmeets, hseams⟩⟩

/-- A text that starts firmly is not read as white space. -/
theorem ne_space_of_readFrom (ht : IsFirm t) (h : f.ReadFrom (t ++ s) rest) : f ≠ .space := by
  intro hspace
  obtain ⟨c, t', rfl⟩ := List.exists_cons_of_ne_nil ht.ne_nil
  obtain ⟨hblank, hslash, -⟩ := ht.head c rfl
  rcases h.starts hspace c rfl with hc | hc
  · simp [hblank] at hc
  · exact hslash hc

/-- **One fragment is read back** if and only if it is legible and stops. -/
theorem readsAs_text_cons_iff (hf : f ≠ .space) (hcombinator : f.isCombinator = false)
    (hreadable : f.IsReadable allowed) :
    ReadsAs allowed joins (f.text ++ t) (f :: fs) rest ↔
      (f.Legible ∧ f.Stops t) ∧ ReadsAs allowed true t fs rest := by
  have hback (hlegible : f.Legible) (hstops : f.Stops t) :=
    scanFragment_text hlegible hf hstops hreadable.parent hreadable.placeholder
  have hnext (hread : scanFragment allowed (f.text ++ t) = .ok (some [f]) t) :
      ReadsAs allowed joins (f.text ++ t) (f :: fs) rest ↔ ReadsAs allowed true t fs rest := by
    rw [readsAs_cons hread hf, hcombinator, Bool.not_false]
  constructor
  · intro h
    have ⟨raw, hraw, hnormal⟩ := h
    obtain ⟨rfl, -, -⟩ | ⟨r, t', more, hread, hr, hmore, rfl⟩ := gatherAll_scanFragment_cases hraw
    · cases hnormal
    · rw [normalizeFrom_cons (ne_space_of_readFrom (hreadable.isFirm hf) hr)] at hnormal
      obtain rfl := (List.cons.inj hnormal).1
      by_cases hverbatim : r.isVerbatim
      · obtain rfl := List.append_cancel_left (hr.eq_append hverbatim)
        exact ⟨⟨hr.legible, hr.stops⟩, (hnext hread).mp h⟩
      · have hstops := Fragment.stops_of_isVerbatim_eq_false (Bool.eq_false_iff.mpr hverbatim) t
        exact ⟨⟨hr.legible, hstops⟩, (hnext (hback hr.legible hstops)).mp h⟩
  · rintro ⟨⟨hlegible, hstops⟩, h⟩
    exact (hnext (hback hlegible hstops)).mpr h

theorem scanFragment_combinator (c : Combinator) (t : Text) :
    scanFragment allowed (c.char :: t) = .ok (some [.combinator c]) t := by
  cases c <;> exact scanFragment_of_isMark (by decide) rfl

/-- A combinator is read back with the white space around it. -/
theorem readsAs_combinator_iff (c : Combinator) :
    ReadsAs allowed joins (textFrom style isFirst (.combinator c :: fs) ++ tail)
        (.combinator c :: fs) rest ↔
      ReadsAs allowed false (textFrom style false fs ++ tail) fs rest := by
  have hread (t : Text) : ReadsAs allowed joins (c.char :: t) (.combinator c :: fs) rest ↔
      ReadsAs allowed false t fs rest :=
    readsAs_cons (scanFragment_combinator c t) (Fragment.isSpace_eq_false_iff.mp rfl)
  cases style with
  | compressed => exact hread _
  | expanded =>
    have hbehind (t : Text) :
        ReadsAs allowed joins (c.char :: ((if fs.isEmpty then [] else [' ']) ++ t))
          (.combinator c :: fs) rest ↔ ReadsAs allowed false t fs rest := by
      rw [hread]
      cases fs with
      | nil => rfl
      | cons g fs => exact readsAs_blank (.inl rfl)
    have htext : textFrom .expanded isFirst (.combinator c :: fs) ++ tail =
        (if isFirst then [] else [' ']) ++ c.char ::
          ((if fs.isEmpty then [] else [' ']) ++ (textFrom .expanded false fs ++ tail)) := by
      simp [textFrom, fragmentText, Fragment.isCombinator, Fragment.text]
    rw [htext, ← hbehind]
    cases isFirst with
    | true => rfl
    | false => exact readsAs_blank (.inr rfl)

/-- **A selector is read back** if and only if it is legible. -/
theorem readsAs_text_iff (hnormal : isNormalFrom joins fs) (hreadable : ∀ f ∈ fs, f.IsReadable allowed)
    (htail : endsMember tail) :
    ReadsAs allowed joins (textFrom style isFirst fs ++ tail) fs tail ↔ IsLegible style ⟨fs⟩ := by
  induction fs generalizing joins isFirst with
  | nil =>
    refine iff_of_true ⟨[], gatherAll_of_none (scanFragment_of_endsMember htail), rfl⟩ ⟨?_, .nil⟩
    exact List.forall_mem_nil _
  | cons f fs ih =>
    obtain ⟨hf, hfs⟩ := List.forall_mem_cons.mp hreadable
    rw [isLegible_cons_iff]
    by_cases hspace : f = .space
    · subst hspace
      simp only [isNormalFrom, Bool.and_eq_true] at hnormal
      obtain ⟨⟨rfl, hcompound⟩, hnormal⟩ := hnormal
      have hmeets (g : Fragment) : Fragment.space.Meets style g :=
        Fragment.meets_of_endsInName_eq_false rfl not_false
      refine (readsAs_space hcompound hnormal).trans ((ih hnormal hfs).trans ?_)
      exact (and_iff_right ⟨trivial, fun g _ => hmeets g⟩).symm
    · rw [isNormalFrom_cons hspace] at hnormal
      by_cases hcombinator : f.isCombinator
      · obtain ⟨c, rfl⟩ := Fragment.exists_of_isCombinator hcombinator
        have hmeets (g : Fragment) : (Fragment.combinator c).Meets style g :=
          Fragment.meets_of_endsInName_eq_false rfl not_false
        refine (readsAs_combinator_iff c).trans ((ih hnormal hfs).trans ?_)
        exact (and_iff_right ⟨trivial, fun g _ => hmeets g⟩).symm
      · rw [Bool.not_eq_true] at hcombinator
        have hstops : f.Stops (textFrom style false fs ++ tail) ↔ ∀ g ∈ fs.head?, f.Meets style g :=
          Fragment.stops_textFrom_iff (fun g hg => (hfs g hg).isFirm) htail
        rw [Fragment.textFrom_cons (by simp [hcombinator]), List.append_assoc,
          readsAs_text_cons_iff hspace hcombinator hf, hstops]
        rw [hcombinator, Bool.not_false] at hnormal
        rw [ih hnormal hfs]

/-! ## What is read is legible -/

theorem openEscape?_eq_none (h : '\\' ∉ t) : openEscape? t = none := by
  induction t with
  | nil => rfl
  | cons c t ih =>
    rw [List.mem_cons, not_or] at h
    have hc : digitsAfter none c = none := if_neg (Ne.symm h.1)
    rw [openEscape?, List.foldl_cons, hc]
    exact ih h.2

/-- Fragments that are read one after the other do not run into one. -/
theorem meets_of_readFrom (hstops : f.Stops s) (hg : g.ReadFrom s rest)
    (hopen : openEscape? f.text = none) : f.Meets style g := by
  by_cases hverbatim : g.isVerbatim
  · have hspace : g ≠ .space := by
      rintro rfl
      cases hverbatim
    rw [hg.eq_append hverbatim, Fragment.stops_append (isFirm_text hg.legible hspace)] at hstops
    exact ⟨hstops.1, fun _ _ => hopen, hstops.2⟩
  · obtain ⟨hname, hbar⟩ := Fragment.text_of_isVerbatim_eq_false (Bool.eq_false_iff.mpr hverbatim)
    exact ⟨fun _ => hname, fun _ _ => hopen, fun _ => hbar⟩

theorem isChain_meets_of_gatherAll (h : gatherAll (scanFragment allowed) s = .ok raw rest)
    (hplain : '\\' ∉ s) : raw.IsChain (Fragment.Meets style) := by
  revert hplain
  refine gatherAll_scanFragment_induction
    (motive := fun s raw _ => '\\' ∉ s → raw.IsChain (Fragment.Meets style)) ?_ ?_ h
  · exact fun _ _ _ => .nil
  · intro s f t more rest _ hread hmore ih hplain
    have hopen : openEscape? f.text = none :=
      openEscape?_eq_none fun hmem => hplain (by simpa using hread.subset hmem)
    refine List.isChain_cons.mpr ⟨fun g hg => ?_, ih fun hmem => hplain (hread.suffix.subset hmem)⟩
    obtain ⟨rfl, -, -⟩ | ⟨g', _, _, -, hread', -, rfl⟩ := gatherAll_scanFragment_cases hmore
    · cases hg
    · cases hg
      exact meets_of_readFrom hread.stops hread' hopen

/-- If what comes first is left out, then because a combinator follows. -/
theorem head?_normalizeFrom_true (h : g ∈ (normalizeFrom true raw).head?) :
    g ∈ raw.head? ∨ g.isCombinator := by
  cases raw with
  | nil => cases h
  | cons f raw =>
    by_cases hf : f = .space
    · subst hf
      rw [normalizeFrom] at h
      split at h
      · exact .inl h
      · next hcompound =>
        rw [Bool.true_and, ← startsCompound_normalizeFrom false] at hcompound
        have hnormal := isNormalFrom_normalizeFrom false raw
        cases hraw : normalizeFrom false raw with
        | nil => simp [hraw] at h
        | cons f' fs =>
          rw [hraw] at h hcompound hnormal
          cases h
          rw [startsCompound_cons (ne_space_of_isNormalFrom hnormal)] at hcompound
          exact .inr (by simpa using hcompound)
    · rw [normalizeFrom_cons hf] at h
      exact .inl h

/-- Leaving white space out makes no new neighbours but combinators. -/
theorem isChain_normalizeFrom {R : Fragment → Fragment → Prop} (hspace : ∀ g, R .space g)
    (hbefore : ∀ c g, R (.combinator c) g) (hbehind : ∀ f ∈ raw, ∀ c, R f (.combinator c))
    (h : raw.IsChain R) : (normalizeFrom joins raw).IsChain R := by
  fun_induction normalizeFrom joins raw with
  | case1 => exact .nil
  | case2 joins rest hjoins ih =>
    obtain ⟨-, hrest⟩ := List.isChain_cons.mp h
    exact List.isChain_cons.mpr ⟨fun g _ => hspace g, ih (List.forall_mem_cons.mp hbehind).2 hrest⟩
  | case3 joins rest hjoins ih =>
    exact ih (List.forall_mem_cons.mp hbehind).2 (List.isChain_cons.mp h).2
  | case4 joins f rest hf ih =>
    obtain ⟨hf', hrest⟩ := List.forall_mem_cons.mp hbehind
    obtain ⟨hhead, htail⟩ := List.isChain_cons.mp h
    refine List.isChain_cons.mpr ⟨fun g hg => ?_, ih hrest htail⟩
    by_cases hcombinator : f.isCombinator
    · obtain ⟨c, rfl⟩ := Fragment.exists_of_isCombinator hcombinator
      exact hbefore c g
    · rw [Bool.not_eq_true] at hcombinator
      rw [hcombinator, Bool.not_false] at hg
      rcases head?_normalizeFrom_true hg with hg | hg
      · exact hhead g hg
      · obtain ⟨c, rfl⟩ := Fragment.exists_of_isCombinator hg
        exact hf' c

/-- All that is known of the fragments that are read from a text up to `rest`. -/
structure ReadUpTo (s : Text) (raw : List Fragment) (rest : Text) : Prop where
  legible : ∀ f ∈ raw, f.Legible
  subset : ∀ f ∈ raw, f.text ⊆ ' ' :: s
  suffix : rest <:+ s
  endsMember : endsMember rest

theorem readUpTo_of_gatherAll (h : gatherAll (scanFragment allowed) s = .ok raw rest) :
    ReadUpTo s raw rest := by
  refine gatherAll_scanFragment_induction (motive := ReadUpTo) ?_ ?_ h
  · exact fun s hend => ⟨List.forall_mem_nil _, List.forall_mem_nil _, List.suffix_refl s, hend⟩
  · intro s f t more rest _ hread _ ih
    have hsubset (g : Fragment) (hg : g ∈ more) : g.text ⊆ ' ' :: s :=
      List.Subset.trans (ih.subset g hg) (List.cons_subset_cons ' ' hread.suffix.subset)
    exact ⟨List.forall_mem_cons.mpr ⟨hread.legible, ih.legible⟩,
      List.forall_mem_cons.mpr ⟨hread.subset, hsubset⟩, ih.suffix.trans hread.suffix, ih.endsMember⟩

theorem ReadsAs.readUpTo (h : ReadsAs allowed joins s fs rest) : ReadUpTo s fs rest := by
  obtain ⟨raw, hraw, rfl⟩ := h
  have hread := readUpTo_of_gatherAll hraw
  have hsublist := (normalizeFrom_sublist joins raw).subset
  exact ⟨fun f hf => hread.legible f (hsublist hf), fun f hf => hread.subset f (hsublist hf),
    hread.suffix, hread.endsMember⟩

/-- **What is read is legible**, if there are no escapes in it. -/
theorem ReadsAs.isLegible (h : ReadsAs allowed joins s fs rest) (hplain : '\\' ∉ s) :
    IsLegible style ⟨fs⟩ := by
  refine ⟨h.readUpTo.legible, ?_⟩
  obtain ⟨raw, hraw, rfl⟩ := h
  have hread := readUpTo_of_gatherAll hraw
  refine isChain_normalizeFrom (fun _ => Fragment.meets_of_endsInName_eq_false rfl not_false)
    (fun _ _ => Fragment.meets_of_endsInName_eq_false rfl not_false) (fun f hf c => ?_)
    (isChain_meets_of_gatherAll hraw hplain)
  have hopen : openEscape? f.text = none :=
    openEscape?_eq_none fun hmem => hplain (by simpa using hread.subset f hf hmem)
  cases c <;> exact ⟨fun _ => rfl, fun _ _ => hopen, fun _ => rfl⟩

end Selector

end NestedCss
