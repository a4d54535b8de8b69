import NestedCss.Proofs.Scanner.Identifier
import NestedCss.Proofs.Scanner.StatementText

/-!
# The ends of statements

What may stand between a statement without a block and its end, and scanners to which that makes no
difference.

* `Stylesheet.IsGap`, `Stylesheet.IsEnd`: white space and comments, and where a statement may end;
* `Stylesheet.IsBreak`: texts that no token in front of them goes on in;
* `Stylesheet.KeepsAcross`: scanners that read the same in front of a gap as in front of a semicolon, with
  one lemma for each way to put them together;
* `Stylesheet.Fails`: scanners that never give a value, which is why they keep all they read;
* `Stylesheet.KeepsBehind`: the same for what is read behind the text of a statement;
* **`Stylesheet.KeepsBehind.keepsAcross`**: white space and comments behind the text of a statement become
  white space at its end.
-/

namespace NestedCss.Stylesheet

open Scanner

variable {α β γ : Type} {s rest raw w y : Text} {R : α → β → Prop}

/-! ## Where statements end -/

/-- White space and comments, white space first. -/
structure IsGap (w : Text) : Prop where
  trivia : IsTrivia w
  head : ∀ c ∈ w.head?, isBlank c

/-- A statement may end in front of a semicolon, of a brace that closes the block around it, and at the
end of the source. -/
def IsEnd (rest : Text) : Prop := ∀ c ∈ rest.head?, c = ';' ∨ c = '}'

instance : ∀ rest : Text, Decidable (IsEnd rest)
  | [] => .isTrue nofun
  | c :: _ => decidable_of_iff (c = ';' ∨ c = '}') (by simp [IsEnd])

/-- What is left behind the end of a statement. -/
def afterEnd (rest : Text) : Text := if rest.head? = some ';' then rest.tail else rest

theorem separator_of_isEnd (h : IsEnd rest) : separator rest = .ok () (afterEnd rest) := by
  cases rest with
  | nil => rfl
  | cons c rest =>
    obtain rfl | rfl := h c rfl
    all_goals rfl

theorem eq_of_afterEnd (h : IsEnd rest) (heq : afterEnd rest = ";".toList) : rest = ";;".toList := by
  cases rest with
  | nil => cases heq
  | cons c rest =>
    obtain rfl | rfl := h c rfl
    · exact congrArg (';' :: ·) heq
    · cases heq

theorem eq_of_separator {a : Unit} (hends : EndsText [] s) (h : separator s = .ok a ";".toList) :
    s = ";;".toList := by
  obtain rfl | ⟨-, hhead⟩ := hends
  · cases h
  · cases s with
    | nil => cases hhead
    | cons c s =>
      have hc : c = '{' ∨ c = ';' ∨ c = '}' := by simpa [endsStatement, or_assoc] using hhead
      obtain rfl | hc := hc
      · cases h
      · have hend : IsEnd (c :: s) := by simpa [IsEnd] using hc
        rw [separator_of_isEnd hend] at h
        exact eq_of_afterEnd hend (EStateM.Result.ok.inj h).2

theorem IsEnd.endsText (h : IsEnd rest) : EndsText [] rest := by
  cases rest with
  | nil => exact .inl rfl
  | cons c rest =>
    refine .inr ⟨rfl, ?_⟩
    obtain rfl | rfl := h c rfl
    all_goals rfl

theorem isSolid_of_isEnd (h : IsEnd rest) : isSolid rest := by
  cases rest with
  | nil => rfl
  | cons c rest =>
    obtain rfl | rfl := h c rfl
    all_goals exact isSolid_cons (by decide) (by decide) rest

theorem IsEnd.dropWhile_append {u : Text} (h : IsEnd rest) (hu : ∀ c ∈ u, isBlank c) :
    (u ++ rest).dropWhile isBlank = rest := by
  rw [List.dropWhile_append_of_pos hu, dropWhile_isBlank_of_isSolid (isSolid_of_isEnd h)]

/-! ## What comes behind a token -/

/-- A text that nothing in front of it goes on in. -/
def IsBreak (y : Text) : Prop := ∀ c ∈ y.head?, isBlank c ∨ c = ';' ∨ c = '}'

theorem IsEnd.isBreak (h : IsEnd rest) : IsBreak rest := fun c hc => .inr (h c hc)

theorem IsGap.isBreak (hw : IsGap w) (hrest : IsEnd rest) : IsBreak (w ++ rest) := by
  cases w with
  | nil => exact hrest.isBreak
  | cons c w => exact fun d hd => .inl (hw.head d hd)

theorem isGap_nil : IsGap [] := ⟨.nil, by simp⟩

theorem IsBreak.ne {d : Char} (hy : IsBreak y) (hd : isBlank d = false ∧ d ≠ ';' ∧ d ≠ '}') :
    y.head? ≠ some d := by
  intro h
  obtain hblank | hsemicolon | hbrace := hy d h
  · simp [hd.1] at hblank
  · exact hd.2.1 hsemicolon
  · exact hd.2.2 hbrace

theorem IsBreak.isNeutral (hy : IsBreak y) : IsNeutral y.head? := by
  intro c hc
  refine ⟨?_, ?_, ?_⟩
  all_goals
    rintro rfl
    exact hy.ne (by decide) hc

theorem IsBreak.isSolid_append (hy : IsBreak y) (hraw : raw ≠ []) (h : isSolid raw) : isSolid (raw ++ y) := by
  cases y with
  | nil => rwa [List.append_nil]
  | cons c y => exact isSolid_append hraw h (hy.isNeutral c rfl).1 (hy.isNeutral c rfl).2.1 y

/-- Whether a character comes next does not depend on what is behind. -/
theorem IsBreak.head?_append {d : Char} (hy : IsBreak y) (hd : isBlank d = false ∧ d ≠ ';' ∧ d ≠ '}') :
    (raw ++ y).head? = some d ↔ raw.head? = some d := by
  cases raw with
  | nil => exact iff_of_false (hy.ne hd) (by simp)
  | cons c raw => rfl

theorem IsBreak.nextIs_append {d : Char} (hy : IsBreak y) (hd : isBlank d = false ∧ d ≠ ';' ∧ d ≠ '}') :
    nextIs d (raw ++ y) = .ok (raw.head? == some d) (raw ++ y) := by
  have hiff : ((raw ++ y).head? == some d) = (raw.head? == some d) := by
    rw [Bool.eq_iff_iff, beq_iff_eq, beq_iff_eq, hy.head?_append hd]
  rw [nextIs, hiff]

theorem isBreak_semicolons : IsBreak ";;".toList := by
  intro c hc
  cases hc
  exact .inr (.inl rfl)

theorem nextIs_brace_of_isEnd (h : IsEnd rest) : nextIs '{' rest = .ok false rest := by
  have hne := h.isBreak.ne (d := '{') (by decide)
  rw [nextIs, beq_false_of_ne hne]

theorem IsBreak.startsInterpolation_append (hy : IsBreak y) :
    startsInterpolation (raw ++ y) = startsInterpolation raw := by
  cases raw with
  | nil =>
    refine Bool.eq_false_iff.mpr fun h => ?_
    obtain ⟨mark, t, rfl, rfl | rfl⟩ := startsInterpolation_eq_true h
    · exact hy.ne (d := '#') (by decide) rfl
    · exact hy.ne (d := '@') (by decide) rfl
  | cons c raw =>
    rw [List.cons_append, Bool.eq_iff_iff, startsInterpolation_cons, startsInterpolation_cons,
      hy.head?_append (by decide)]

theorem IsBreak.endsIdentifier {n : Text} (hy : IsBreak y) (hn : openEscape? n = none) :
    EndsIdentifier n y := by
  refine endsIdentifier_of_closes (closes_of_eq_none hn y) fun c hc => ⟨?_, ?_⟩
  · obtain hblank | rfl | rfl := hy c hc
    · exact Bool.eq_false_iff.mpr fun hname => by
        simp [Selector.isBlank_eq_false_of_isNameChar hname] at hblank
    · decide
    · decide
  · rintro rfl
    exact hy.ne (by decide) hc

/-! ## Scanners in front of the end -/

/-- What the scanner takes from the front of a text does not depend on the end behind the rest, apart from
a gap that it may pass over. -/
def Passes (x : Scanner α) : Prop :=
  ∀ ⦃s : Text⦄ ⦃a : α⦄ ⦃raw : Text⦄, x s = .ok a (raw ++ ";;".toList) →
    ∃ pre, s = pre ++ (raw ++ ";;".toList) ∧ ∀ ⦃w rest : Text⦄, IsGap w → IsEnd rest →
      ∃ w', IsGap w' ∧ x (pre ++ (raw ++ (w ++ rest))) = .ok a (raw ++ (w' ++ rest))

/-- What the scanner `x` reads up to a semicolon, `x'` reads alike, as `R` says, behind white space and
comments and up to any end. -/
def KeepsAcross (R : α → β → Prop) (x : Scanner α) (x' : Scanner β) : Prop :=
  ∀ ⦃s : Text⦄ ⦃a : α⦄, x s = .ok a ";".toList → ∃ raw, s = raw ++ ";;".toList ∧
    ∀ ⦃w rest : Text⦄, IsGap w → IsEnd rest → ∃ b, x' (raw ++ (w ++ rest)) = .ok b (afterEnd rest) ∧ R a b

theorem passes_expectChar (c : Char) : Passes (expectChar c) := by
  intro s a raw h
  exact ⟨[c], expectChar_eq_ok.mp h, fun w rest hw _ => ⟨w, hw, expectChar_eq_ok.mpr rfl⟩⟩

theorem passes_nextIs {d : Char} (hd : isBlank d = false ∧ d ≠ ';' ∧ d ≠ '}') : Passes (nextIs d) := by
  intro s found raw h
  obtain rfl : s = raw ++ ";;".toList := (EStateM.Result.ok.inj h).2
  rw [isBreak_semicolons.nextIs_append hd] at h
  cases h
  exact ⟨[], rfl, fun w rest hw hrest => ⟨w, hw, (hw.isBreak hrest).nextIs_append hd⟩⟩

/-- A gap that nothing stands in front of is passed over too. -/
theorem passes_trivia : Passes trivia := by
  intro s _ raw h
  obtain ⟨u, hu, rfl⟩ := exists_isTrivia h (by simp)
  refine ⟨u, rfl, fun w rest hw hrest => ?_⟩
  by_cases hraw : raw = []
  · subst hraw
    have hrest' := trivia_append hw.trivia (trivia_solid (isSolid_of_isEnd hrest))
    exact ⟨[], isGap_nil, trivia_append hu hrest'⟩
  · have hsolid := isSolid_of_append hraw (trivia_eq_ok h).1
    exact ⟨w, hw, trivia_append hu (trivia_solid ((hw.isBreak hrest).isSolid_append hraw hsolid))⟩

namespace KeepsAcross

variable {x : Scanner α} {x' : Scanner β} {a : α}

theorem apply (h : KeepsAcross R x x') (ha : x (raw ++ ";;".toList) = .ok a ";".toList) (hw : IsGap w)
    (hrest : IsEnd rest) : ∃ b, x' (raw ++ (w ++ rest)) = .ok b (afterEnd rest) ∧ R a b := by
  obtain ⟨raw', heq, hraw'⟩ := h ha
  obtain rfl := List.append_cancel_right heq
  exact hraw' hw hrest

theorem bind {x : Scanner γ} {f : γ → Scanner α} {g : γ → Scanner β} (hx : Passes x)
    (hfg : ∀ c, KeepsAcross R (f c) (g c)) : KeepsAcross R (x >>= f) (x >>= g) := by
  intro s a h
  obtain ⟨c, s', hc, ha⟩ := bind_eq_ok.mp h
  obtain ⟨raw, rfl, hraw⟩ := hfg c ha
  obtain ⟨pre, rfl, hpre⟩ := hx hc
  refine ⟨pre ++ raw, (List.append_assoc _ _ _).symm, fun w rest hw hrest => ?_⟩
  obtain ⟨w', hw', hx'⟩ := hpre hw hrest
  obtain ⟨b, hb, hab⟩ := hraw hw' hrest
  rw [List.append_assoc]
  exact ⟨b, bind_eq_ok.mpr ⟨c, _, hx', hb⟩, hab⟩

theorem map {α' β' : Type} {R' : α' → β' → Prop} {p : α → α'} {q : β → β'} (h : KeepsAcross R x x')
    (hR : ∀ a b, R a b → R' (p a) (q b)) : KeepsAcross R' (do return p (← x)) (do return q (← x')) := by
  intro s _ hs
  obtain ⟨a, ha, rfl⟩ := bind_pure_eq_ok.mp hs
  obtain ⟨raw, rfl, hraw⟩ := h ha
  refine ⟨raw, rfl, fun w rest hw hrest => ?_⟩
  obtain ⟨b, hb, hab⟩ := hraw hw hrest
  exact ⟨q b, bind_pure_eq_ok.mpr ⟨b, hb, rfl⟩, hR a b hab⟩

theorem ite {p : Prop} [Decidable p] {y : Scanner α} {y' : Scanner β} (hx : KeepsAcross R x x')
    (hy : KeepsAcross R y y') : KeepsAcross R (if p then x else y) (if p then x' else y') := by
  split
  · exact hx
  · exact hy

/-- Where a text starts makes no difference. -/
theorem mark {f : Nat → Scanner α} {g : Nat → Scanner β} (hfg : ∀ m n, KeepsAcross R (f m) (g n)) :
    KeepsAcross R (Scanner.mark >>= f) (Scanner.mark >>= g) := by
  intro s a h
  obtain ⟨raw, rfl, -⟩ := hfg s.length 0 h
  exact ⟨raw, rfl, fun w rest hw hrest => (hfg _ (raw ++ (w ++ rest)).length).apply h hw hrest⟩

end KeepsAcross

/-! ## Behind identifiers -/

section Identifiers

variable {f : Text → Scanner α} {g : Text → Scanner β} {a : α}

/-- An identifier takes a blank behind it if that ends an escape. -/
theorem identifier_gap (hfg : ∀ n, KeepsAcross R (f n) (g n)) (h : (identifier >>= f) s = .ok a ";".toList) :
    ∃ n raw, s = n ++ (raw ++ ";;".toList) ∧ IsIdentifier n ∧ f n (raw ++ ";;".toList) = .ok a ";".toList ∧
      ∀ ⦃w rest : Text⦄, IsGap w → IsEnd rest → (raw = [] → openEscape? n = none) →
        ∃ b, (identifier >>= g) (n ++ (raw ++ (w ++ rest))) = .ok b (afterEnd rest) ∧ R a b := by
  obtain ⟨n, s', hidentifier, ha⟩ := bind_eq_ok.mp h
  obtain ⟨hn, hends, rfl⟩ := identifier_eq_ok.mp hidentifier
  obtain ⟨raw, rfl, hraw⟩ := hfg n ha
  refine ⟨n, raw, rfl, hn, ha, fun w rest hw hrest hopen => ?_⟩
  have hends' : EndsIdentifier n (raw ++ (w ++ rest)) := by
    cases raw with
    | nil => exact (hw.isBreak hrest).endsIdentifier (hopen rfl)
    | cons c raw => exact hends.congr rfl
  obtain ⟨b, hb, hab⟩ := hraw hw hrest
  exact ⟨b, bind_eq_ok.mpr ⟨n, _, identifier_eq_ok.mpr ⟨hn, hends', rfl⟩, hb⟩, hab⟩

/-- An identifier with something behind it. -/
theorem KeepsAcross.identifier (hfg : ∀ n, KeepsAcross R (f n) (g n))
    (hne : ∀ n a, f n ";;".toList ≠ .ok a ";".toList) :
    KeepsAcross R (Scanner.identifier >>= f) (Scanner.identifier >>= g) := by
  intro s a h
  obtain ⟨n, raw, rfl, -, ha, hraw⟩ := identifier_gap hfg h
  refine ⟨n ++ raw, (List.append_assoc _ _ _).symm, fun w rest hw hrest => ?_⟩
  rw [List.append_assoc]
  refine hraw hw hrest fun hnil => absurd ?_ (hne n a)
  rwa [hnil] at ha

end Identifiers

/-! ## Scanners that fail -/

/-- The scanner gives no value. -/
def Fails (x : Scanner α) : Prop := ∀ ⦃s : Text⦄ ⦃a : α⦄ ⦃rest : Text⦄, x s ≠ .ok a rest

theorem fails_failHere (fault : Fault) : Fails (failHere fault : Scanner α) := fun _ _ _ h => by cases h

theorem fails_failAt (fault : Fault) (r : Region) : Fails (failAt fault r : Scanner α) :=
  fun _ _ _ h => by cases h

namespace Fails

variable {x : Scanner α} {f : α → Scanner β}

theorem bind (hf : ∀ a, Fails (f a)) : Fails (x >>= f) := by
  intro s b rest h
  obtain ⟨a, s', -, hb⟩ := bind_eq_ok.mp h
  exact hf a hb

theorem bind_left (hx : Fails x) : Fails (x >>= f) := by
  intro s b rest h
  obtain ⟨a, s', ha, -⟩ := bind_eq_ok.mp h
  exact hx ha

theorem ite {p : Prop} [Decidable p] {y : Scanner α} (hx : Fails x) (hy : Fails y) :
    Fails (if p then x else y) := by
  split
  · exact hx
  · exact hy

theorem keepsAcross {x' : Scanner β} (hx : Fails x) : KeepsAcross R x x' :=
  fun _ _ h => (hx h).elim

end Fails

/-! ## Behind the text of a statement -/

/-- The same where the text of a statement has ended, with more white space at the end of that. -/
def KeepsBehind (R : α → β → Prop) (f : Text → Scanner α) (g : Text → Scanner β) : Prop :=
  ∀ ⦃t s : Text⦄ ⦃a : α⦄, EndsText [] s → f t s = .ok a ";".toList → s = ";;".toList ∧
    ∀ ⦃gap rest : Text⦄, (∀ c ∈ gap, isBlank c) → IsEnd rest →
      ∃ b, g (t ++ gap) rest = .ok b (afterEnd rest) ∧ R a b

/-- White space and comments behind the text of a statement become white space at its end. -/
theorem KeepsBehind.keepsAcross {f : Text → Scanner α} {g : Text → Scanner β}
    (h : KeepsBehind R f g) : KeepsAcross R (statementText >>= f) (statementText >>= g) := by
  intro s a ha
  obtain ⟨t, s', htext, hbehind⟩ := bind_eq_ok.mp ha
  obtain ⟨hends, raw, hraw, rfl⟩ := statementText_iff.mp htext
  obtain ⟨rfl, hg⟩ := h hends hbehind
  refine ⟨raw, rfl, fun w rest hw hrest => ?_⟩
  obtain ⟨gap, hgap, hw'⟩ := hw.trivia.isStatementText rest
  obtain ⟨b, hb, hab⟩ := hg hgap hrest
  have hmoved := hraw.of_isNeutral (by decide) (hw.isBreak hrest).isNeutral
  have htext' := statementText_iff.mpr ⟨hrest.endsText, _, hmoved.append hw', rfl⟩
  rw [List.append_assoc] at htext'
  exact ⟨b, bind_eq_ok.mpr ⟨_, _, htext', hb⟩, hab⟩

namespace KeepsBehind

variable {f x : Text → Scanner α} {g x' : Text → Scanner β}

/-- What the end is read for does not depend on what is behind it. -/
theorem separator (h : ∀ ⦃t gap s s' : Text⦄ ⦃a : α⦄, (∀ c ∈ gap, isBlank c) → f t s = .ok a s' →
    s' = s ∧ ∀ rest, ∃ b, g (t ++ gap) rest = .ok b rest ∧ R a b) :
    KeepsBehind R (fun t => separator >>= fun _ => f t) (fun t => separator >>= fun _ => g t) := by
  intro t s a hends ha
  obtain ⟨_, s', hseparator, ha⟩ := bind_eq_ok.mp ha
  obtain ⟨rfl, -⟩ := h (List.forall_mem_nil _) ha
  refine ⟨eq_of_separator hends hseparator, fun gap rest hgap hrest => ?_⟩
  obtain ⟨b, hb, hab⟩ := (h hgap ha).2 (afterEnd rest)
  exact ⟨b, bind_eq_ok.mpr ⟨_, _, separator_of_isEnd hrest, hb⟩, hab⟩

theorem region {m n : Nat} {f : Text → Region → Scanner α} {g : Text → Region → Scanner β}
    (h : ∀ r r', KeepsBehind R (f · r) (g · r')) :
    KeepsBehind R (fun t => regionFrom m >>= f t) (fun t => regionFrom n >>= g t) :=
  fun _ _ _ hends ha => ⟨(h _ ⟨0, 0⟩ hends ha).1, fun _ _ hgap hrest => (h _ _ hends ha).2 hgap hrest⟩

/-- There is no block behind the text. -/
theorem noBrace (hx : ∀ t, Fails (x t)) (h : KeepsBehind R f g) :
    KeepsBehind R (fun t => nextIs '{' >>= fun found => if found then x t else f t)
      (fun t => nextIs '{' >>= fun found => if found then x' t else g t) := by
  intro t s a hends ha
  obtain ⟨_, _, hnext, ha⟩ := bind_eq_ok.mp ha
  cases hnext
  split at ha
  · exact (hx t ha).elim
  · obtain ⟨hs, hg⟩ := h hends ha
    refine ⟨hs, fun gap rest hgap hrest => ?_⟩
    obtain ⟨b, hb, hab⟩ := hg hgap hrest
    exact ⟨b, bind_eq_ok.mpr ⟨false, rest, nextIs_brace_of_isEnd hrest, hb⟩, hab⟩

/-- The text passes a check, with the white space too. -/
theorem guard {p q : Text → Prop} [DecidablePred p] [DecidablePred q] (hx : ∀ t, Fails (x t))
    (hpq : ∀ ⦃t gap : Text⦄, (∀ c ∈ gap, isBlank c) → ¬ p t → ¬ q (t ++ gap)) (h : KeepsBehind R f g) :
    KeepsBehind R (fun t => if p t then x t else f t) (fun t => if q t then x' t else g t) := by
  intro t s a hends ha
  by_cases hp : p t
  · simp only [if_pos hp] at ha
    exact (hx t ha).elim
  · simp only [if_neg hp] at ha
    obtain ⟨hs, hg⟩ := h hends ha
    refine ⟨hs, fun gap rest hgap hrest => ?_⟩
    simp only [if_neg (hpq hgap hp)]
    exact hg hgap hrest

end KeepsBehind

end NestedCss.Stylesheet
