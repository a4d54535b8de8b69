import NestedCss.Proofs.Scanner.Consumes
import NestedCss.Stylesheet.Reader

/-!
# Where selector lists come from

* `Stmt.preludes`, `allPreludes`: the selector lists of style rules and where they stand;
* `Prelude.StandsIn`: a selector list is the start of what a text has in its place, or that holds a
  comment;
* `Stylesheet.Finds`: all selector lists that a scanner finds stand in the text that it reads;
* **`Stylesheet.standsIn_of_read`**: so do those of a stylesheet.
-/

namespace NestedCss

/-- The selector list of a style rule, without comments, and where it was found. -/
structure Prelude where
  selector : Text
  region : Region

mutual

/-- The selector lists of the style rules in a statement. -/
def Stmt.preludes : Stmt → List Prelude
  | .rule selector prelude _ body => ⟨selector, prelude⟩ :: allPreludes body
  | .media _ _ body | .blockAtRule _ _ _ body | .atRoot _ body => allPreludes body
  | .declaration .. | .plainAtRule .. | .extend .. | .comment .. | .message .. => []

/-- The selector lists of the style rules in statements. -/
def allPreludes : List Stmt → List Prelude
  | [] => []
  | stmt :: rest => stmt.preludes ++ allPreludes rest

end

theorem allPreludes_append (a b : List Stmt) : allPreludes (a ++ b) = allPreludes a ++ allPreludes b := by
  induction a with
  | nil => rfl
  | cons stmt a ih => rw [List.cons_append, allPreludes, allPreludes, ih, List.append_assoc]

/-- Whether a selector list is the start of what the text has in its place. What holds a comment is
read differently. -/
def Prelude.StandsIn (p : Prelude) (s : Text) : Prop :=
  ∃ raw rest, raw ++ rest <:+ s ∧ p.region = ⟨(raw ++ rest).length, rest.length⟩ ∧
    (Scanner.HasComment raw ∨ p.selector <+: raw)

theorem Prelude.StandsIn.mono {p : Prelude} {s s' : Text} (h : p.StandsIn s') (hs : s' <:+ s) :
    p.StandsIn s := by
  obtain ⟨raw, rest, hsuffix, hraw⟩ := h
  exact ⟨raw, rest, hsuffix.trans hs, hraw⟩

theorem Text.trimEnd_prefix (t : Text) : Text.trimEnd t <+: t := by
  rw [Text.trimEnd, ← List.reverse_suffix, List.reverse_reverse]
  exact List.dropWhile_suffix isSpace

namespace Stylesheet

open Scanner (Consumes HasComment bind_eq_ok mark_bind nextIs_bind regionFrom_bind)

variable {α β γ : Type} {s rest : Text}

/-- All selector lists that the value of a scanner holds, by `g`, were known before or stand in the
text that it read. What it leaves is an end of that text. -/
def Finds (known : List Prelude) (g : α → List Prelude) (x : Scanner α) : Prop :=
  ∀ ⦃s : Text⦄ ⦃a : α⦄ ⦃rest : Text⦄, x s = .ok a rest →
    rest <:+ s ∧ ∀ p ∈ g a, p ∈ known ∨ p.StandsIn s

namespace Finds

variable {known : List Prelude} {g : α → List Prelude} {g' : β → List Prelude} {x y : Scanner α}
  {f : α → Scanner β}

protected theorem pure {a : α} (h : ∀ p ∈ g a, p ∈ known) : Finds known g (pure a) := by
  intro s b rest hb
  cases hb
  exact ⟨List.suffix_refl s, fun p hp => .inl (h p hp)⟩

theorem bind (hx : Finds known g x) (hf : ∀ a, Finds (known ++ g a) g' (f a)) :
    Finds known g' (x >>= f) := by
  intro s b rest h
  obtain ⟨a, s', ha, hb⟩ := bind_eq_ok.mp h
  obtain ⟨hs', hknown⟩ := hx ha
  obtain ⟨hrest, hg⟩ := hf a hb
  refine ⟨hrest.trans hs', fun p hp => ?_⟩
  rcases hg p hp with hp | hp
  · rcases List.mem_append.mp hp with hp | hp
    · exact .inl hp
    · exact hknown p hp
  · exact .inr (hp.mono hs')

/-- A scanner that finds nothing and one that does. -/
theorem after (hx : Consumes x) (hf : ∀ a, Finds known g' (f a)) : Finds known g' (x >>= f) := by
  intro s b rest h
  obtain ⟨a, s', ha, hb⟩ := bind_eq_ok.mp h
  obtain ⟨hrest, hg⟩ := hf a hb
  exact ⟨hrest.trans (hx ha), fun p hp => (hg p hp).imp_right (·.mono (hx ha))⟩

theorem ite {c : Prop} [Decidable c] (hx : Finds known g x) (hy : Finds known g y) :
    Finds known g (if c then x else y) := by
  split
  · exact hx
  · exact hy

theorem guard {c : Prop} [Decidable c] {fault : Scanner Unit} {k : Unit → Scanner β}
    (hfault : Consumes fault) (hk : Finds known g' (k ())) :
    Finds known g' (if c then fault >>= k else k ()) :=
  ite (after hfault fun _ => hk) hk

theorem weaken (hx : Finds [] g x) : Finds known g x := by
  intro s a rest h
  obtain ⟨hrest, hg⟩ := hx h
  exact ⟨hrest, fun p hp => .inr ((hg p hp).resolve_left List.not_mem_nil)⟩

theorem failHere (fault : Fault) : Finds known g (Scanner.failHere fault) :=
  fun _ _ _ h => by cases h

theorem failAt (fault : Fault) (r : Region) : Finds known g (Scanner.failAt fault r) :=
  fun _ _ _ h => by cases h

end Finds

/-! ## What holds no style rule -/

theorem consumes_scanAtRuleName : Consumes scanAtRuleName :=
  (Consumes.expectChar '@').bind fun _ => Consumes.identifier.bind fun _ => Consumes.trivia.bind fun _ =>
    .pure _

theorem consumes_scanMessage : Consumes scanMessage :=
  Consumes.mark.bind fun start => Consumes.statementText.bind fun _ =>
    (Consumes.regionFrom start).bind fun _ => Consumes.separator.bind fun _ => .pure _

theorem consumes_skipValue : Consumes skipValue :=
  Consumes.statementText.discard.bind fun _ => (Consumes.nextIs '{').bind fun _ =>
    .ite ((Consumes.failHere _).bind fun _ => Consumes.separator) Consumes.separator

theorem consumes_skipScssVariable : Consumes skipScssVariable :=
  (Consumes.expectChar '$').bind fun _ => Consumes.identifier.discard.bind fun _ =>
    Consumes.trivia.bind fun _ => (Consumes.expectChar ':').bind fun _ => consumes_skipValue

/-! ## Statements -/

variable {block : Scanner (List Stmt)}

theorem finds_scanExtend (start : Nat) : Finds [] Stmt.preludes (scanExtend start) :=
  .after .statementText fun _ => .guard (.failHere _) <|
    .after (.regionFrom start) fun _ => .after .separator fun _ => .pure (by simp [Stmt.preludes])

theorem finds_scanComment : Finds [] Stmt.preludes scanComment :=
  .after .mark fun start => .after (.rawText .loudComment) fun _ =>
    .after (.regionFrom start) fun _ => .pure (by simp [Stmt.preludes])

theorem finds_scanDeclaration (text : Text) (region : Region) :
    Finds [] Stmt.preludes (scanDeclaration text region) := by
  unfold scanDeclaration
  split
  · exact .failAt _ _
  · exact .guard (.failAt _ _) <| .guard (.failAt _ _) <|
      .after .separator fun _ => .pure (by simp [Stmt.preludes])

theorem finds_scanMedia (hblock : Finds [] allPreludes block) (start : Nat) :
    Finds [] Stmt.preludes (scanMedia block start) :=
  .after .statementText fun _ => .guard (.failHere _) <| .bind hblock fun _ =>
    .after (.regionFrom start) fun _ => .pure fun _ hp => hp

theorem finds_scanOtherAtRule (hblock : Finds [] allPreludes block) (name : Text) (start : Nat) :
    Finds [] Stmt.preludes (scanOtherAtRule block name start) :=
  .after .statementText fun _ => .after (.nextIs '{') fun _ => .ite
    (.bind hblock fun _ => .after (.regionFrom start) fun _ => .pure fun _ hp => hp)
    (.after .separator fun _ => .after (.regionFrom start) fun _ => .pure (by simp [Stmt.preludes]))

/-- The selector list of a style rule, once what stands in its place was read. -/
theorem standsIn_of_scanRule (hblock : Finds [] allPreludes block) {raw selector s rest : Text}
    {stmt : Stmt} (hraw : HasComment raw ∨ selector = raw)
    (h : scanRule block selector (raw ++ s).length s = .ok stmt rest) :
    rest <:+ s ∧ ∀ p ∈ stmt.preludes, p.StandsIn (raw ++ s) := by
  let prelude : Prelude := ⟨Text.trimEnd selector, ⟨(raw ++ s).length, s.length⟩⟩
  have hprelude : prelude.StandsIn (raw ++ s) :=
    ⟨raw, s, List.suffix_refl _, rfl, hraw.imp_right (by rintro rfl; exact Text.trimEnd_prefix _)⟩
  have hfinds : Finds [prelude] Stmt.preludes (do
      if prelude.selector.isEmpty then Scanner.failHere .expectedSelector
      let body ← block
      return Stmt.rule prelude.selector prelude.region (← Scanner.regionFrom (raw ++ s).length) body) :=
    .guard (.failHere _) <| .bind hblock.weaken fun body => .after (.regionFrom _) fun _ =>
      .pure fun _ hp => hp
  obtain ⟨hrest, hg⟩ := hfinds h
  refine ⟨hrest, fun p hp => ?_⟩
  rcases hg p hp with hp | hp
  · rw [List.mem_singleton.mp hp]
    exact hprelude
  · exact hp.mono (List.suffix_append raw s)

theorem finds_scanDeclarationOrRule (hblock : Finds [] allPreludes block) (dialect : Dialect) :
    Finds [] Stmt.preludes (scanDeclarationOrRule dialect block) := by
  intro s stmt rest h
  rw [scanDeclarationOrRule, mark_bind] at h
  obtain ⟨text, s', htext, h⟩ := bind_eq_ok.mp h
  obtain ⟨raw, rfl, hraw⟩ := Scanner.statementText_eq_ok htext
  rw [nextIs_bind] at h
  split at h
  · obtain ⟨hrest, hp⟩ := standsIn_of_scanRule hblock hraw h
    exact ⟨hrest.trans (List.suffix_append raw _), fun p hmem => .inr (hp p hmem)⟩
  · have hfinds : Finds [] Stmt.preludes (do
        let region ← Scanner.regionFrom (raw ++ s').length
        if isMixinCall dialect (Text.trim text) then Scanner.failAt .mixinCall region
        scanDeclaration text region) :=
      .after (.regionFrom _) fun _ => .guard (.failAt _ _) (finds_scanDeclaration _ _)
    obtain ⟨hrest, hp⟩ := hfinds h
    exact ⟨hrest.trans (List.suffix_append raw _),
      fun p hmem => (hp p hmem).imp_right (·.mono (List.suffix_append raw _))⟩

/-- A single statement. -/
theorem Finds.singleton {x : Scanner Stmt} (hx : Finds [] Stmt.preludes x) :
    Finds [] allPreludes (do return [← x]) :=
  hx.bind fun _ => .pure fun _ hp => by simpa [allPreludes] using hp

theorem finds_scanAtRoot (hblock : Finds [] allPreludes block) (start : Nat) :
    Finds [] Stmt.preludes (scanAtRoot block start) := by
  refine .after (.nextIs '(') fun _ => .guard (.failHere _) <| .after (.nextIs '{') fun _ => .ite
    (.bind hblock fun _ => .after (.regionFrom start) fun _ => .pure fun _ hp => hp) ?_
  intro s stmt rest h
  rw [mark_bind] at h
  obtain ⟨text, s', htext, h⟩ := bind_eq_ok.mp h
  obtain ⟨raw, rfl, hraw⟩ := Scanner.statementText_eq_ok htext
  rw [nextIs_bind] at h
  split at h
  · cases h
  · obtain ⟨rule, s'', hrule, h⟩ := bind_eq_ok.mp h
    cases h
    obtain ⟨hrest, hp⟩ := standsIn_of_scanRule hblock hraw hrule
    exact ⟨hrest.trans (List.suffix_append raw _),
      fun p hmem => .inr (hp p (by simpa [Stmt.preludes, allPreludes] using hmem))⟩

theorem finds_scanScssAtRule (hblock : Finds [] allPreludes block) :
    Finds [] allPreludes (scanScssAtRule block) := by
  refine .after .mark fun start => .after consumes_scanAtRuleName fun name => ?_
  refine .ite (.after (.regionFrom start) fun _ => .after (.failAt _ _) fun _ => ?_) ?_
  -- the same statements with and without the check in front of them
  all_goals
    refine .ite (finds_scanAtRoot hblock start).singleton <| .ite (finds_scanExtend start).singleton <|
      .ite (finds_scanMedia hblock start).singleton ?_
    split
    · exact .after consumes_scanMessage fun _ => .pure (by simp [allPreludes, Stmt.preludes])
    · exact (finds_scanOtherAtRule hblock name start).singleton

theorem finds_scanScssStatement (hblock : Finds [] allPreludes block) :
    Finds [] allPreludes (scanScssStatement block) :=
  .after (.nextIs '@') fun _ => .after .atInterpolation fun _ => .ite (finds_scanScssAtRule hblock) <|
    .after (.nextIs '$') fun _ => .ite
      (.after consumes_skipScssVariable fun _ => .pure (by simp [allPreludes]))
      (finds_scanDeclarationOrRule hblock .scss).singleton

theorem Finds.consumes {g : α → List Prelude} {known : List Prelude} {x : Scanner α}
    (hx : Finds known g x) : Consumes x := fun _ _ _ h => (hx h).1

theorem finds_scanLessAtRule (hblock : Finds [] allPreludes block) :
    Finds [] allPreludes (scanLessAtRule block) := by
  have hvariable : Consumes (skipLessVariable block) :=
    (Consumes.expectChar ':').bind fun _ => Consumes.trivia.bind fun _ => (Consumes.nextIs '{').bind fun _ =>
      .ite hblock.consumes.discard consumes_skipValue
  exact .after .mark fun start => .after consumes_scanAtRuleName fun name => .after (.nextIs ':') fun _ =>
    .ite (.after hvariable fun _ => .pure (by simp [allPreludes])) <|
    .ite (finds_scanMedia hblock start).singleton (finds_scanOtherAtRule hblock name start).singleton

/-- The scanner goes back to where it started if there is no extend. -/
theorem finds_scanExtendDeclaration :
    Finds [] (fun out => (out.map Stmt.preludes).getD []) scanExtendDeclaration := by
  intro s out rest h
  obtain ⟨_, _, hget, h⟩ := bind_eq_ok.mp h
  cases hget
  rw [mark_bind] at h
  obtain ⟨found, s₁, hfound, h⟩ := bind_eq_ok.mp h
  have hs₁ : s₁ <:+ s := Consumes.scan _ hfound
  split at h
  · cases h
    exact ⟨hs₁, by simp⟩
  obtain ⟨targets, s₂, htargets, h⟩ := bind_eq_ok.mp h
  have hs₂ : s₂ <:+ s := (Consumes.balanced Scanner.isBrackets_parens htargets).trans hs₁
  rw [regionFrom_bind] at h
  obtain ⟨_, s₃, hblanks, h⟩ := bind_eq_ok.mp h
  have hs₃ : s₃ <:+ s := (Consumes.blanks hblanks).trans hs₂
  rw [Scanner.peek_bind] at h
  generalize s₃.head? = next at h
  cases next with
  | none =>
    cases h
    exact ⟨hs₃, by simp [Stmt.preludes]⟩
  | some c =>
    dsimp only at h
    split at h
    · obtain ⟨_, s₄, hseparator, h⟩ := bind_eq_ok.mp h
      cases h
      exact ⟨(Consumes.separator hseparator).trans hs₃, by simp [Stmt.preludes]⟩
    · cases h
      exact ⟨List.suffix_refl s, by simp⟩

theorem finds_scanLessStatement (hblock : Finds [] allPreludes block) :
    Finds [] allPreludes (scanLessStatement block) := by
  refine .after (.nextIs '@') fun _ => .after .atInterpolation fun _ => .ite (finds_scanLessAtRule hblock) <|
    .bind finds_scanExtendDeclaration fun out => ?_
  cases out with
  | none => exact (finds_scanDeclarationOrRule hblock .less).singleton
  | some extend => exact .pure fun _ hp => by simpa [allPreludes] using hp

theorem finds_scanStatement (hblock : Finds [] allPreludes block) (dialect : Dialect) :
    Finds [] allPreludes (scanStatement dialect block) := by
  cases dialect with
  | scss => exact finds_scanScssStatement hblock
  | less => exact finds_scanLessStatement hblock

/-! ## Blocks -/

theorem finds_scanItem (hblock : Finds [] allPreludes block) (dialect : Dialect) (inBlock : Bool) :
    Finds [] (fun out => (out.map allPreludes).getD []) (scanItem dialect block inBlock) := by
  refine .after .blanks fun _ => .after .peek fun c => ?_
  split
  · exact .ite (.failHere _) (.pure (by simp))
  · exact .guard (.failHere _) <| .after .skip fun _ => .pure (by simp)
  · exact .after .skip fun _ => .pure (by simp [allPreludes])
  · refine .after (.lookingAt _) fun _ => .ite (.after .silentComment fun _ => .pure (by simp [allPreludes]))
      (.after (.lookingAt _) fun _ => .ite ?_ ?_)
    · exact .bind finds_scanComment fun _ => .pure fun _ hp => by simpa [allPreludes] using hp
    · exact .bind (finds_scanStatement hblock dialect) fun _ => .pure fun _ hp => hp

theorem finds_gatherAll {step : Scanner (Option (List Stmt))}
    (hstep : Finds [] (fun out => (out.map allPreludes).getD []) step) :
    Finds [] allPreludes (Scanner.gatherAll step) := by
  intro s out rest h
  refine Scanner.gatherAll_induction (motive := fun s out rest =>
    rest <:+ s ∧ ∀ p ∈ allPreludes out, p ∈ [] ∨ p.StandsIn s) ?_ ?_ ?_ h
  · intro s rest hnone
    exact ⟨(hstep hnone).1, by simp [allPreludes]⟩
  · intro s piece rest hsome _
    exact hstep hsome
  · intro s piece s' more rest hsome _ _ ih
    obtain ⟨hs', hpiece⟩ := hstep hsome
    refine ⟨ih.1.trans hs', fun p hp => ?_⟩
    rw [allPreludes_append, List.mem_append] at hp
    rcases hp with hp | hp
    · exact hpiece p hp
    · exact (ih.2 p hp).imp_right (·.mono hs')

theorem finds_scanBlockTo (dialect : Dialect) (depth : Nat) :
    Finds [] allPreludes (scanBlockTo dialect depth) := by
  induction depth with
  | zero => exact .after (.expectChar '{') fun _ => .pure (by simp [allPreludes])
  | succ depth ih =>
    exact .after (.expectChar '{') fun _ => finds_gatherAll (finds_scanItem ih dialect true)

theorem finds_scanBlock (dialect : Dialect) : Finds [] allPreludes (scanBlock dialect) :=
  fun s _ _ h => finds_scanBlockTo dialect s.length h

theorem finds_scan (dialect : Dialect) : Finds [] allPreludes (scan dialect) :=
  .after (Consumes.scanChar _).discard fun _ =>
    finds_gatherAll (finds_scanItem (finds_scanBlock dialect) dialect false)

/-- **The selector lists of a stylesheet stand in it**, wherever they are nested. -/
theorem standsIn_of_read {dialect : Dialect} {source : Source} {stmts : List Stmt}
    (h : read dialect source = .ok stmts) : ∀ p ∈ allPreludes stmts, p.StandsIn source.chars := by
  unfold read at h
  split at h
  · next hscan =>
    cases h
    exact fun p hp => ((finds_scan dialect hscan).2 p hp).resolve_left List.not_mem_nil
  · cases h

/-- The statements of a source that is known to be read. -/
theorem read_of_isOk {dialect : Dialect} {source : Source} (h : (read dialect source).isOk = true) :
    read dialect source = .ok ((read dialect source).toOption.getD []) := by
  cases hread : read dialect source with
  | ok stmts => rfl
  | error d => simp [hread, Except.isOk, Except.toBool] at h

end Stylesheet

end NestedCss
