import NestedCss.Compile
import NestedCss.Proofs.Flatten.Run
import NestedCss.Proofs.Source.Tokens
import NestedCss.Proofs.Stylesheet.Preludes

/-!
# Where faults are reported

A fault is reported for bytes of the file. They lie between its characters, unless the fault was found in
a selector list and the file has something else in its place: comments are left out of selector lists,
and a line end of two characters becomes one.

* `Flatten.Blames`: what the faults of statements are reported for;
* `Source.IsVerbatim`: whether a region holds neither comments nor line ends of two characters;
* **`isPlaced_of_flatten`**: faults that are not reported for bytes between characters;
* `not_isPlaced_of_flatten`: there are some;
* **`isPlaced_of_plain`**: there are none in a text without comments and such line ends.
-/

namespace NestedCss

namespace Flatten

variable {α β : Type} {P : Diagnosis → Prop}

/-! ## Faults of builders -/

/-- All faults that a builder reports satisfy `P`. -/
def FailsWith (P : Diagnosis → Prop) (x : Builder α) : Prop :=
  ∀ ⦃s : State⦄ ⦃d : Diagnosis⦄ ⦃s' : State⦄, x s = .error d s' → P d

namespace FailsWith

variable {x y : Builder α} {f : α → Builder β}

protected theorem pure (a : α) : FailsWith P (pure a : Builder α) := fun _ _ _ h => by cases h

theorem of_apply {g : State → α × State} (h : ∀ s, x s = .ok (g s).1 (g s).2) : FailsWith P x := by
  intro s d s' hx
  rw [h s] at hx
  cases hx

theorem throw {d : Diagnosis} (h : P d) : FailsWith P (throw d : Builder α) := by
  intro s d' s' hd
  cases hd
  exact h

theorem bind (hx : FailsWith P x) (hf : ∀ a, FailsWith P (f a)) : FailsWith P (x >>= f) := by
  intro s d s' h
  change EStateM.bind x f s = .error d s' at h
  unfold EStateM.bind at h
  cases hxs : x s with
  | ok a s₁ =>
    rw [hxs] at h
    exact hf a h
  | error e s₁ =>
    rw [hxs] at h
    cases h
    exact hx hxs

theorem throw_bind {d : Diagnosis} (h : P d) (f : α → Builder β) :
    FailsWith P ((MonadExcept.throw d : Builder α) >>= f) := by
  intro s d' s' hd
  cases hd
  exact h

theorem ite {p : Prop} [Decidable p] (hx : FailsWith P x) (hy : FailsWith P y) :
    FailsWith P (if p then x else y) := by
  split
  · exact hx
  · exact hy

theorem addLeaf (head : Css.Head Extend.RuleId) (parent : Option Css.NodeId) :
    FailsWith P (Builder.addLeaf head parent) :=
  of_apply (g := fun s => ((), { s with tree := (s.tree.add head parent).2 })) fun _ => rfl

theorem addMarker (id : Extend.RuleId) (marker : Extend.Marker) :
    FailsWith P (Builder.addMarker id marker) :=
  of_apply (g := fun s => ((), { s with store := s.store.addMarker id marker })) fun _ => rfl

theorem log (entry : LogEntry) : FailsWith P (Builder.log entry) :=
  of_apply (g := fun s => ((), { s with log := s.log ++ [entry] })) fun _ => rfl

theorem addBlock (head : Css.Head Extend.RuleId) (parent : Option Css.NodeId)
    (through : Css.Head Extend.RuleId → Bool) : FailsWith P (Builder.addBlock head parent through) :=
  fun _ _ _ h => by cases h

theorem addRule (selectors : List Selector) (containers : List Extend.ContainerId) :
    FailsWith P (Builder.addRule selectors containers) := fun _ _ _ h => by cases h

theorem addContainer : FailsWith P Builder.addContainer := fun _ _ _ h => by cases h

theorem endGroup (c : Context) : FailsWith P (Builder.endGroup c) :=
  ite (.pure _) fun _ _ _ h => by cases h

theorem addCopied (c : Context) {body : Context → Builder Unit} (hbody : ∀ c, FailsWith P (body c)) :
    FailsWith P (addCopied c body) := by
  unfold Flatten.addCopied
  generalize (if c.hasRule then c.rule else none) = rule
  cases rule with
  | none => exact hbody c
  | some rule => exact (addRule _ _).bind fun _ => (addBlock _ _ _).bind fun _ => hbody _

end FailsWith

/-! ## Faults of statements -/

/-- Whether a fault is reported for a region of the source or was found in one of the selector lists. -/
def Blames (o : Origin) (preludes : List Prelude) (d : Diagnosis) : Prop :=
  (∃ r, d.span = o.spanOf r) ∨ ∃ p ∈ preludes,
    Selector.readList ⟨true, o.dialect = .scss⟩ (.ofSnippet p.selector (o.spanOf p.region)) = .error d

variable {o : Origin} {preludes : List Prelude}

theorem failsWith_addRule (c : Context) {selector : Text} {prelude : Region}
    {body : Context → Builder Unit} (hprelude : ⟨selector, prelude⟩ ∈ preludes)
    (hbody : ∀ c, FailsWith (Blames o preludes) (body c)) :
    FailsWith (Blames o preludes) (addRule o c selector prelude body) := by
  unfold addRule
  refine .ite ((FailsWith.addBlock _ _ _).bind fun _ => hbody _) ?_
  dsimp only
  split
  · exact (FailsWith.pure _).bind fun _ => (FailsWith.addRule _ _).bind fun _ =>
      (FailsWith.addBlock _ _ _).bind fun _ => (hbody _).bind fun _ => .endGroup c
  · next hread => exact .throw_bind (.inr ⟨_, hprelude, hread⟩) _

theorem failsWith_addMedia (c : Context) (query : Text) {body : Context → Builder Unit}
    (hbody : ∀ c, FailsWith P (body c)) : FailsWith P (addMedia c query body) :=
  FailsWith.addContainer.bind fun _ => (FailsWith.addBlock _ _ _).bind fun _ =>
    (FailsWith.addCopied _ hbody).bind fun _ => .endGroup c

theorem failsWith_addAtRule (c : Context) (name params : Text) {body : Context → Builder Unit}
    (hbody : ∀ c, FailsWith P (body c)) : FailsWith P (addAtRule c name params body) := by
  unfold addAtRule
  refine .ite (.pure _) (FailsWith.addContainer.bind fun _ => (FailsWith.addBlock _ _ _).bind fun _ => ?_)
  dsimp only
  exact .ite ((hbody _).bind fun _ => .endGroup c) ((FailsWith.addCopied _ hbody).bind fun _ => .endGroup c)

/-- A statement, once this is known of its block. -/
theorem failsWith_addStmt {stmt : Stmt} (hpreludes : stmt.preludes ⊆ preludes)
    (hbody : ∀ c, FailsWith (Blames o preludes) (addStmts o stmt.body c)) (c : Context) :
    FailsWith (Blames o preludes) (addStmt o stmt c) := by
  cases stmt with
  | rule => exact failsWith_addRule c (hpreludes List.mem_cons_self) hbody
  | media => exact failsWith_addMedia c _ hbody
  | blockAtRule => exact failsWith_addAtRule c _ _ hbody
  | atRoot => exact fun s _ _ h => hbody _ h
  | comment => exact .addLeaf _ _
  | plainAtRule =>
    change FailsWith _ (addPlainAtRule c _ _)
    exact .ite (.addLeaf _ _) (.pure _)
  | declaration =>
    change FailsWith _ (addDeclaration o c _ _ _)
    unfold addDeclaration
    refine .ite (.addLeaf _ _) ?_
    split
    · exact .throw (.inl ⟨_, rfl⟩)
    · exact .pure _
  | extend =>
    change FailsWith _ (addExtend o c _ _ _)
    unfold addExtend
    split
    · exact .addMarker _ _
    · split
      · exact .throw (.inl ⟨_, rfl⟩)
      · exact .log _
  | message =>
    change FailsWith _ (addMessage o _ _ _)
    unfold addMessage
    split
    · exact .throw (.inl ⟨_, rfl⟩)
    · exact .log _

theorem preludes_body_subset (stmt : Stmt) : allPreludes stmt.body ⊆ stmt.preludes := by
  cases stmt <;> simp [Stmt.body, Stmt.preludes, allPreludes]

theorem failsWith_addStmts : ∀ {stmts : List Stmt} (c : Context), allPreludes stmts ⊆ preludes →
    FailsWith (Blames o preludes) (addStmts o stmts c)
  | [], c, _ => by
    rw [addStmts]
    exact .pure _
  | stmt :: rest, c, h => by
    rw [allPreludes, List.append_subset] at h
    rw [addStmts]
    exact (failsWith_addStmt h.1
      (fun c => failsWith_addStmts c (List.Subset.trans (preludes_body_subset stmt) h.1)) c).bind fun _ =>
        failsWith_addStmts c h.2
termination_by stmts => sizeOf stmts
decreasing_by
  all_goals
    have := sizeOf_body_le stmt
    simp only [List.cons.sizeOf_spec]
    omega

end Flatten

/-! ## Faults of stylesheets -/

namespace Source

/-- Whether a selector list is read from a region as it stands there: without comments and with line
ends of one character, except at the end. -/
def IsVerbatim (s : Source) (r : Region) : Prop :=
  ¬ Scanner.HasComment ((s.cut r).map Token.char) ∧ Contiguous (s.cut r)

/-- The tokens of the place of a selector list. -/
theorem prefix_of_standsIn {s : Source} {p : Prelude} (h : p.StandsIn s.chars)
    (hverbatim : s.IsVerbatim p.region) : p.selector <+: (s.cut p.region).map Token.char := by
  obtain ⟨raw, rest, ⟨before, hchars⟩, hregion, hraw⟩ := h
  have hsize : s.size = before.length + (raw ++ rest).length := by
    have hlength := congrArg List.length hchars
    rw [List.length_append] at hlength
    exact (List.length_map Token.char).symm.trans hlength.symm
  have hcut : (s.cut p.region).map Token.char = raw := by
    rw [cut, List.map_drop, List.map_take, hregion, hsize]
    change ((s.chars.take _).drop _) = raw
    rw [← hchars, Nat.add_sub_cancel, List.length_append, ← Nat.add_assoc, Nat.add_sub_cancel,
      ← List.append_assoc, ← List.length_append, List.take_left, List.drop_left]
  rw [hcut]
  exact hraw.resolve_left (hcut ▸ hverbatim.1)

theorem isPlaced_iff {d : Diagnosis} {t : Text} : d.isPlaced t = true ↔ d.span.IsPlaced t :=
  Bool.and_eq_true _ _ ▸ Iff.rfl

theorem isPlaced_diagnose (t : Text) (problem : Problem) :
    ((ofText t).diagnose problem).isPlaced t = true := by
  rw [isPlaced_iff, diagnose]
  split
  · exact ⟨Text.isBoundary_iff.mpr ⟨[], List.nil_prefix, rfl⟩,
      Text.isBoundary_iff.mpr ⟨t, List.prefix_refl t, rfl⟩⟩
  · exact isPlaced_spanOf t _

theorem isPlaced_diagnose_ofSnippet {t : Text} {p : Prelude} (h : p.StandsIn (ofText t).chars)
    (hverbatim : (ofText t).IsVerbatim p.region) (problem : Problem) :
    ((ofSnippet p.selector ((ofText t).spanOf p.region)).diagnose problem).isPlaced t = true := by
  rw [isPlaced_iff, diagnose]
  have hspan := isPlaced_spanAt_ofSnippet (prefix_of_standsIn h hverbatim) hverbatim.2
  split
  · exact isPlaced_spanOf t _
  · exact (hspan _).union (hspan _)

end Source

theorem Selector.exists_of_readList_eq_error {allowed : Selector.Allowance} {source : Source}
    {d : Diagnosis} (h : Selector.readList allowed source = .error d) :
    ∃ problem, d = source.diagnose problem := by
  unfold Selector.readList at h
  split at h
  · cases h
  · next problem _ _ =>
    cases h
    exact ⟨problem, rfl⟩

/-- What the fault of a stylesheet is about: something in the source, or one of the selector lists of
the statements in it. -/
theorem blames_of_flatten {dialect : Dialect} {text : Text} {log : List Flatten.LogEntry} {d : Diagnosis}
    (h : flatten dialect text = (log, .error d)) :
    (∃ problem, d = (Source.ofText text).diagnose problem) ∨
      ∃ stmts, Stylesheet.read dialect (.ofText text) = .ok stmts ∧
        Flatten.Blames ⟨dialect, text, .ofText text⟩ (allPreludes stmts) d := by
  unfold flatten at h
  dsimp only at h
  split at h
  · next d' hread =>
    cases h
    unfold Stylesheet.read at hread
    split at hread
    · cases hread
    · cases hread
      exact .inl ⟨_, rfl⟩
  · next stmts hread =>
    split at h
    · cases h
    · next d' s' hadd =>
      cases h
      exact .inr ⟨stmts, hread, Flatten.failsWith_addStmts {} (List.Subset.refl _) hadd⟩

/-- What statements are at fault for is in its place, unless it is in a selector list that is not read as
it stands in the file. -/
theorem Flatten.Blames.isPlaced {dialect : Dialect} {text : Text} {stmts : List Stmt} {d : Diagnosis}
    (h : Blames ⟨dialect, text, .ofText text⟩ (allPreludes stmts) d)
    (hread : Stylesheet.read dialect (.ofText text) = .ok stmts) :
    d.isPlaced text = true ∨ ∃ p ∈ allPreludes stmts,
      Selector.readList ⟨true, dialect = .scss⟩
        (.ofSnippet p.selector ((Source.ofText text).spanOf p.region)) = .error d ∧
      ¬ (Source.ofText text).IsVerbatim p.region := by
  obtain ⟨r, hspan⟩ | ⟨p, hp, hlist⟩ := h
  · exact .inl (Source.isPlaced_iff.mpr (hspan ▸ Source.isPlaced_spanOf text r))
  · by_cases hverbatim : (Source.ofText text).IsVerbatim p.region
    · obtain ⟨problem, rfl⟩ := Selector.exists_of_readList_eq_error hlist
      exact .inl (Source.isPlaced_diagnose_ofSnippet (Stylesheet.standsIn_of_read hread p hp) hverbatim
        problem)
    · exact .inr ⟨p, hp, hlist, hverbatim⟩

/-- **A fault that is not reported for bytes between characters** was found in the selector list of a
style rule, and the file has comments or line ends of two characters in its place. -/
theorem isPlaced_of_flatten {dialect : Dialect} {text : Text} {log : List Flatten.LogEntry}
    {d : Diagnosis} (h : flatten dialect text = (log, .error d)) :
    d.isPlaced text = true ∨ ∃ stmts, Stylesheet.read dialect (.ofText text) = .ok stmts ∧
      ∃ p ∈ allPreludes stmts,
        Selector.readList ⟨true, dialect = .scss⟩
          (.ofSnippet p.selector ((Source.ofText text).spanOf p.region)) = .error d ∧
        ¬ (Source.ofText text).IsVerbatim p.region := by
  obtain ⟨problem, rfl⟩ | ⟨stmts, hread, hblames⟩ := blames_of_flatten h
  · exact .inl (Source.isPlaced_diagnose text problem)
  · exact (hblames.isPlaced hread).imp_right fun hlist => ⟨stmts, hread, hlist⟩

/-- A selector list with a comment in front of characters that take several bytes. -/
def commentedPrelude : Text := "a/*x*/éé]\x7b\x7d".toList

/-- Faults can be compared without the statements. -/
theorem flatten_eq_error_of_map {dialect : Dialect} {text : Text} {log : List Flatten.LogEntry}
    {d : Diagnosis} (h : (flatten dialect text).map id (Except.map fun _ => ()) = (log, .error d)) :
    flatten dialect text = (log, .error d) := by
  generalize flatten dialect text = result at h ⊢
  obtain ⟨log', error | sheet⟩ := result
  · obtain ⟨rfl, herror⟩ := Prod.mk.inj h
    exact congrArg (log', Except.error ·) (Except.error.inj herror)
  · cases (Prod.mk.inj h).2

theorem isPlaced_of_flatten_commentedPrelude :
    ∃ d, flatten .scss commentedPrelude = ([], .error d) ∧
      (d.isPlaced commentedPrelude = true ∨
        ∃ stmts, Stylesheet.read .scss (.ofText commentedPrelude) = .ok stmts ∧
          ∃ p ∈ allPreludes stmts,
            Selector.readList ⟨true, true⟩
              (.ofSnippet p.selector ((Source.ofText commentedPrelude).spanOf p.region)) = .error d ∧
            ¬ (Source.ofText commentedPrelude).IsVerbatim p.region) := by
  have h : flatten .scss commentedPrelude = ([], .error ⟨.expectedSelector, ⟨6, 7⟩⟩) :=
    flatten_eq_error_of_map (by decide +kernel)
  exact ⟨_, h, isPlaced_of_flatten h⟩

/-- There are faults that are reported for a part of a character. -/
theorem not_isPlaced_of_flatten :
    ¬ ∀ (dialect : Dialect) (text : Text) (log : List Flatten.LogEntry) (d : Diagnosis),
      flatten dialect text = (log, .error d) → d.isPlaced text = true := by
  intro h
  have hfault : flatten .scss commentedPrelude = ([], .error ⟨.expectedSelector, ⟨6, 7⟩⟩) :=
    flatten_eq_error_of_map (by decide +kernel)
  have hplaced : (⟨.expectedSelector, ⟨6, 7⟩⟩ : Diagnosis).isPlaced commentedPrelude = true :=
    h _ _ _ _ hfault
  revert hplaced
  decide

/-! ## Stylesheets without comments -/

theorem Scanner.hasComment_of_map {f : Char → Char} (hf : ∀ c, f c = '/' ∨ f c = '*' → f c = c)
    {t : Text} (h : Scanner.HasComment (t.map f)) : Scanner.HasComment t := by
  have hwithin {m : Text} (hm : ∀ c ∈ m, c = '/' ∨ c = '*') (h : m <:+: t.map f) : m <:+: t := by
    obtain ⟨before, after, heq⟩ := h
    obtain ⟨u, after', rfl, hu, -⟩ := List.map_eq_append_iff.mp heq.symm
    obtain ⟨before', m', rfl, -, hm'⟩ := List.map_eq_append_iff.mp hu
    have hid : m'.map f = m'.map id :=
      List.map_congr_left fun c hc => hf c (hm (f c) (hm' ▸ List.mem_map_of_mem hc))
    rw [List.map_id] at hid
    rw [← hm', hid]
    exact ⟨before', after', rfl⟩
  exact h.imp (hwithin (by simp)) (hwithin (by simp))

/-- **In a text without comments and without line ends of two characters**, every fault is reported for
bytes between characters. -/
theorem isPlaced_of_plain {dialect : Dialect} {text : Text} {log : List Flatten.LogEntry}
    {d : Diagnosis} (hcomment : ¬ Scanner.HasComment text) (hwide : ¬ "\r\n".toList <:+: text)
    (h : flatten dialect text = (log, .error d)) : d.isPlaced text = true := by
  obtain ⟨problem, rfl⟩ | ⟨stmts, hread, hblames⟩ := blames_of_flatten h
  · exact Source.isPlaced_diagnose text problem
  refine (hblames.isPlaced hread).resolve_right ?_
  rintro ⟨p, -, -, hverbatim⟩
  obtain ⟨hchars, hcontiguous⟩ := list_of_no_wide 0 hwide
  have hcut : (Source.ofText text).cut p.region <:+: Token.list 0 text :=
    ((List.drop_suffix _ _).isInfix).trans (List.take_prefix _ _).isInfix
  refine hverbatim ⟨fun hcomment' => ?_, hcontiguous.infix hcut⟩
  refine hcomment (Scanner.hasComment_of_map ?_ (hchars ▸ hcomment'.mono (hcut.map Token.char)))
  intro c hc
  split
  · next heq =>
    rw [if_pos heq] at hc
    exact absurd hc (by decide)
  · rfl

end NestedCss
