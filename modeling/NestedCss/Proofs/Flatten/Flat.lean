import NestedCss.Proofs.Css.Finish
import NestedCss.Proofs.Css.Flat
import NestedCss.Proofs.Flatten.Run

/-!
# The output is flat

Style rules hold no blocks, a `@media` leaves the style rules and the `@media` rules around it, and every
declaration has something to stand in. This rests on the context: what it says about the statements around
agrees with the place that it points to.

* `Context.Fits`: the context agrees with the tree;
* `Enters.fits`: entering a block keeps this up, `Run.fits`: so does a run;
* **`flat_finish`**: the output of every stylesheet is flat.
-/

namespace NestedCss

namespace Flatten

open Css (Head NodeId)
open Extend (ContainerId RuleId Store)

variable {o : Origin} {c c₁ : Context} {s s' : State} {stmt : Stmt} {stmts : List Stmt}
  {r : Context × State} {t t' : Css.Tree RuleId} {head : Head RuleId} {through : Head RuleId → Bool}

/-! ## Contexts and trees -/

/-- What the context says about the statements around agrees with the tree. -/
structure Context.Fits (c : Context) (t : Css.Tree RuleId) : Prop where
  isFlat : t.IsFlat
  valid : t.Valid c.parent
  blocks : ∀ a ∈ t.heads c.parent, a.isBlock
  query : c.query = none → ∀ a ∈ t.heads c.parent, a.isMedia = false
  atRule : (c.inAtRule || c.inKeyframes) = true →
    ∃ a ∈ t.heads c.parent, a.isRule = false ∧ a.isMedia = false
  rule : c.hasRule = true → t.heads c.parent ≠ []

theorem Context.Fits.mono (h : c.Fits t) (hext : t.Extends t') (ht' : t'.IsFlat) : c.Fits t' := by
  have hheads := hext.heads_eq h.isFlat.sound ht'.sound h.valid
  constructor
  · exact ht'
  · exact hext.valid h.valid
  · simpa [hheads] using h.blocks
  · simpa [hheads] using h.query
  · simpa [hheads] using h.atRule
  · simpa [hheads] using h.rule

/-! ## Statements without a block -/

theorem Context.Fits.addLeaf (h : c.Fits s.tree) (hblock : head.isBlock = false)
    (hdeclaration : head.isDeclaration → s.tree.heads c.parent ≠ []) :
    c.Fits (s.addLeaf head c).tree ∧ s.tree.Extends (s.addLeaf head c).tree := by
  have hext := s.tree.extends_push ⟨head, false, c.parent⟩
  exact ⟨h.mono hext (h.isFlat.push h.valid hblock h.blocks hdeclaration), hext⟩

theorem Adds.fits (h : Adds o c s stmt s') (hc : c.Fits s.tree) :
    c.Fits s'.tree ∧ s.tree.Extends s'.tree := by
  cases h with
  | declaration hplace =>
    refine hc.addLeaf rfl fun _ => ?_
    rw [Bool.or_assoc] at hplace
    rcases Bool.or_eq_true_iff.mp hplace with hrule | hat
    · exact hc.rule hrule
    · obtain ⟨a, ha, -⟩ := hc.atRule hat
      exact List.ne_nil_of_mem ha
  | atRule | comment => exact hc.addLeaf rfl (by simp [Head.isDeclaration])
  | dropped | charset | charsetBlock | extend | ignored | message => exact ⟨hc, .refl _⟩

/-! ## Statements with a block -/

theorem eq_false_of_getLast?_rdropWhile {α : Type} {p : α → Bool} {l : List α} {a : α}
    (h : (l.rdropWhile p).getLast? = some a) : p a = false := by
  obtain ⟨hne, rfl⟩ := List.mem_getLast?_eq_getLast h
  simpa using List.rdropWhile_last_not p l hne

theorem mem_rdropWhile {α : Type} {p : α → Bool} {l : List α} {a : α} (ha : a ∈ l)
    (hp : p a = false) : a ∈ l.rdropWhile p := by
  rw [← List.rdropWhile_append_rtakeWhile (p := p) (l := l)] at ha
  rcases List.mem_append.mp ha with ha | ha
  · exact ha
  · have := List.mem_rtakeWhile_imp ha
    simp [hp] at this

/-- Adding a block below the context keeps the tree flat, and the context of its body fits. -/
theorem Context.Fits.addBlock (h : c.Fits t) (head : Head RuleId) (through : Head RuleId → Bool)
    (hblock : head.isBlock = true)
    (hthrough : ∀ a, through a = true → a.isRule = true ∨ a.isMedia = true)
    (hlast : ∀ a, ((t.heads c.parent).rdropWhile through).getLast? = some a →
      a.isRule = false ∧ (head.isMedia = true → a.isMedia = false))
    (hparent : c₁.parent = some (t.addBlock head c.parent through).1)
    (hquery : c₁.query = none → c.query = none ∧ head.isMedia = false)
    (hat : (c₁.inAtRule || c₁.inKeyframes) = true →
      (c.inAtRule || c.inKeyframes) = true ∨ head.isRule = false ∧ head.isMedia = false) :
    c₁.Fits (t.addBlock head c.parent through).2 ∧
      t.Extends (t.addBlock head c.parent through).2 := by
  have hentered := Css.Tree.entered_addBlock h.isFlat.sound h.valid head through
  have hsub : (t.heads c.parent).rdropWhile through ⊆ t.heads c.parent :=
    (List.rdropWhile_prefix through _).subset
  have hheads : (t.addBlock head c.parent through).2.heads c₁.parent =
      (t.heads c.parent).rdropWhile through ++ [head] := by rw [hparent, hentered.heads]
  have hflat := h.isFlat.addBlock h.valid hblock h.blocks hlast
  refine ⟨⟨hflat, hparent ▸ hentered.valid, ?_, ?_, ?_, ?_⟩, hentered.extension⟩
  all_goals rw [hheads]
  · rw [List.forall_mem_append, List.forall_mem_singleton]
    exact ⟨fun a ha => h.blocks a (hsub ha), hblock⟩
  · intro hnone
    obtain ⟨hnone, hmedia⟩ := hquery hnone
    rw [List.forall_mem_append, List.forall_mem_singleton]
    exact ⟨fun a ha => h.query hnone a (hsub ha), hmedia⟩
  · intro hc₁
    rcases hat hc₁ with hc | hhead
    · obtain ⟨a, ha, hrule, hmedia⟩ := h.atRule hc
      refine ⟨a, List.mem_append_left _ (mem_rdropWhile ha ?_), hrule, hmedia⟩
      by_contra hcontra
      simpa [hrule, hmedia] using hthrough a (by simpa using hcontra)
    · exact ⟨head, by simp, hhead⟩
  · simp

/-- A copy of the style rule in effect goes into the at-rule that was just added. -/
theorem Context.Fits.enterCopy (h : c.Fits s.tree)
    (hlast : ∀ a, (s.tree.heads c.parent).getLast? = some a → a.isRule = false) :
    (enterCopy c s).1.Fits (enterCopy c s).2.tree ∧ s.tree.Extends (enterCopy c s).2.tree := by
  rw [Flatten.enterCopy]
  split
  · exact ⟨h, .refl _⟩
  · next rule _ =>
    have hself : (s.tree.heads c.parent).rdropWhile (fun _ => false) = s.tree.heads c.parent := by simp
    refine h.addBlock (.rule _) (fun _ => false) rfl (by simp) ?_ rfl ?_ ?_
    · rw [hself]
      exact fun a ha => ⟨hlast a ha, by simp [Head.isMedia]⟩
    · exact fun hnone => ⟨hnone, rfl⟩
    · exact .inl

theorem Context.Fits.enterRule (h : c.Fits s.tree) (selectors : List Selector) :
    (enterRule o c selectors s).1.Fits (enterRule o c selectors s).2.tree ∧
      s.tree.Extends (enterRule o c selectors s).2.tree := by
  refine h.addBlock (.rule _) Head.isRule rfl (fun _ => .inl) ?_ rfl ?_ ?_
  · exact fun a ha => ⟨eq_false_of_getLast?_rdropWhile ha, by simp [Head.isMedia]⟩
  · exact fun hnone => ⟨hnone, rfl⟩
  · exact .inl

theorem Context.Fits.enterKeyframe (h : c.Fits s.tree) (selector : Text) :
    (s.enterBlock c (.keyframe selector) Head.isRule).1.Fits
        (s.enterBlock c (.keyframe selector) Head.isRule).2.tree ∧
      s.tree.Extends (s.enterBlock c (.keyframe selector) Head.isRule).2.tree := by
  refine h.addBlock (.keyframe _) Head.isRule rfl (fun _ => .inl) ?_ rfl ?_ ?_
  · exact fun a ha => ⟨eq_false_of_getLast?_rdropWhile ha, by simp [Head.isMedia]⟩
  · exact fun hnone => ⟨hnone, rfl⟩
  · exact .inl

/-- No `@media` leaves a style rule or `@media` around it in its place. -/
theorem Context.Fits.leftByMedia (h : c.Fits t) {a : Head RuleId}
    (ha : ((t.heads c.parent).rdropWhile c.leftByMedia).getLast? = some a) :
    a.isRule = false ∧ a.isMedia = false := by
  have hmem := (List.rdropWhile_prefix c.leftByMedia _).subset (List.mem_of_getLast? ha)
  have hleft := eq_false_of_getLast?_rdropWhile ha
  cases hquery : c.query with
  | none => simpa [Context.leftByMedia, hquery, h.query hquery a hmem] using hleft
  | some => simpa [Context.leftByMedia, hquery] using hleft

theorem Context.Fits.openMedia (h : c.Fits s.tree) (query : Text) :
    (openMedia c query s).1.Fits (openMedia c query s).2.tree ∧
      s.tree.Extends (openMedia c query s).2.tree := by
  refine h.addBlock (.media _) c.leftByMedia rfl ?_ ?_ rfl ?_ .inl
  · simp only [Context.leftByMedia, Bool.or_eq_true, Bool.and_eq_true]
    exact fun a ha => ha.imp_right And.right
  · exact fun a ha => ⟨(h.leftByMedia ha).1, fun _ => (h.leftByMedia ha).2⟩
  · simp [Flatten.openMedia]

theorem heads_openMedia (h : c.Fits s.tree) (query : Text) :
    (openMedia c query s).2.tree.heads (openMedia c query s).1.parent =
      (s.tree.heads c.parent).rdropWhile c.leftByMedia ++ [.media (c.mergedQuery query)] :=
  (Css.Tree.entered_addBlock h.isFlat.sound h.valid _ _).heads

theorem Context.Fits.enterMedia (h : c.Fits s.tree) (query : Text) :
    (enterMedia c query s).1.Fits (enterMedia c query s).2.tree ∧
      s.tree.Extends (enterMedia c query s).2.tree := by
  obtain ⟨hopen, hext⟩ := h.openMedia query
  obtain ⟨hcopy, hext'⟩ := hopen.enterCopy fun a ha => by
    rw [heads_openMedia h, List.getLast?_concat] at ha
    cases ha
    rfl
  exact ⟨hcopy, hext.trans hext'⟩

theorem Context.Fits.openAtRule (h : c.Fits s.tree) (name params : Text) :
    (openAtRule c name params s).1.Fits (openAtRule c name params s).2.tree ∧
      s.tree.Extends (openAtRule c name params s).2.tree := by
  refine h.addBlock (.blockAtRule name params) Head.isRule rfl (fun _ => .inl) ?_
    rfl ?_ fun _ => .inr ⟨rfl, rfl⟩
  · exact fun a ha => ⟨eq_false_of_getLast?_rdropWhile ha, by simp [Head.isMedia]⟩
  · exact fun hnone => ⟨hnone, rfl⟩

theorem heads_openAtRule (h : c.Fits s.tree) (name params : Text) :
    (openAtRule c name params s).2.tree.heads (openAtRule c name params s).1.parent =
      (s.tree.heads c.parent).rdropWhile Head.isRule ++ [.blockAtRule name params] :=
  (Css.Tree.entered_addBlock h.isFlat.sound h.valid _ _).heads

theorem Context.Fits.enterAtRule (h : c.Fits s.tree) (name params : Text) :
    (enterAtRule c name params s).1.Fits (enterAtRule c name params s).2.tree ∧
      s.tree.Extends (enterAtRule c name params s).2.tree := by
  obtain ⟨hopen, hext⟩ := h.openAtRule name params
  rw [Flatten.enterAtRule]
  split
  · exact ⟨hopen, hext⟩
  · obtain ⟨hcopy, hext'⟩ := hopen.enterCopy fun a ha => by
      rw [heads_openAtRule h, List.getLast?_concat] at ha
      cases ha
      rfl
    exact ⟨hcopy, hext.trans hext'⟩

theorem Context.Fits.enterAtRoot (h : c.Fits t) :
    { c with parent := c.parent.bind (t.climb Head.isRule), atRoot := true : Context }.Fits t := by
  have hheads := Css.Tree.heads_climb h.isFlat.sound h.valid Head.isRule
  have hsub : (t.heads c.parent).rdropWhile Head.isRule ⊆ t.heads c.parent :=
    (List.rdropWhile_prefix _ _).subset
  refine ⟨h.isFlat, h.isFlat.sound.valid_climb h.valid _, ?_, ?_, ?_, by simp [Context.hasRule]⟩
  all_goals rw [hheads]
  · exact fun a ha => h.blocks a (hsub ha)
  · exact fun hnone a ha => h.query hnone a (hsub ha)
  · intro hat
    obtain ⟨a, ha, hrule, hmedia⟩ := h.atRule hat
    exact ⟨a, mem_rdropWhile ha hrule, hrule, hmedia⟩

theorem Enters.fits (h : Enters o c s stmt r) (hc : c.Fits s.tree) :
    r.1.Fits r.2.tree ∧ s.tree.Extends r.2.tree := by
  cases h with
  | keyframe => exact hc.enterKeyframe _
  | rule => exact hc.enterRule _
  | media => exact hc.enterMedia _
  | atRule => exact hc.enterAtRule _ _
  | atRoot => exact ⟨hc.enterAtRoot, .refl _⟩

/-! ## Runs -/

theorem leave_tree (c : Context) (stmt : Stmt) (s : State) :
    (leave c stmt s).tree = s.tree ∨ (leave c stmt s).tree = s.tree.endGroup c.parent := by
  unfold leave
  split
  · exact .inl rfl
  · split
    · split
      · exact .inl rfl
      · exact .inr rfl
    · exact .inr rfl
    · exact .inr rfl
    · exact .inl rfl

theorem leave_fits (hc : c.Fits s.tree) (stmt : Stmt) :
    c.Fits (leave c stmt s).tree ∧ s.tree.Extends (leave c stmt s).tree := by
  rcases leave_tree c stmt s with h | h
  · rw [h]
    exact ⟨hc, .refl _⟩
  · rw [h]
    have hext := s.tree.extends_endGroup c.parent
    exact ⟨hc.mono hext (hc.isFlat.endGroup _), hext⟩

/-- A run keeps the tree flat and in agreement with the context. -/
theorem Run.fits (h : Run o c stmts s s') (hc : c.Fits s.tree) :
    c.Fits s'.tree ∧ s.tree.Extends s'.tree := by
  induction h with
  | nil => exact ⟨hc, .refl _⟩
  | plain hadds _ ih =>
    obtain ⟨hc₁, hext₁⟩ := hadds.fits hc
    obtain ⟨hc', hext'⟩ := ih hc₁
    exact ⟨hc', hext₁.trans hext'⟩
  | @block c stmt rest s s₂ s' r henters _ _ ihbody ih =>
    obtain ⟨hr, hext⟩ := henters.fits hc
    obtain ⟨hr₂, hext₂⟩ := ihbody hr
    obtain ⟨hleave, hext₃⟩ := leave_fits (hc.mono (hext.trans hext₂) hr₂.isFlat) stmt
    obtain ⟨hc', hext'⟩ := ih hleave
    exact ⟨hc', ((hext.trans hext₂).trans hext₃).trans hext'⟩

/-- Behind a block the context fits as it did in front of it. -/
theorem fits_leave {s₂ : State} (henters : Enters o c s stmt r) (hbody : Run o r.1 stmt.body r.2 s₂)
    (hc : c.Fits s.tree) : c.Fits s₂.tree ∧ c.Fits (leave c stmt s₂).tree ∧
      s.tree.Extends (leave c stmt s₂).tree := by
  obtain ⟨hr, hext⟩ := henters.fits hc
  obtain ⟨hr₂, hext₂⟩ := hbody.fits hr
  have hc₂ := hc.mono (hext.trans hext₂) hr₂.isFlat
  obtain ⟨hleave, hext₃⟩ := leave_fits hc₂ stmt
  exact ⟨hc₂, hleave, (hext.trans hext₂).trans hext₃⟩

theorem fits_initial (dialect : Dialect) : Context.Fits {} (State.initial dialect).tree where
  isFlat := ⟨fun i p h => by simp [State.initial, Css.Tree.empty, Css.Tree.parent?] at h,
    fun x hx => by simp [State.initial, Css.Tree.empty, Css.Tree.occurrences] at hx⟩
  valid := fun i hi => by cases hi
  blocks := by simp
  query := by simp
  atRule := by simp
  rule := by simp [Context.hasRule]

/-- **The output of every stylesheet is flat**, and no leaf was ever used as a parent. -/
theorem flat_finish (h : addStmts o stmts {} (.initial o.dialect) = .ok () s) :
    (∀ x ∈ Css.occurrences s.finish, x.IsFlat) ∧
      ∀ i k : ℕ, s.tree.parent? i = some k → ∃ a, s.tree.head? k = some a ∧ a.isBlock := by
  obtain ⟨hfits, -⟩ := (addStmts_eq_ok.mp h).fits (fits_initial o.dialect)
  have hsound := hfits.isFlat.sound
  refine ⟨fun x hx => ?_, fun i k => hfits.isFlat.isBlock_of_parent?⟩
  rw [State.finish, Css.Tree.occurrences_finish_map _ hsound] at hx
  obtain ⟨y, hy, rfl⟩ := List.mem_map.mp hx
  have hflat := hfits.isFlat.flat y ((Css.Tree.occurrences_finish_perm hsound).subset hy)
  exact hflat.map s.store.resolve.selectors

/-- The output of the example is flat. -/
theorem flat_finish_mixedSheet : ∃ s,
    addStmts (blank .scss) mixedSheet {} (.initial .scss) = .ok () s ∧
      (∀ x ∈ Css.occurrences s.finish, x.IsFlat) ∧
      ∀ i k : ℕ, s.tree.parent? i = some k → ∃ a, s.tree.head? k = some a ∧ a.isBlock := by
  obtain ⟨s, hs⟩ := exists_ok_mixedSheet
  exact ⟨s, hs, flat_finish hs⟩

end Flatten

end NestedCss
