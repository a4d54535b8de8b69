import NestedCss.Proofs.Extend.Filled
import NestedCss.Proofs.Flatten.Flat

/-!
# Where declarations end up

Every declaration comes out once, in a place that can be read off the stylesheet: in the at-rules around
it, less those `@media` rules that a `@media` right within them has taken over, and there in a rule with
the selectors of the style rule in effect.

* `Frame`: a statement with a block around a declaration, of which lists go from the inside out;
* `place`: the blocks that a declaration comes to stand in;
* `placements`: the declarations of a stylesheet in their places;
* **`placements_finish`**: these are the declarations of the output.
-/

namespace NestedCss

namespace Css

/-- Whether the statement is `@keyframes`. -/
def Head.isKeyframes {σ : Type} : Head σ → Bool
  | .blockAtRule name _ => AtRule.isKeyframes name
  | _ => false

@[simp] theorem Head.isKeyframes_map {σ τ : Type} (f : σ → τ) (a : Head σ) :
    (a.map f).isKeyframes = a.isKeyframes := by
  cases a <;> rfl

/-- Whether the statement is a declaration outside of `@keyframes`. -/
def Occurrence.isPlainDeclaration {σ : Type} (x : Occurrence σ) : Bool :=
  x.head.isDeclaration && !x.around.any Head.isKeyframes

end Css

namespace Flatten

open Css (Head NodeId Occurrence)
open Extend (ContainerId RuleId Store)

/-! ## Places -/

/-- A statement with a block. -/
inductive Frame where
  | rule (selector : Text) (prelude : Region)
  | media (query : Text)
  | atRule (name params : Text)
  | atRoot

namespace Frame

/-- Whether the statement is an at-rule that is neither `@media` nor `@at-root`. -/
def isAtRule : Frame → Bool
  | .atRule .. => true
  | _ => false

/-- Whether a style rule is in effect: one is around, with no `@at-root` in between. -/
def hasRule : List Frame → Bool
  | [] | .atRoot :: _ => false
  | .rule .. :: _ => true
  | _ :: outer => hasRule outer

/-- Whether an `@at-root` is around, with no style rule in between. -/
def hasAtRoot : List Frame → Bool
  | [] | .rule .. :: _ => false
  | .atRoot :: _ => true
  | _ :: outer => hasAtRoot outer

/-- The query of a `@media`, merged onto that of the one around it. -/
def mergedOnto (outer : Option Text) (query : Text) : Text :=
  match outer with
  | some outer => MediaQuery.merge outer query
  | none => query

/-- The query of the innermost `@media`, merged onto that of the next one around it. -/
def query : List Frame → Option Text
  | [] => none
  | .media q :: outer => some (mergedOnto (query outer) q)
  | _ :: outer => query outer

/-- What nesting makes of the selectors of the innermost style rule. -/
def selectors (o : Origin) : List Frame → List Selector
  | [] => []
  | .rule selector prelude :: outer =>
    let list := (Selector.readList ⟨true, o.dialect = .scss⟩
      (Source.ofSnippet selector (o.spanOf prelude))).toOption.getD []
    Selector.combine (nestable o.dialect (selectors o outer)) list (!hasAtRoot outer)
  | _ :: outer => selectors o outer

/-- The selectors that declarations come to stand under. What is in an at-rule within the style rule
stands under those that child rules nest under. -/
def writtenSelectors (o : Origin) : List Frame → List Selector
  | .rule selector prelude :: outer => selectors o (.rule selector prelude :: outer)
  | frames => nestable o.dialect (selectors o frames)

/-- The at-rules around, outermost first, where `taken` says that the next at-rule further in is a
`@media`, which takes over the query of a `@media`. -/
def atRules (taken : Bool) : List Frame → List (Head (List Selector))
  | [] => []
  | .media q :: outer => atRules true outer ++ if taken then [] else [.media (mergedOnto (query outer) q)]
  | .atRule name params :: outer => atRules false outer ++ [.blockAtRule name params]
  | _ :: outer => atRules taken outer

/-- The blocks that a declaration comes to stand in, outermost first. -/
def place (o : Origin) (frames : List Frame) : List (Head (List Selector)) :=
  atRules false frames ++ if hasRule frames then [.rule (writtenSelectors o frames)] else []

/-- Whether a declaration is dropped: LESS has no use for one outside of style rules and at-rules other
than `@media`. -/
def isDropped (o : Origin) (frames : List Frame) : Bool :=
  o.dialect = .less && !hasRule frames && !frames.any isAtRule

end Frame

mutual

/-- The declarations of a statement outside of `@keyframes` and `@charset`, in their places. -/
def placement (o : Origin) (frames : List Frame) : Stmt → List (Occurrence (List Selector))
  | .rule selector prelude _ body => placements o (.rule selector prelude :: frames) body
  | .declaration property value _ =>
    if Frame.isDropped o frames then [] else [⟨Frame.place o frames, .declaration property value⟩]
  | .media query _ body => placements o (.media query :: frames) body
  | .blockAtRule name params _ body =>
    if AtRule.isCharset name || AtRule.isKeyframes name then []
    else placements o (.atRule name params :: frames) body
  | .atRoot _ body => placements o (.atRoot :: frames) body
  | .plainAtRule .. | .extend .. | .comment .. | .message .. => []

/-- The declarations of statements outside of `@keyframes` and `@charset`, in their places. -/
def placements (o : Origin) (frames : List Frame) : List Stmt → List (Occurrence (List Selector))
  | [] => []
  | stmt :: rest => placement o frames stmt ++ placements o frames rest

end

variable {o : Origin} {c : Context} {s s' : State} {stmt : Stmt} {stmts : List Stmt}
  {r : Context × State} {t t' : Css.Tree RuleId} {frames : List Frame} {f : RuleId → List Selector}

/-! ## Places and what is left -/

theorem rdropWhile_congr {α : Type} {p q : α → Bool} {l : List α} (h : ∀ a ∈ l, p a = q a) :
    l.rdropWhile p = l.rdropWhile q := by
  induction l using List.reverseRecOn with
  | nil => rfl
  | append_singleton l a ih =>
    rw [List.rdropWhile_concat, List.rdropWhile_concat, h a (by simp),
      ih fun b hb => h b (by simp [hb])]

theorem rdropWhile_map {α β : Type} (g : α → β) (p : β → Bool) (l : List α) :
    (l.map g).rdropWhile p = (l.rdropWhile (p ∘ g)).map g := by
  rw [List.rdropWhile, List.rdropWhile, ← List.map_reverse, List.dropWhile_map, List.map_reverse]

namespace Frame

theorem isRule_of_mem_atRules {taken : Bool} {a : Head (List Selector)} (h : a ∈ atRules taken frames) :
    a.isRule = false := by
  induction frames generalizing taken with
  | nil => cases h
  | cons frame outer ih =>
    cases frame with
    | rule | atRoot => exact ih h
    | media q =>
      rcases List.mem_append.mp h with h | h
      · exact ih h
      · cases taken with
        | true => cases h
        | false => rw [List.mem_singleton.mp h]; rfl
    | atRule name params =>
      rcases List.mem_append.mp h with h | h
      · exact ih h
      · rw [List.mem_singleton.mp h]; rfl

theorem isMedia_of_mem_atRules {taken : Bool} {a : Head (List Selector)} (hquery : query frames = none)
    (h : a ∈ atRules taken frames) : a.isMedia = false := by
  induction frames generalizing taken with
  | nil => cases h
  | cons frame outer ih =>
    cases frame with
    | rule | atRoot => exact ih hquery h
    | media q => simp [query] at hquery
    | atRule name params =>
      rcases List.mem_append.mp h with h | h
      · exact ih hquery h
      · rw [List.mem_singleton.mp h]; rfl

/-- A `@media` that is taken over is the innermost of the at-rules around. -/
theorem atRules_true (frames : List Frame) :
    atRules true frames = (atRules false frames).rdropWhile Head.isMedia := by
  induction frames with
  | nil => rfl
  | cons frame outer ih =>
    cases frame with
    | rule | atRoot => exact ih
    | media q =>
      simp only [atRules, if_true, List.append_nil, Bool.false_eq_true, if_false]
      rw [List.rdropWhile_concat_pos _ _ _ rfl, ih, List.rdropWhile_idempotent]
    | atRule name params =>
      rw [atRules, atRules, List.rdropWhile_concat_neg _ _ _ (by simp [Head.isMedia])]

theorem rdropWhile_place {through : Head (List Selector) → Bool} (h : ∀ a, a.isRule → through a)
    {p : Head (List Selector) → Bool} (hp : ∀ a ∈ atRules false frames, through a = p a) :
    (place o frames).rdropWhile through = (atRules false frames).rdropWhile p := by
  have hdrop : (place o frames).rdropWhile through = (atRules false frames).rdropWhile through := by
    rw [place]
    split
    · exact List.rdropWhile_concat_pos _ _ _ (h _ rfl)
    · rw [List.append_nil]
  rw [hdrop]
  exact rdropWhile_congr hp

theorem rdropWhile_isRule_place : (place o frames).rdropWhile Head.isRule = atRules false frames := by
  rw [rdropWhile_place (p := fun _ => false) (fun _ h => h) fun a ha => isRule_of_mem_atRules ha]
  simp

/-- A `@media` leaves what it stands in for a place among the at-rules that it does not take over. -/
theorem rdropWhile_leftByMedia_place : (place o frames).rdropWhile
      (fun a => a.isRule || ((query frames).isSome && a.isMedia)) = atRules true frames := by
  rw [atRules_true]
  refine rdropWhile_place (fun a h => by simp [h]) fun a ha => ?_
  rw [isRule_of_mem_atRules ha, Bool.false_or]
  cases hquery : query frames with
  | none => simp [isMedia_of_mem_atRules hquery ha]
  | some => simp

end Frame

/-! ## Contexts -/

/-- What the context says about the statements around is what they say. -/
structure Context.Reads (o : Origin) (c : Context) (frames : List Frame) : Prop where
  selectors : (c.rule.map RuleContext.selectors).getD [] = nestable o.dialect (Frame.selectors o frames)
  hasRule : c.hasRule = Frame.hasRule frames
  atRoot : c.atRoot = Frame.hasAtRoot frames
  query : c.query = Frame.query frames
  inAtRule : c.inAtRule = frames.any Frame.isAtRule
  inKeyframes : c.inKeyframes = false

/-- The context points to the place that the statements around lead to, where the selectors of rules are
given by `f`. -/
structure Context.Follows (o : Origin) (f : RuleId → List Selector) (c : Context) (frames : List Frame)
    (t : Css.Tree RuleId) : Prop extends c.Reads o frames where
  heads : (t.heads c.parent).map (Head.map f) = Frame.place o frames
  plain : ∀ a ∈ t.heads c.parent, a.isKeyframes = false

theorem Context.Follows.mono (h : c.Follows o f frames t) (hc : c.Fits t) (hext : t.Extends t')
    (ht' : t'.Sound) : c.Follows o f frames t' := by
  have hheads := hext.heads_eq hc.isFlat.sound ht' hc.valid
  refine ⟨h.toReads, ?_, ?_⟩
  · rw [hheads]
    exact h.heads
  · rw [hheads]
    exact h.plain

/-- `f` gives the selectors of all rules of the store. -/
def Agrees (f : RuleId → List Selector) (store : Store) : Prop :=
  ∀ i : ℕ, i < store.rules.length → f i = store.selectors i

theorem Agrees.of_growsTo {store store' : Store} (h : Agrees f store') (hgrows : store.GrowsTo store') :
    Agrees f store :=
  fun i hi => (h i (hi.trans_le hgrows.length_le)).trans (hgrows.selectors_eq i hi)

theorem Agrees.addRule {store : Store} {selectors : List Selector} {containers : List ContainerId}
    (h : Agrees f (store.addRule selectors containers).2) : f store.rules.length = selectors := by
  rw [h _ (by simp [Store.addRule]), Store.selectors_addRule]

/-! ## Entering blocks -/

theorem map_rdropWhile_isRule (f : RuleId → List Selector) (l : List (Head RuleId)) :
    (l.rdropWhile Head.isRule).map (Head.map f) = (l.map (Head.map f)).rdropWhile Head.isRule := by
  rw [rdropWhile_map]
  congr 2
  funext a
  simp

theorem follows_enterRule (h : c.Follows o f frames s.tree) (hc : c.Fits s.tree) {selector : Text}
    {prelude : Region} {selectors : List Selector}
    (hselectors : Frame.selectors o (.rule selector prelude :: frames) = selectors)
    (hagrees : Agrees f (enterRule o c selectors s).2.store) :
    (enterRule o c selectors s).1.Follows o f (.rule selector prelude :: frames)
      (enterRule o c selectors s).2.tree := by
  have hid : f s.store.rules.length = selectors := hagrees.addRule
  have hheads : (enterRule o c selectors s).2.tree.heads (enterRule o c selectors s).1.parent =
      (s.tree.heads c.parent).rdropWhile Head.isRule ++ [.rule s.store.rules.length] :=
    (Css.Tree.entered_addBlock hc.isFlat.sound hc.valid _ _).heads
  refine ⟨⟨?_, rfl, rfl, h.query, h.inAtRule, h.inKeyframes⟩, ?_, ?_⟩
  · rw [hselectors]
    rfl
  · rw [hheads, List.map_append, map_rdropWhile_isRule, h.heads, Frame.rdropWhile_isRule_place,
      Frame.place, Frame.writtenSelectors, hselectors, ← hid]
    rfl
  · rw [hheads, List.forall_mem_append, List.forall_mem_singleton]
    exact ⟨fun a ha => h.plain a ((List.rdropWhile_prefix _ _).subset ha), rfl⟩

theorem reads_enterCopy (h : c.Reads o frames) (s : State) : (enterCopy c s).1.Reads o frames := by
  cases hrule : c.ruleInEffect with
  | none =>
    rw [enterCopy_of_none hrule]
    exact h
  | some rule =>
    rw [enterCopy_of_some hrule]
    obtain ⟨-, hsome⟩ := Context.ruleInEffect_eq_some.mp hrule
    have hselectors := h.selectors
    have hhas := h.hasRule
    rw [hsome] at hselectors
    rw [Context.hasRule, hsome] at hhas
    exact ⟨hselectors, hhas, h.atRoot, h.query, h.inAtRule, h.inKeyframes⟩

/-- In an at-rule, a copy of the style rule in effect is the place of declarations. -/
theorem follows_enterCopy (h : c.Reads o frames) (hc : c.Fits s.tree)
    (hheads : (s.tree.heads c.parent).map (Head.map f) = Frame.atRules false frames)
    (hwritten : Frame.writtenSelectors o frames = nestable o.dialect (Frame.selectors o frames))
    (hplain : ∀ a ∈ s.tree.heads c.parent, a.isKeyframes = false)
    (hagrees : Agrees f (enterCopy c s).2.store) :
    (enterCopy c s).1.Follows o f frames (enterCopy c s).2.tree := by
  have hreads := reads_enterCopy h s
  cases hrule : c.ruleInEffect with
  | none =>
    have hhas : Frame.hasRule frames = false := h.hasRule ▸ Context.ruleInEffect_eq_none.mp hrule
    rw [enterCopy_of_none hrule] at hreads ⊢
    refine ⟨hreads, ?_, hplain⟩
    rw [hheads, Frame.place, hhas, if_neg Bool.false_ne_true, List.append_nil]
  | some rule =>
    obtain ⟨hhas, hsome⟩ := Context.ruleInEffect_eq_some.mp hrule
    have hself : (s.tree.heads c.parent).rdropWhile (fun _ => false) = s.tree.heads c.parent := by simp
    have hheads' : (enterCopy c s).2.tree.heads (enterCopy c s).1.parent =
        s.tree.heads c.parent ++ [.rule s.store.rules.length] := by
      rw [enterCopy_of_some hrule, ← hself]
      exact (Css.Tree.entered_addBlock hc.isFlat.sound hc.valid _ _).heads
    have hid : f s.store.rules.length = Frame.writtenSelectors o frames := by
      rw [enterCopy_of_some hrule] at hagrees
      rw [hwritten, ← h.selectors, hsome]
      exact hagrees.addRule
    refine ⟨hreads, ?_, ?_⟩
    · rw [hheads', List.map_append, hheads, Frame.place, ← h.hasRule, hhas, if_pos rfl, ← hid]
      rfl
    · rw [hheads', List.forall_mem_append, List.forall_mem_singleton]
      exact ⟨hplain, rfl⟩

theorem follows_enterMedia (h : c.Follows o f frames s.tree) (hc : c.Fits s.tree) {query : Text}
    (hagrees : Agrees f (enterMedia c query s).2.store) :
    (enterMedia c query s).1.Follows o f (.media query :: frames) (enterMedia c query s).2.tree := by
  have hheads := heads_openMedia hc query
  have hreads : (openMedia c query s).1.Reads o (.media query :: frames) := by
    refine ⟨h.selectors, h.hasRule, h.atRoot, ?_, h.inAtRule, h.inKeyframes⟩
    rw [Frame.query, ← h.query]
    rfl
  refine follows_enterCopy hreads (hc.openMedia query).1 ?_ rfl ?_ hagrees
  · have hleft : c.leftByMedia =
        (fun a => a.isRule || ((Frame.query frames).isSome && a.isMedia)) ∘ Head.map f := by
      funext a
      simp [Context.leftByMedia, h.query]
    rw [hheads, List.map_append, hleft, ← rdropWhile_map, h.heads, Frame.rdropWhile_leftByMedia_place,
      Frame.atRules, if_neg Bool.false_ne_true, ← h.query]
    rfl
  · rw [hheads, List.forall_mem_append, List.forall_mem_singleton]
    exact ⟨fun a ha => h.plain a ((List.rdropWhile_prefix _ _).subset ha), rfl⟩

theorem follows_enterAtRule (h : c.Follows o f frames s.tree) (hc : c.Fits s.tree) {name params : Text}
    (hname : AtRule.isKeyframes name = false)
    (hagrees : Agrees f (enterAtRule c name params s).2.store) :
    (enterAtRule c name params s).1.Follows o f (.atRule name params :: frames)
      (enterAtRule c name params s).2.tree := by
  have hheads := heads_openAtRule hc name params
  have hkeyframes : (openAtRule c name params s).1.inKeyframes = false := by
    simp [openAtRule, h.inKeyframes, hname]
  have hreads : (openAtRule c name params s).1.Reads o (.atRule name params :: frames) := by
    refine ⟨h.selectors, h.hasRule, h.atRoot, h.query, ?_, hkeyframes⟩
    simp [openAtRule, hname, Frame.isAtRule]
  rw [enterAtRule, if_neg (by simp [hkeyframes])] at hagrees ⊢
  refine follows_enterCopy hreads (hc.openAtRule name params).1 ?_ rfl ?_ hagrees
  · rw [hheads, List.map_append, map_rdropWhile_isRule, h.heads, Frame.rdropWhile_isRule_place,
      Frame.atRules]
    rfl
  · rw [hheads, List.forall_mem_append, List.forall_mem_singleton]
    exact ⟨fun a ha => h.plain a ((List.rdropWhile_prefix _ _).subset ha), hname⟩

theorem follows_atRoot (h : c.Follows o f frames t) (hc : c.Fits t) :
    { c with parent := c.parent.bind (t.climb Head.isRule), atRoot := true : Context }.Follows o f
      (.atRoot :: frames) t := by
  have hheads := Css.Tree.heads_climb hc.isFlat.sound hc.valid Head.isRule
  refine ⟨⟨h.selectors, rfl, rfl, h.query, h.inAtRule, h.inKeyframes⟩, ?_, ?_⟩
  · rw [hheads, map_rdropWhile_isRule, h.heads, Frame.rdropWhile_isRule_place, Frame.place,
      Frame.hasRule, if_neg Bool.false_ne_true, List.append_nil]
    rfl
  · rw [hheads]
    exact fun a ha => h.plain a ((List.rdropWhile_prefix _ _).subset ha)

/-! ## Declarations -/

/-- The declarations of the tree outside of `@keyframes`. -/
def declarations (f : RuleId → List Selector) (t : Css.Tree RuleId) :
    List (Occurrence (List Selector)) :=
  (t.occurrences.map (Occurrence.map f)).filter Occurrence.isPlainDeclaration

/-- A block brings no declarations, and neither does a copy of the block around it. -/
theorem declarations_addBlock (hc : c.Fits t) {head : Head RuleId} (hblock : head.isBlock = true)
    (through : Head RuleId → Bool) :
    declarations f (t.addBlock head c.parent through).2 = declarations f t := by
  obtain ⟨copies, hoccurrences, hcopies⟩ :=
    (Css.Tree.entered_addBlock hc.isFlat.sound hc.valid head through).occurrences
  have hblocks : ∀ x ∈ copies, x.head.isBlock = true := by
    intro x hx
    refine hc.blocks x.head ((List.rdropWhile_prefix through _).subset ?_)
    rw [← (hcopies x hx).2]
    simp
  have hnone : (copies.map (Occurrence.map f)).filter Occurrence.isPlainDeclaration = [] := by
    rw [List.filter_eq_nil_iff]
    intro y hy
    obtain ⟨x, hx, rfl⟩ := List.mem_map.mp hy
    simp [Occurrence.isPlainDeclaration, Occurrence.map, Head.isDeclaration_of_isBlock (hblocks x hx)]
  rw [declarations, hoccurrences, List.map_append, List.map_append, List.filter_append,
    List.filter_append, hnone]
  simp [declarations, Occurrence.isPlainDeclaration, Occurrence.map,
    Head.isDeclaration_of_isBlock hblock]

theorem declarations_addLeaf (hc : c.Fits s.tree) (head : Head RuleId) :
    declarations f (s.addLeaf head c).tree = declarations f s.tree ++
      [Occurrence.map f ⟨s.tree.heads c.parent, head⟩].filter Occurrence.isPlainDeclaration := by
  have hadd := Css.Tree.occurrences_push (n := ⟨head, false, c.parent⟩) hc.isFlat.sound hc.valid
  rw [declarations, State.addLeaf]
  change List.filter _ (List.map _ (s.tree.push ⟨head, false, c.parent⟩).occurrences) = _
  rw [hadd, List.map_append, List.filter_append]
  rfl

theorem declarations_leave (hc : c.Fits s.tree) (stmt : Stmt) :
    declarations f (leave c stmt s).tree = declarations f s.tree := by
  rcases leave_tree c stmt s with h | h
  · rw [h]
  · rw [h, declarations, Css.Tree.occurrences_endGroup hc.isFlat.sound, declarations]

theorem declarations_enterCopy (hc : c.Fits s.tree) :
    declarations f (enterCopy c s).2.tree = declarations f s.tree := by
  rw [enterCopy]
  split
  · rfl
  · exact declarations_addBlock hc rfl _

theorem Enters.declarations (h : Enters o c s stmt r) (hc : c.Fits s.tree) :
    declarations f r.2.tree = declarations f s.tree := by
  cases h with
  | keyframe | rule => exact declarations_addBlock hc rfl _
  | @media query =>
    rw [enterMedia, declarations_enterCopy (hc.openMedia query).1]
    exact declarations_addBlock hc rfl _
  | @atRule name params =>
    have hopen : Flatten.declarations f (openAtRule c name params s).2.tree =
        Flatten.declarations f s.tree := declarations_addBlock hc rfl _
    rw [enterAtRule]
    split
    · exact hopen
    · rw [declarations_enterCopy (hc.openAtRule name params).1, hopen]
  | atRoot => rfl

theorem Adds.growsTo (h : Adds o c s stmt s') : s.store.GrowsTo s'.store := by
  cases h with
  | extend => exact Store.growsTo_addMarker _ _ _
  | declaration | dropped | atRule | charset | charsetBlock | ignored | comment | message =>
    exact .refl _

theorem growsTo_enterCopy (c : Context) (s : State) : s.store.GrowsTo (enterCopy c s).2.store := by
  rw [enterCopy]
  split
  · exact .refl _
  · exact Store.growsTo_addRule _ _ _

theorem Enters.growsTo (h : Enters o c s stmt r) : s.store.GrowsTo r.2.store := by
  cases h with
  | keyframe | atRoot => exact .refl _
  | rule => exact Store.growsTo_addRule _ _ _
  | @media query =>
    exact (Store.growsTo_addContainer s.store).trans
      (growsTo_enterCopy (openMedia c query s).1 (openMedia c query s).2)
  | @atRule name params =>
    have hopen : s.store.GrowsTo (openAtRule c name params s).2.store :=
      Store.growsTo_addContainer s.store
    rw [enterAtRule]
    split
    · exact hopen
    · exact hopen.trans (growsTo_enterCopy _ _)

theorem Run.growsTo (h : Run o c stmts s s') : s.store.GrowsTo s'.store := by
  induction h with
  | nil => exact .refl _
  | plain hadds _ ih => exact hadds.growsTo.trans ih
  | @block c stmt rest s s₂ s' r henters _ _ ihbody ih =>
    rw [leave_store] at ih
    exact (henters.growsTo.trans ihbody).trans ih

/-! ## Within `@keyframes` -/

theorem mem_heads_addBlock (hc : c.Fits t) {a : Head RuleId} (ha : a ∈ t.heads c.parent)
    {through : Head RuleId → Bool} (hthrough : through a = false) (head : Head RuleId) :
    a ∈ (t.addBlock head c.parent through).2.heads (some (t.addBlock head c.parent through).1) := by
  rw [(Css.Tree.entered_addBlock hc.isFlat.sound hc.valid head through).heads]
  exact List.mem_append_left _ (mem_rdropWhile ha hthrough)

theorem mem_heads_enterCopy (hc : c.Fits s.tree) {a : Head RuleId} (ha : a ∈ s.tree.heads c.parent) :
    a ∈ (enterCopy c s).2.tree.heads (enterCopy c s).1.parent := by
  rw [enterCopy]
  split
  · exact ha
  · exact mem_heads_addBlock hc ha rfl _

/-- Blocks leave only style rules and `@media` rules. -/
theorem Enters.mem_heads (h : Enters o c s stmt r) (hc : c.Fits s.tree) {a : Head RuleId}
    (ha : a ∈ s.tree.heads c.parent) (hrule : a.isRule = false) (hmedia : a.isMedia = false) :
    a ∈ r.2.tree.heads r.1.parent := by
  cases h with
  | keyframe | rule => exact mem_heads_addBlock hc ha hrule _
  | @media query =>
    refine mem_heads_enterCopy (hc.openMedia query).1 (mem_heads_addBlock hc ha ?_ _)
    simp [Context.leftByMedia, hrule, hmedia]
  | @atRule name params =>
    have hopen : a ∈ (openAtRule c name params s).2.tree.heads (openAtRule c name params s).1.parent :=
      mem_heads_addBlock hc ha hrule _
    rw [enterAtRule]
    split
    · exact hopen
    · exact mem_heads_enterCopy (hc.openAtRule name params).1 hopen
  | atRoot =>
    rw [Css.Tree.heads_climb hc.isFlat.sound hc.valid]
    exact mem_rdropWhile ha hrule

theorem Adds.declarations_of_keyframes (h : Adds o c s stmt s') (hc : c.Fits s.tree)
    (hkeyframes : ∃ a ∈ s.tree.heads c.parent, a.isKeyframes = true) :
    declarations f s'.tree = declarations f s.tree := by
  have hnone (head : Head RuleId) :
      [Occurrence.map f ⟨s.tree.heads c.parent, head⟩].filter Occurrence.isPlainDeclaration = [] := by
    simpa [Occurrence.isPlainDeclaration, Occurrence.map] using fun _ => hkeyframes
  cases h with
  | declaration | atRule | comment => rw [declarations_addLeaf hc, hnone, List.append_nil]
  | dropped | charset | charsetBlock | extend | ignored | message => rfl

theorem Run.declarations_of_keyframes (h : Run o c stmts s s') (hc : c.Fits s.tree)
    (hkeyframes : ∃ a ∈ s.tree.heads c.parent, a.isKeyframes = true) :
    declarations f s'.tree = declarations f s.tree := by
  induction h with
  | nil => rfl
  | plain hadds _ ih =>
    obtain ⟨hc₁, hext⟩ := hadds.fits hc
    rw [ih hc₁ (by rwa [hext.heads_eq hc.isFlat.sound hc₁.isFlat.sound hc.valid]),
      hadds.declarations_of_keyframes hc hkeyframes]
  | @block c stmt rest s s₂ s' r henters hbody _ ihbody ih =>
    have hr := (henters.fits hc).1
    obtain ⟨hc₂, hleave, hext⟩ := fits_leave henters hbody hc
    obtain ⟨a, ha, hname⟩ := hkeyframes
    have hrule : a.isRule = false := by cases a <;> first | rfl | cases hname
    have hmedia : a.isMedia = false := by cases a <;> first | rfl | cases hname
    have hinside := henters.mem_heads hc ha hrule hmedia
    have hbehind : a ∈ (leave c stmt s₂).tree.heads c.parent := by
      rwa [hext.heads_eq hc.isFlat.sound hleave.isFlat.sound hc.valid]
    rw [ih hleave ⟨a, hbehind, hname⟩, declarations_leave hc₂, ihbody hr ⟨a, hinside, hname⟩,
      henters.declarations hc]

/-! ## Outside of `@keyframes` -/

theorem Adds.declarations (h : Adds o c s stmt s') (hc : c.Fits s.tree)
    (hf : c.Follows o f frames s.tree) :
    Flatten.declarations f s'.tree = Flatten.declarations f s.tree ++ placement o frames stmt := by
  have hplaced : (c.hasRule || c.inAtRule || c.inKeyframes) =
      (Frame.hasRule frames || frames.any Frame.isAtRule) := by
    rw [hf.hasRule, hf.inAtRule, hf.inKeyframes, Bool.or_false]
  cases h with
  | @declaration property value _ hplace =>
    have hkept : Frame.isDropped o frames = false := by
      rw [hplaced, Bool.or_eq_true] at hplace
      rcases hplace with hrule | hat
      · simp [Frame.isDropped, hrule]
      · simp [Frame.isDropped, hat]
    have hkeep : (Occurrence.map f ⟨s.tree.heads c.parent,
        .declaration property value⟩).isPlainDeclaration = true := by
      rw [Occurrence.isPlainDeclaration, Bool.and_eq_true]
      exact ⟨rfl, by simpa [Occurrence.map] using hf.plain⟩
    rw [declarations_addLeaf hc, List.filter_cons_of_pos hkeep, List.filter_nil, placement,
      if_neg (by simp [hkept]), ← hf.heads]
    rfl
  | dropped hplace hless =>
    rw [hplaced, Bool.or_eq_false_iff] at hplace
    have hdropped : Frame.isDropped o frames = true := by
      rw [Frame.isDropped, hless, hplace.1, hplace.2]
      rfl
    rw [placement, if_pos hdropped, List.append_nil]
  | atRule | comment =>
    rw [declarations_addLeaf hc]
    rfl
  | charsetBlock hcharset =>
    rw [placement, hcharset, Bool.true_or, if_pos rfl, List.append_nil]
  | charset | extend | ignored | message => exact (List.append_nil _).symm

/-- Entering a block leads to the place of the declarations in it, unless these are in `@keyframes`. -/
theorem Enters.follows (h : Enters o c s stmt r) (hc : c.Fits s.tree) (hf : c.Follows o f frames s.tree)
    (hagrees : Agrees f r.2.store) :
    (placement o frames stmt = [] ∧ ∃ a ∈ r.2.tree.heads r.1.parent, a.isKeyframes = true) ∨
      ∃ frame, placement o frames stmt = placements o (frame :: frames) stmt.body ∧
        r.1.Follows o f (frame :: frames) r.2.tree := by
  cases h with
  | keyframe hkeyframes => simp [hf.inKeyframes] at hkeyframes
  | @rule selector prelude _ _ list _ hread =>
    refine .inr ⟨.rule selector prelude, by rw [placement]; rfl, follows_enterRule hf hc ?_ hagrees⟩
    rw [Frame.selectors, hread, hf.selectors, hf.atRoot]
    rfl
  | @media query => exact .inr ⟨.media query, by rw [placement]; rfl, follows_enterMedia hf hc hagrees⟩
  | @atRule name params _ _ hcharset =>
    rw [placement, hcharset, Bool.false_or]
    by_cases hname : AtRule.isKeyframes name = true
    · refine .inl ⟨if_pos hname, .blockAtRule name params, ?_, hname⟩
      have hinner : (openAtRule c name params s).1.inKeyframes = true := by simp [openAtRule, hname]
      rw [enterAtRule, if_pos hinner, heads_openAtRule hc]
      simp
    · rw [Bool.not_eq_true] at hname
      refine .inr ⟨.atRule name params, ?_, follows_enterAtRule hf hc hname hagrees⟩
      rw [hname, if_neg Bool.false_ne_true]
      rfl
  | atRoot => exact .inr ⟨.atRoot, by rw [placement]; rfl, follows_atRoot hf hc⟩

/-- **A run adds the declarations of its statements**, in their places. -/
theorem Run.declarations (h : Run o c stmts s s') (hc : c.Fits s.tree)
    (hf : c.Follows o f frames s.tree) (hagrees : Agrees f s'.store) :
    Flatten.declarations f s'.tree = Flatten.declarations f s.tree ++ placements o frames stmts := by
  induction h generalizing frames with
  | nil => rw [placements, List.append_nil]
  | plain hadds _ ih =>
    obtain ⟨hc₁, hext⟩ := hadds.fits hc
    rw [ih hc₁ (hf.mono hc hext hc₁.isFlat.sound) hagrees, hadds.declarations hc hf, placements,
      List.append_assoc]
  | @block c stmt rest s s₂ s' r henters hbody hrest ihbody ih =>
    have hr := (henters.fits hc).1
    obtain ⟨hc₂, hleave, hext⟩ := fits_leave henters hbody hc
    have hf' := hf.mono hc hext hleave.isFlat.sound
    -- rules keep the selectors that they were added with
    have hagrees₂ : Agrees f s₂.store := by
      have hgrows := hrest.growsTo
      rw [leave_store] at hgrows
      exact hagrees.of_growsTo hgrows
    have hinside : Flatten.declarations f s₂.tree =
        Flatten.declarations f s.tree ++ placement o frames stmt := by
      rcases henters.follows hc hf (hagrees₂.of_growsTo hbody.growsTo) with
        ⟨hnone, hkeyframes⟩ | ⟨frame, hplaces, hr'⟩
      · rw [hbody.declarations_of_keyframes hr hkeyframes, henters.declarations hc, hnone,
          List.append_nil]
      · rw [ihbody hr hr' hagrees₂, henters.declarations hc, hplaces]
    rw [ih hleave hf' hagrees, declarations_leave hc₂, hinside, placements, List.append_assoc]

theorem follows_initial (o : Origin) (f : RuleId → List Selector) :
    Context.Follows o f {} [] (State.initial o.dialect).tree where
  selectors := by cases h : o.dialect <;> simp [nestable, Frame.selectors, Selector.stripExtends]
  hasRule := rfl
  atRoot := rfl
  query := rfl
  inAtRule := rfl
  inKeyframes := rfl
  heads := rfl
  plain := by simp

/-- **Every declaration comes out once, in its place.** The output has the statements of the finished
tree, and before anything is extended the declarations among these, `@keyframes` aside, are those of the
stylesheet. -/
theorem placements_finish (h : addStmts o stmts {} (.initial o.dialect) = .ok () s) :
    Css.occurrences s.finish =
        (Css.occurrences s.tree.finish).map (Occurrence.map s.store.resolve.selectors) ∧
      (((Css.occurrences s.tree.finish).map (Occurrence.map s.store.selectors)).filter
        Occurrence.isPlainDeclaration).Perm (placements o [] stmts) := by
  have hrun := addStmts_eq_ok.mp h
  have hsound := (hrun.fits (fits_initial o.dialect)).1.isFlat.sound
  have hdeclarations := hrun.declarations (fits_initial o.dialect)
    (follows_initial o s.store.selectors) fun _ _ => rfl
  refine ⟨Css.Tree.occurrences_finish_map _ hsound, ?_⟩
  have hperm := ((Css.Tree.occurrences_finish_perm hsound).map
    (Occurrence.map s.store.selectors)).filter Occurrence.isPlainDeclaration
  exact hperm.trans (.of_eq hdeclarations)

/-- The declarations of the example: that of the inner `@media` under a copy of `.a`, and only under the
merged query. -/
theorem placements_finish_mixedSheet : ∃ s,
    addStmts (blank .scss) mixedSheet {} (.initial .scss) = .ok () s ∧
      Css.occurrences s.finish =
        (Css.occurrences s.tree.finish).map (Occurrence.map s.store.resolve.selectors) ∧
      (((Css.occurrences s.tree.finish).map (Occurrence.map s.store.selectors)).filter
        Occurrence.isPlainDeclaration).Perm
        [⟨[.rule [⟨[.className ['a']]⟩]], .declaration ['b'] ['c']⟩,
          ⟨[.media "x and y".toList, .rule [⟨[.className ['a']]⟩]], .declaration ['d'] ['e']⟩,
          ⟨[.media ['x'], .rule [⟨[.className ['a'], .space, .className ['f']]⟩]],
            .declaration ['g'] ['h']⟩,
          ⟨[.rule [⟨[.className ['a']]⟩]], .declaration ['i'] ['j']⟩] := by
  have hplaces : placements (blank .scss) [] mixedSheet =
      [⟨[.rule [⟨[.className ['a']]⟩]], .declaration ['b'] ['c']⟩,
        ⟨[.media "x and y".toList, .rule [⟨[.className ['a']]⟩]], .declaration ['d'] ['e']⟩,
        ⟨[.media ['x'], .rule [⟨[.className ['a'], .space, .className ['f']]⟩]],
          .declaration ['g'] ['h']⟩,
        ⟨[.rule [⟨[.className ['a']]⟩]], .declaration ['i'] ['j']⟩] := by
    decide +kernel
  obtain ⟨s, hs⟩ := exists_ok_mixedSheet
  exact ⟨s, hs, hplaces ▸ placements_finish hs⟩

end Flatten

end NestedCss
