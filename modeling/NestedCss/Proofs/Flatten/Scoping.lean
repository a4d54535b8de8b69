import NestedCss.Proofs.Extend.Visible
import NestedCss.Proofs.Flatten.Scope

/-!
# Extends stay in their at-rules

In LESS, what the rules within an at-rule extend does not show outside of it. Two stylesheets that differ in
extends of rules whose at-rules are not all around a place fill their stores alike, as far as can be seen
from there.

* `Silent`, `StmtsAlike`: stylesheets that differ in what cannot be seen from within given at-rules;
* `Related`: contexts and states that do;
* `StmtsAlike.run`: the runs of such stylesheets;
* **`extends_scoped`**: the selectors that a rule comes out with do not depend on what cannot be seen.
-/

namespace NestedCss

namespace Flatten

open Extend (ContainerId Rule RuleId Store StoreAlike)

/-! ## Stylesheets that look the same -/

/-- The statement says nothing that can be seen from within the at-rules `around`: it registers neither
rules nor at-rules, and if it is an extend, that of a rule which is not within these alone. -/
inductive Silent (around : List ContainerId) (sc : Scope) : Stmt → Prop
  | declaration {property value : Text} {region : Region} :
      Silent around sc (.declaration property value region)
  | plainAtRule {name params : Text} {region : Region} : Silent around sc (.plainAtRule name params region)
  | comment {text : Text} {region : Region} : Silent around sc (.comment text region)
  | message {severity : Severity} {text : Text} {region : Region} (h : severity ≠ .error) :
      Silent around sc (.message severity text region)
  | charset {name params : Text} {region : Region} {body : List Stmt} (h : AtRule.isCharset name = true) :
      Silent around sc (.blockAtRule name params region body)
  | extend {targets : Text} {region : Region} (h : ∀ l, sc.rule = some l → ¬ l ⊆ around) :
      Silent around sc (.extend .less targets region)

/-- The statements of LESS stylesheets that look the same from within the at-rules `around`. They have
the same at-rules, of which the first one has number `n`, and the same rules, but what cannot be seen may
come and go, and rules that cannot be seen may have other selectors. -/
inductive StmtsAlike (around : List ContainerId) (o' : Origin) :
    Scope → ContainerId → List Stmt → List Stmt → Prop
  | nil {sc : Scope} {n : ContainerId} : StmtsAlike around o' sc n [] []
  | left {sc : Scope} {n : ContainerId} {stmt : Stmt} {stmts stmts' : List Stmt} :
      Silent around sc stmt → StmtsAlike around o' sc n stmts stmts' →
      StmtsAlike around o' sc n (stmt :: stmts) stmts'
  | right {sc : Scope} {n : ContainerId} {stmt : Stmt} {stmts stmts' : List Stmt} :
      Silent around sc stmt → StmtsAlike around o' sc n stmts stmts' →
      StmtsAlike around o' sc n stmts (stmt :: stmts')
  | extend {sc : Scope} {n : ContainerId} {targets : Text} {region region' : Region}
      {stmts stmts' : List Stmt} : StmtsAlike around o' sc n stmts stmts' →
      StmtsAlike around o' sc n (.extend .less targets region :: stmts)
        (.extend .less targets region' :: stmts')
  | rule {sc : Scope} {n : ContainerId} {selector selector' : Text}
      {prelude prelude' region region' : Region} {body body' stmts stmts' : List Stmt}
      (h : selector' = selector ∨ ¬ sc.containers ⊆ around ∧ ∃ list,
        Selector.readList ⟨true, o'.dialect = .scss⟩
          (Source.ofSnippet selector' (o'.spanOf prelude')) = .ok list) :
      StmtsAlike around o' sc.inRule n body body' →
      StmtsAlike around o' sc (n + countAllAtRules body) stmts stmts' →
      StmtsAlike around o' sc n (.rule selector prelude region body :: stmts)
        (.rule selector' prelude' region' body' :: stmts')
  | media {sc : Scope} {n : ContainerId} {query : Text} {region region' : Region}
      {body body' stmts stmts' : List Stmt} : StmtsAlike around o' (sc.inMedia n) (n + 1) body body' →
      StmtsAlike around o' sc (n + countAllAtRules body + 1) stmts stmts' →
      StmtsAlike around o' sc n (.media query region body :: stmts) (.media query region' body' :: stmts')
  | atRule {sc : Scope} {n : ContainerId} {name params : Text} {region region' : Region}
      {body body' stmts stmts' : List Stmt} (h : AtRule.isCharset name = false) :
      StmtsAlike around o' (sc.inAtRule n name) (n + 1) body body' →
      StmtsAlike around o' sc (n + countAllAtRules body + 1) stmts stmts' →
      StmtsAlike around o' sc n (.blockAtRule name params region body :: stmts)
        (.blockAtRule name params region' body' :: stmts')
  | atRoot {sc : Scope} {n : ContainerId} {region region' : Region}
      {body body' stmts stmts' : List Stmt} : StmtsAlike around o' sc.inAtRoot n body body' →
      StmtsAlike around o' sc (n + countAllAtRules body) stmts stmts' →
      StmtsAlike around o' sc n (.atRoot region body :: stmts) (.atRoot region' body' :: stmts')

variable {around : List ContainerId} {o o' : Origin} {c c' : Context} {s s' t t' : State} {stmt : Stmt}
  {stmts stmts' : List Stmt} {r : Context × State} {sc : Scope} {n : ContainerId}

/-! ## Runs that look the same -/

/-- The contexts and states look the same from within the at-rules `around`. -/
structure Related (around : List ContainerId) (c c' : Context) (s s' : State) : Prop where
  store : StoreAlike around s.store s'.store
  containers : c'.containers = c.containers
  atRoot : c'.atRoot = c.atRoot
  inKeyframes : c'.inKeyframes = c.inKeyframes
  rule : c'.rule.map RuleContext.id = c.rule.map RuleContext.id
  visible : c.containers ⊆ around → c'.rule = c.rule

namespace Related

theorem hasRule (h : Related around c c' s s') : c'.hasRule = c.hasRule := by
  have hsome := congrArg Option.isSome h.rule
  rw [Option.isSome_map, Option.isSome_map] at hsome
  rw [Context.hasRule, Context.hasRule, h.atRoot, hsome]

theorem ruleInEffect_none (h : Related around c c' s s') (hrule : c.ruleInEffect = none) :
    c'.ruleInEffect = none := by
  rw [Context.ruleInEffect_eq_none] at hrule ⊢
  rw [h.hasRule, hrule]

theorem ruleInEffect_some (h : Related around c c' s s') {rule : RuleContext}
    (hrule : c.ruleInEffect = some rule) : ∃ rule', c'.ruleInEffect = some rule' ∧ rule'.id = rule.id ∧
      (c.containers ⊆ around → rule' = rule) := by
  obtain ⟨hhas, hsome⟩ := Context.ruleInEffect_eq_some.mp hrule
  have hid := h.rule
  rw [hsome, Option.map_some] at hid
  obtain ⟨rule', hsome', hid⟩ := Option.map_eq_some_iff.mp hid
  refine ⟨rule', Context.ruleInEffect_eq_some.mpr ⟨h.hasRule.trans hhas, hsome'⟩, hid, fun hsub => ?_⟩
  have hvisible := h.visible hsub
  rw [hsome, hsome'] at hvisible
  exact Option.some.inj hvisible

/-- What follows a block goes on from where the block was entered. -/
theorem leave (h : Related around c c' s s') (hstore : StoreAlike around t.store t'.store)
    (stmt stmt' : Stmt) :
    Related around c c' (Flatten.leave c stmt t) (Flatten.leave c' stmt' t') := by
  refine ⟨?_, h.containers, h.atRoot, h.inKeyframes, h.rule, h.visible⟩
  rwa [leave_store, leave_store]

theorem enterRule (h : Related around c c' s s') (hdialect : o'.dialect = o.dialect)
    {selectors selectors' : List Selector} (hselectors : c.containers ⊆ around → selectors' = selectors) :
    Related around (Flatten.enterRule o c selectors s).1 (Flatten.enterRule o' c' selectors' s').1
      (Flatten.enterRule o c selectors s).2 (Flatten.enterRule o' c' selectors' s').2 := by
  have hstore : (Flatten.enterRule o' c' selectors' s').2.store =
      (s'.store.addRule selectors' c.containers).2 := by
    rw [← h.containers]
    rfl
  refine ⟨?_, h.containers, rfl, h.inKeyframes, congrArg some h.store.length_eq, fun hsub => ?_⟩
  · rw [hstore]
    exact h.store.addRule hselectors
  · change some (RuleContext.mk (nestable o'.dialect selectors') s'.store.rules.length) =
      some ⟨nestable o.dialect selectors, s.store.rules.length⟩
    rw [hdialect, hselectors hsub, h.store.length_eq]

theorem enterCopy (h : Related around c c' s s') :
    Related around (Flatten.enterCopy c s).1 (Flatten.enterCopy c' s').1
      (Flatten.enterCopy c s).2 (Flatten.enterCopy c' s').2 := by
  cases hrule : c.ruleInEffect with
  | none =>
    rw [enterCopy_of_none hrule, enterCopy_of_none (h.ruleInEffect_none hrule)]
    exact h
  | some rule =>
    obtain ⟨rule', hrule', -, hvisible⟩ := h.ruleInEffect_some hrule
    rw [enterCopy_of_some hrule, enterCopy_of_some hrule', h.containers, h.store.length_eq]
    refine ⟨?_, rfl, h.atRoot, h.inKeyframes, rfl, fun hsub => ?_⟩
    · exact h.store.addRule fun hsub => by rw [hvisible hsub]
    · change some (RuleContext.mk rule'.selectors s.store.rules.length) =
        some ⟨rule.selectors, s.store.rules.length⟩
      rw [hvisible hsub]

theorem openMedia (h : Related around c c' s s') (query : Text) :
    Related around (Flatten.openMedia c query s).1 (Flatten.openMedia c' query s').1
      (Flatten.openMedia c query s).2 (Flatten.openMedia c' query s').2 := by
  refine ⟨h.store.addContainer, ?_, h.atRoot, h.inKeyframes, h.rule, fun hsub => ?_⟩
  · change c'.containers ++ [s'.store.containers] = c.containers ++ [s.store.containers]
    rw [h.containers, h.store.containers]
  · exact h.visible fun k hk => hsub (List.mem_append_left _ hk)

theorem openAtRule (h : Related around c c' s s') (name params : Text) :
    Related around (Flatten.openAtRule c name params s).1 (Flatten.openAtRule c' name params s').1
      (Flatten.openAtRule c name params s).2 (Flatten.openAtRule c' name params s').2 := by
  refine ⟨h.store.addContainer, ?_, h.atRoot, ?_, h.rule, fun hsub => ?_⟩
  · change c'.containers ++ [s'.store.containers] = c.containers ++ [s.store.containers]
    rw [h.containers, h.store.containers]
  · exact congrArg (· || AtRule.isKeyframes name) h.inKeyframes
  · exact h.visible fun k hk => hsub (List.mem_append_left _ hk)

theorem enterAtRule (h : Related around c c' s s') (name params : Text) :
    Related around (Flatten.enterAtRule c name params s).1 (Flatten.enterAtRule c' name params s').1
      (Flatten.enterAtRule c name params s).2 (Flatten.enterAtRule c' name params s').2 := by
  have hopen := h.openAtRule name params
  rw [Flatten.enterAtRule, Flatten.enterAtRule, hopen.inKeyframes]
  split
  · exact hopen
  · exact hopen.enterCopy

end Related

/-! ## What cannot be seen -/

theorem Silent.related_left (h : Silent around sc stmt) (hadds : Adds o c s stmt t)
    (hw : c.Within sc s) (hrel : Related around c c' s s') : Related around c c' t s' := by
  cases hadds with
  | @extend _ _ _ rule hrule =>
    cases h with
    | extend hhidden =>
      obtain ⟨a, ha, hsc⟩ := hw.exists_rule hrule
      exact { hrel with store := hrel.store.addMarker_left rfl ha (hhidden _ hsc) }
  | declaration | dropped | atRule | charset | charsetBlock | ignored | comment | message =>
    exact { hrel with }

/-- What cannot be seen can be added to the other stylesheet. -/
theorem Silent.exists_adds (h : Silent around sc stmt) (hless : o'.dialect = .less) (hw : c.Within sc s)
    (hrel : Related around c c' s s') : ∃ t', Adds o' c' s' stmt t' ∧ Related around c c' s t' := by
  cases h with
  | declaration =>
    cases hplace : c'.hasRule || c'.inAtRule || c'.inKeyframes with
    | true => exact ⟨_, .declaration hplace, { hrel with }⟩
    | false => exact ⟨_, .dropped hplace hless, hrel⟩
  | @plainAtRule name =>
    cases hcharset : AtRule.isCharset name with
    | true => exact ⟨_, .charset hcharset, hrel⟩
    | false => exact ⟨_, .atRule hcharset, { hrel with }⟩
  | comment => exact ⟨_, .comment, { hrel with }⟩
  | message hseverity => exact ⟨_, .message hseverity, { hrel with }⟩
  | charset hcharset => exact ⟨_, .charsetBlock hcharset, hrel⟩
  | extend hhidden =>
    cases hrule : c.ruleInEffect with
    | none => exact ⟨_, .ignored (hrel.ruleInEffect_none hrule), { hrel with }⟩
    | some rule =>
      obtain ⟨rule', hrule', hid, -⟩ := hrel.ruleInEffect_some hrule
      obtain ⟨a, ha, hsc⟩ := hw.exists_rule hrule
      refine ⟨_, .extend hrule', { hrel with store := hrel.store.addMarker_right rfl ?_ (hhidden _ hsc) }⟩
      rwa [hid]

theorem Silent.not_enters (h : Silent around sc stmt) : ¬ Enters o c s stmt r := by
  intro henters
  cases h with
  | charset hcharset =>
    cases henters with
    | atRule hname => simp [hcharset] at hname
  | declaration | plainAtRule | comment | message | extend => cases henters

/-! ## Runs -/

/-- The selectors of a snippet do not depend on where the snippet stands. -/
theorem readList_ofSnippet {allowed : Selector.Allowance} {selector : Text} {span span' : Span}
    {list : List Selector} (h : Selector.readList allowed (Source.ofSnippet selector span) = .ok list) :
    Selector.readList allowed (Source.ofSnippet selector span') = .ok list := by
  have hchars : (Source.ofSnippet selector span').chars = (Source.ofSnippet selector span).chars := rfl
  unfold Selector.readList at h ⊢
  rw [hchars]
  cases hscan : Selector.scanList allowed (Source.ofSnippet selector span).chars with
  | ok list' rest =>
    rw [hscan] at h
    exact h
  | error problem rest =>
    rw [hscan] at h
    cases h

/-- The same extend changes nothing. -/
theorem Related.exists_extend (h : Related around c c' s s') {targets : Text} {region : Region}
    (region' : Region) (hadds : Adds o c s (.extend .less targets region) t) :
    ∃ t', Adds o' c' s' (.extend .less targets region') t' ∧ Related around c c' t t' := by
  cases hadds with
  | extend hrule =>
    obtain ⟨rule', hrule', hid, -⟩ := h.ruleInEffect_some hrule
    refine ⟨_, .extend hrule', { h with store := ?_ }⟩
    rw [hid]
    exact h.store.addMarker rfl _
  | ignored hrule => exact ⟨_, .ignored (h.ruleInEffect_none hrule), { h with }⟩

theorem Related.exists_run_block (h : Related around c c' s s') {stmt' : Stmt} {s₂ : State}
    (hbody : ∃ r', Enters o' c' s' stmt' r' ∧
      ∃ t', Run o' r'.1 stmt'.body r'.2 t' ∧ StoreAlike around s₂.store t'.store)
    (hrest : ∀ s₁, Related around c c' (Flatten.leave c stmt s₂) s₁ →
      ∃ t', Run o' c' stmts' s₁ t' ∧ StoreAlike around t.store t'.store) :
    ∃ t', Run o' c' (stmt' :: stmts') s' t' ∧ StoreAlike around t.store t'.store := by
  obtain ⟨r', henters, s₂', hbody', hstore⟩ := hbody
  obtain ⟨t', hrest', hstore'⟩ := hrest _ (h.leave hstore stmt stmt')
  exact ⟨t', .block henters hbody' hrest', hstore'⟩

/-- **The runs of stylesheets that look the same** look the same, and if one of the stylesheets is accepted,
so is the other. -/
theorem StmtsAlike.run (h : StmtsAlike around o' sc n stmts stmts') (hless : o.dialect = .less)
    (hless' : o'.dialect = .less) {c c' : Context} {s s' t : State} (hrun : Run o c stmts s t)
    (hw : c.Within sc s) (hn : s.store.containers = n) (hrel : Related around c c' s s') :
    ∃ t', Run o' c' stmts' s' t' ∧ StoreAlike around t.store t'.store := by
  have hdialect : o'.dialect = o.dialect := hless'.trans hless.symm
  -- not on the run: what only the other side has makes no step of it
  induction h generalizing c c' s s' t with
  | nil =>
    cases hrun
    exact ⟨s', .nil, hrel.store⟩
  | @left sc n stmt stmts stmts' hsilent _ ih =>
    cases hrun with
    | plain hadds hrest =>
      obtain ⟨hscopes, hcontainers, -, -⟩ := hadds.scopes sc n
      exact ih hrest (hw.mono (hscopes ▸ List.prefix_rfl)) (hcontainers.trans hn)
        (hsilent.related_left hadds hw hrel)
    | block henters => exact absurd henters hsilent.not_enters
  | right hsilent _ ih =>
    obtain ⟨s₁, hadds, hrel₁⟩ := hsilent.exists_adds hless' hw hrel
    obtain ⟨t', hrest, hstore⟩ := ih hrun hw hn hrel₁
    exact ⟨t', .plain hadds hrest, hstore⟩
  | @extend sc n targets region region' stmts stmts' _ ih =>
    cases hrun with
    | plain hadds hrest =>
      obtain ⟨hscopes, hcontainers, -, -⟩ := hadds.scopes sc n
      obtain ⟨s₁, hadds', hrel₁⟩ := hrel.exists_extend region' hadds
      obtain ⟨t', hrest', hstore⟩ := ih hrest (hw.mono (hscopes ▸ List.prefix_rfl))
        (hcontainers.trans hn) hrel₁
      exact ⟨t', .plain hadds' hrest', hstore⟩
    | block henters => cases henters
  | @rule sc n selector selector' prelude prelude' region region' body body' stmts stmts' hselector _ _
      ihbody ih =>
    cases hrun with
    | plain hadds => cases hadds
    | block henters hbody hrest =>
      obtain ⟨hleave, hcount⟩ := within_leave henters hbody hw
      refine hrel.exists_run_block ?_ fun s₁ => ih hrest hleave (by rw [hcount, hn]; rfl)
      cases henters with
      | keyframe hkeyframes =>
        have hsc : sc.inRule = sc := by
          rw [Scope.inRule, ← hw.inKeyframes, if_pos hkeyframes]
        rw [hsc] at ihbody
        exact ⟨_, .keyframe (hrel.inKeyframes.trans hkeyframes),
          ihbody hbody { hw with } hn { hrel with }⟩
      | @rule _ _ _ _ list hkeyframes hread =>
        obtain ⟨list', hread', hlist⟩ : ∃ list', Selector.readList ⟨true, o'.dialect = .scss⟩
            (Source.ofSnippet selector' (o'.spanOf prelude')) = .ok list' ∧
              (c.containers ⊆ around → list' = list) := by
          rcases hselector with rfl | ⟨hhidden, list', hread'⟩
          · rw [← hdialect] at hread
            exact ⟨list, readList_ofSnippet hread, fun _ => rfl⟩
          · exact ⟨list', hread', fun hsub => absurd (hw.containers ▸ hsub) hhidden⟩
        refine ⟨_, .rule (hrel.inKeyframes.trans hkeyframes) hread', ihbody hbody
          (within_enterRule hw hkeyframes _).1 hn (hrel.enterRule hdialect fun hsub => ?_)⟩
        rw [hlist hsub, hrel.visible hsub, hrel.atRoot]
  | @media sc n query region region' body body' stmts stmts' _ _ ihbody ih =>
    cases hrun with
    | plain hadds => cases hadds
    | block henters hbody hrest =>
      obtain ⟨hleave, hcount⟩ := within_leave henters hbody hw
      refine hrel.exists_run_block ?_ fun s₁ => ih hrest hleave (by rw [hcount, hn]; rfl)
      cases henters with
      | media =>
        obtain ⟨hwithin, -, hcontainers⟩ := within_enterMedia hw query
        subst hn
        exact ⟨_, .media, ihbody hbody hwithin hcontainers (hrel.openMedia query).enterCopy⟩
  | @atRule sc n name params region region' body body' stmts stmts' hname _ _ ihbody ih =>
    cases hrun with
    | plain hadds =>
      cases hadds with
      | charsetBlock hcharset => simp [hname] at hcharset
    | block henters hbody hrest =>
      obtain ⟨hleave, hcount⟩ := within_leave henters hbody hw
      refine hrel.exists_run_block ?_ fun s₁ => ih hrest hleave ?_
      · cases henters with
        | atRule =>
          obtain ⟨hwithin, -, hcontainers⟩ := within_enterAtRule hw name params
          subst hn
          exact ⟨_, .atRule hname, ihbody hbody hwithin hcontainers (hrel.enterAtRule name params)⟩
      · rw [hcount, hn, countAtRules, if_neg (by simp [hname])]
        rfl
  | @atRoot sc n region region' body body' stmts stmts' _ _ ihbody ih =>
    cases hrun with
    | plain hadds => cases hadds
    | block henters hbody hrest =>
      obtain ⟨hleave, hcount⟩ := within_leave henters hbody hw
      refine hrel.exists_run_block ?_ fun s₁ => ih hrest hleave (by rw [hcount, hn]; rfl)
      cases henters with
      | atRoot => exact ⟨_, .atRoot, ihbody hbody (within_atRoot hw _) hn { hrel with atRoot := rfl }⟩

/-- **Extends stay in their at-rules.** Rules are registered with the at-rules around them; a request
reaches the rules within all at-rules around its own; what comes of a rule depends on its selectors and on
the requests that reach it; and it is the same in all stylesheets that look the same from where it is. -/
theorem extends_scoped (hless : o.dialect = .less)
    (h : addStmts o stmts {} (.initial o.dialect) = .ok () s) :
    s.store.rules.map Rule.containers = allScopes {} 0 stmts ∧
      (∀ (i j : RuleId) (a r : Rule), s.store.rules[i]? = some a → s.store.rules[j]? = some r →
        (∀ m ∈ a.markers, m.dialect = .less) → ∀ q ∈ a.requests .less i,
          (q.reaches r.containers ↔ a.containers ⊆ r.containers)) ∧
      (∀ (s' : Store) (i : RuleId) (r r' : Rule), s.store.rules[i]? = some r → s'.rules[i]? = some r' →
        (r'.stripped s'.dialect).entries = (r.stripped s.store.dialect).entries →
        s'.visible r'.containers = s.store.visible r.containers →
        s'.resolve.rules[i]?.map Rule.entries = s.store.resolve.rules[i]?.map Rule.entries) ∧
      ∀ (around : List ContainerId) (o' : Origin) (stmts' : List Stmt), o'.dialect = .less →
        StmtsAlike around o' {} 0 stmts stmts' →
        ∃ s', addStmts o' stmts' {} (.initial o'.dialect) = .ok () s' ∧
          ∀ (i : RuleId) (r : Rule), s.store.rules[i]? = some r → r.containers = around →
            s'.store.rules[i]? = some r ∧ s'.store.resolve.rules[i]? = s.store.resolve.rules[i]? := by
  have hrun := addStmts_eq_ok.mp h
  have hscopes := (hrun.scopes (within_initial o.dialect)).1
  refine ⟨hscopes, fun i j a r ha hr hmarkers q hq => ?_, ?_, fun around o' stmts' hless' halike => ?_⟩
  · have hmem {i : RuleId} {r : Rule} (hr : s.store.rules[i]? = some r) : r.containers ∈ s.scopes :=
      List.mem_map_of_mem (List.mem_of_getElem? hr)
    rw [Extend.Request.reaches, Rule.scope_of_mem_requests hmarkers hq, List.isPrefixOf_iff_prefix]
    exact isPrefix_iff_subset hrun (hmem ha) (hmem hr)
  · exact fun s' i r r' hr hr' => Store.entries_resolve_congr hr hr'
  · have hrel : Related around {} {} (.initial o.dialect) (.initial o'.dialect) := by
      refine ⟨?_, rfl, rfl, rfl, rfl, fun _ => rfl⟩
      rw [hless, hless']
      exact StoreAlike.empty around
    obtain ⟨s', hrun', hstore⟩ := halike.run hless hless' hrun (within_initial o.dialect) rfl hrel
    exact ⟨s', addStmts_eq_ok.mpr hrun', fun i r hr haround => hstore.rules_resolve hr haround⟩

/-- `.a { b: c; } .f { &:extend(.a); } @media x { .g:extend(.a) { .h { } } .i { } }`. -/
def scopedSheet : List Stmt :=
  let r : Region := ⟨0, 0⟩
  [.rule ".a".toList r r [.declaration ['b'] ['c'] r],
    .rule ".f".toList r r [.extend .less ".a".toList r],
    .media ['x'] r [.rule ".g:extend(.a)".toList r r [.rule ".h".toList r r []], .rule ".i".toList r r []]]

/-- `.a { b: c; } .f { &:extend(.a); } @media x { .g { .h { &:extend(.a, .f); } } .i { &:extend(.a); } }`. -/
def otherSheet : List Stmt :=
  let r : Region := ⟨0, 0⟩
  [.rule ".a".toList r r [.declaration ['b'] ['c'] r],
    .rule ".f".toList r r [.extend .less ".a".toList r],
    .media ['x'] r [.rule ".g".toList r r [.rule ".h".toList r r [.extend .less ".a, .f".toList r]],
      .rule ".i".toList r r [.extend .less ".a".toList r]]]

theorem scopedSheet_alike : StmtsAlike [] (blank .less) {} 0 scopedSheet otherSheet := by
  have hidden {l : List ContainerId} (hl : l = [0]) : ¬ l ⊆ [] := by simp [hl]
  refine .rule (.inl rfl) (.left .declaration (.right .declaration .nil))
    (.rule (.inl rfl) (.extend .nil) (.media ?_ .nil))
  refine .rule (.inr ⟨hidden rfl, [⟨[.className ['g']]⟩], by decide +kernel⟩) ?_ ?_
  · refine .rule (.inl rfl) (.right (.extend fun l hl => ?_) .nil) .nil
    cases hl
    exact hidden rfl
  · refine .rule (.inl rfl) (.right (.extend fun l hl => ?_) .nil) .nil
    cases hl
    exact hidden rfl

theorem exists_ok_scopedSheet :
    ∃ s, addStmts (blank .less) scopedSheet {} (.initial .less) = .ok () s ∧
      s.store.rules[0]? = some ⟨[⟨⟨[.className ['a']]⟩, []⟩], [], []⟩ ∧
      s.store.resolve.selectors 0 = [⟨[.className ['a']]⟩, ⟨[.className ['f']]⟩] :=
  exists_ok_of_run (by decide +kernel)

/-- The rule at the top comes out as `.a, .f` in both examples. -/
theorem extends_scoped_scopedSheet : ∃ s s',
    addStmts (blank .less) scopedSheet {} (.initial .less) = .ok () s ∧
      addStmts (blank .less) otherSheet {} (.initial .less) = .ok () s' ∧
      s.store.rules.map Rule.containers = [[], [], [0], [0], [0]] ∧
      s'.store.resolve.selectors 0 = [⟨[.className ['a']]⟩, ⟨[.className ['f']]⟩] := by
  obtain ⟨s, hs, hr, hselectors⟩ := exists_ok_scopedSheet
  obtain ⟨hscopes, -, -, hsame⟩ := extends_scoped (o := blank .less) rfl hs
  obtain ⟨s', hs', hrules⟩ := hsame [] (blank .less) otherSheet rfl scopedSheet_alike
  refine ⟨s, s', hs, hs', hscopes.trans (by decide +kernel), ?_⟩
  rw [Store.selectors, (hrules 0 _ hr rfl).2, ← Store.selectors, hselectors]

end Flatten

end NestedCss
