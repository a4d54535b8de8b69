import Mathlib.Data.List.Basic
import Mathlib.Logic.Function.Basic
import Mathlib.Order.Nat
import NestedCss.Proofs.Extend.Filled
import NestedCss.Proofs.Flatten.Run

/-!
# The at-rules around a rule

Rules are registered with the numbers of the at-rules around them, wherever the rules end up in the output.
At-rules are numbered as they are written, so these can be read off the stylesheet, and two rules stand in a
common at-rule if and only if they share its number.

* `Scope`: the at-rules around a statement and around the style rule in effect;
* `scopes`: the at-rules around each rule of a stylesheet;
* `Run.scopes`: these are the at-rules that rules are registered with;
* **`isPrefix_iff_subset`**: one rule's at-rules begin those of another if they are among them.
-/

namespace NestedCss

namespace Flatten

open Extend (ContainerId Rule RuleId Store)

/-! ## Scopes -/

/-- What is around a statement, as far as extends are concerned. -/
structure Scope where
  /-- The at-rules around the statement, outermost first. -/
  containers : List ContainerId := []
  /-- The at-rules around the style rule in effect. -/
  rule : Option (List ContainerId) := none
  inKeyframes : Bool := false

namespace Scope

/-- The scope of what is in a style rule. Frames of `@keyframes` are not style rules. -/
def inRule (sc : Scope) : Scope := if sc.inKeyframes then sc else { sc with rule := some sc.containers }

/-- The scope of what is in an at-rule with a copy of the style rule in effect. -/
def inCopy (sc : Scope) : Scope := { sc with rule := sc.rule.map fun _ => sc.containers }

/-- The scope of what is in `@media` number `n`. -/
def inMedia (sc : Scope) (n : ContainerId) : Scope :=
  inCopy { sc with containers := sc.containers ++ [n] }

/-- The scope of what is in at-rule number `n`. -/
def inAtRule (sc : Scope) (n : ContainerId) (name : Text) : Scope :=
  let inner := { sc with
    containers := sc.containers ++ [n], inKeyframes := sc.inKeyframes || AtRule.isKeyframes name }
  if inner.inKeyframes then inner else inner.inCopy

/-- The scope of what is in an `@at-root`. -/
def inAtRoot (sc : Scope) : Scope := { sc with rule := none }

end Scope

mutual

/-- The number of at-rules with a block that are registered for a statement. -/
def countAtRules : Stmt → Nat
  | .rule _ _ _ body | .atRoot _ body => countAllAtRules body
  | .media _ _ body => countAllAtRules body + 1
  | .blockAtRule name _ _ body => if AtRule.isCharset name then 0 else countAllAtRules body + 1
  | _ => 0

def countAllAtRules : List Stmt → Nat
  | [] => 0
  | stmt :: rest => countAtRules stmt + countAllAtRules rest

end

mutual

/-- The at-rules around each rule that is registered for a statement, where the first at-rule in it has
number `n`. -/
def scopes (sc : Scope) (n : ContainerId) : Stmt → List (List ContainerId)
  | .rule _ _ _ body => (if sc.inKeyframes then [] else [sc.containers]) ++ allScopes sc.inRule n body
  | .media _ _ body => (sc.inMedia n).rule.toList ++ allScopes (sc.inMedia n) (n + 1) body
  | .blockAtRule name _ _ body =>
    if AtRule.isCharset name then []
    else
      let inner := sc.inAtRule n name
      (if inner.inKeyframes then [] else inner.rule.toList) ++ allScopes inner (n + 1) body
  | .atRoot _ body => allScopes sc.inAtRoot n body
  | _ => []

/-- The at-rules around each rule that is registered for statements. -/
def allScopes (sc : Scope) (n : ContainerId) : List Stmt → List (List ContainerId)
  | [] => []
  | stmt :: rest => scopes sc n stmt ++ allScopes sc (n + countAtRules stmt) rest

end

variable {o : Origin} {c : Context} {s s' : State} {stmt : Stmt} {stmts : List Stmt}
  {r : Context × State} {sc : Scope}

/-! ## Runs -/

/-- The at-rules around each rule of the store. -/
def State.scopes (s : State) : List (List ContainerId) := s.store.rules.map Rule.containers

/-- The context agrees with the scope. -/
structure Context.Within (c : Context) (sc : Scope) (s : State) : Prop where
  containers : c.containers = sc.containers
  inKeyframes : c.inKeyframes = sc.inKeyframes
  rule_none : c.ruleInEffect = none → sc.rule = none
  rule_some : ∀ rule, c.ruleInEffect = some rule → ∃ l, s.scopes[rule.id]? = some l ∧ sc.rule = some l

theorem Context.Within.exists_rule (h : c.Within sc s) {rule : RuleContext}
    (hrule : c.ruleInEffect = some rule) :
    ∃ a, s.store.rules[rule.id]? = some a ∧ sc.rule = some a.containers := by
  obtain ⟨l, hl, hsc⟩ := h.rule_some rule hrule
  rw [State.scopes, List.getElem?_map] at hl
  obtain ⟨a, ha, rfl⟩ := Option.map_eq_some_iff.mp hl
  exact ⟨a, ha, hsc⟩

theorem Context.Within.mono (h : c.Within sc s) (hs : s.scopes <+: s'.scopes) : c.Within sc s' := by
  refine ⟨h.containers, h.inKeyframes, h.rule_none, fun rule hrule => ?_⟩
  obtain ⟨l, hl, hsc⟩ := h.rule_some rule hrule
  obtain ⟨hlt, -⟩ := List.getElem?_eq_some_iff.mp hl
  obtain ⟨added, hadded⟩ := hs
  refine ⟨l, ?_, hsc⟩
  rw [← hadded, List.getElem?_append_left hlt, hl]

@[simp] theorem scopes_leave (c : Context) (stmt : Stmt) (s : State) :
    (leave c stmt s).scopes = s.scopes := by
  rw [State.scopes, leave_store, State.scopes]

theorem scopes_addRule (s : State) (selectors : List Selector) (containers : List ContainerId) :
    State.scopes { s with store := (s.store.addRule selectors containers).2 } = s.scopes ++ [containers] := by
  simp [State.scopes, Store.addRule, Rule.ofSelectors]

theorem scopes_addMarker (s : State) (id : RuleId) (m : Extend.Marker) :
    State.scopes { s with store := s.store.addMarker id m } = s.scopes := by
  rw [State.scopes, State.scopes]
  refine List.ext_getElem? fun i => ?_
  rw [List.getElem?_map, List.getElem?_map, Store.getElem?_addMarker]
  cases s.store.rules[i]? with
  | none => rfl
  | some r =>
    rw [Option.map_some]
    split <;> rfl

theorem within_enterRule (h : c.Within sc s) (hkeyframes : c.inKeyframes = false)
    (selectors : List Selector) :
    (enterRule o c selectors s).1.Within sc.inRule (enterRule o c selectors s).2 ∧
      (enterRule o c selectors s).2.scopes = s.scopes ++ [sc.containers] := by
  have hscopes : (enterRule o c selectors s).2.scopes = s.scopes ++ [sc.containers] := by
    rw [← h.containers]
    exact scopes_addRule s selectors c.containers
  have hsc : sc.inRule = { sc with rule := some sc.containers } := by
    rw [Scope.inRule, ← h.inKeyframes, hkeyframes]
    rfl
  rw [hsc]
  refine ⟨⟨h.containers, h.inKeyframes, ?_, ?_⟩, hscopes⟩
  · intro hnone
    cases hnone
  · rintro _ ⟨⟩
    refine ⟨sc.containers, ?_, rfl⟩
    rw [hscopes]
    simp [State.scopes]

theorem ruleInEffect_enterCopy {rule : RuleContext} (h : c.ruleInEffect = some rule) (s : State) :
    (enterCopy c s).1.ruleInEffect = some ⟨rule.selectors, s.store.rules.length⟩ := by
  have hroot : c.atRoot = false := by
    have hhas := (Context.ruleInEffect_eq_some.mp h).1
    simp only [Context.hasRule, Bool.and_eq_true, Bool.not_eq_true'] at hhas
    exact hhas.1
  rw [enterCopy_of_some h]
  simp [State.enterBlock, Context.ruleInEffect, Context.hasRule, hroot]

theorem within_enterCopy (h : c.Within sc s) :
    (enterCopy c s).1.Within sc.inCopy (enterCopy c s).2 ∧
      (enterCopy c s).2.scopes = s.scopes ++ sc.inCopy.rule.toList ∧
      (enterCopy c s).2.store.containers = s.store.containers := by
  cases hrule : c.ruleInEffect with
  | none =>
    have hnone := h.rule_none hrule
    have hsc : sc.inCopy = sc := by rw [Scope.inCopy, hnone, Option.map_none, ← hnone]
    rw [enterCopy_of_none hrule, hsc, hnone]
    exact ⟨h, (List.append_nil _).symm, rfl⟩
  | some rule =>
    obtain ⟨l, -, hsome⟩ := h.rule_some rule hrule
    have hsc : sc.inCopy = { sc with rule := some sc.containers } := by
      rw [Scope.inCopy, hsome, Option.map_some]
    have hcopy := ruleInEffect_enterCopy hrule s
    have hscopes : (enterCopy c s).2.scopes = s.scopes ++ [sc.containers] := by
      rw [enterCopy_of_some hrule, ← h.containers]
      exact scopes_addRule s rule.selectors c.containers
    have hwithin : (enterCopy c s).1.Within { sc with rule := some sc.containers } (enterCopy c s).2 := by
      constructor
      · rw [enterCopy_of_some hrule]
        exact h.containers
      · rw [enterCopy_of_some hrule]
        exact h.inKeyframes
      · simp [hcopy]
      · intro rule' hrule'
        rw [hcopy] at hrule'
        cases hrule'
        refine ⟨sc.containers, ?_, rfl⟩
        rw [hscopes]
        simp [State.scopes]
    rw [hsc]
    refine ⟨hwithin, hscopes, ?_⟩
    rw [enterCopy_of_some hrule]
    rfl

theorem within_openMedia (h : c.Within sc s) (query : Text) :
    (openMedia c query s).1.Within { sc with containers := sc.containers ++ [s.store.containers] }
      (openMedia c query s).2 := by
  refine ⟨?_, h.inKeyframes, h.rule_none, h.rule_some⟩
  rw [← h.containers]
  rfl

theorem within_enterMedia (h : c.Within sc s) (query : Text) :
    (enterMedia c query s).1.Within (sc.inMedia s.store.containers) (enterMedia c query s).2 ∧
      (enterMedia c query s).2.scopes = s.scopes ++ (sc.inMedia s.store.containers).rule.toList ∧
      (enterMedia c query s).2.store.containers = s.store.containers + 1 :=
  within_enterCopy (within_openMedia h query)

theorem within_openAtRule (h : c.Within sc s) (name params : Text) :
    (openAtRule c name params s).1.Within { sc with
      containers := sc.containers ++ [s.store.containers]
      inKeyframes := sc.inKeyframes || AtRule.isKeyframes name } (openAtRule c name params s).2 := by
  refine ⟨?_, ?_, h.rule_none, h.rule_some⟩
  · rw [← h.containers]
    rfl
  · rw [← h.inKeyframes]
    rfl

theorem within_enterAtRule (h : c.Within sc s) (name params : Text) :
    (enterAtRule c name params s).1.Within (sc.inAtRule s.store.containers name)
        (enterAtRule c name params s).2 ∧
      (enterAtRule c name params s).2.scopes = s.scopes ++
        (if (sc.inAtRule s.store.containers name).inKeyframes then []
          else (sc.inAtRule s.store.containers name).rule.toList) ∧
      (enterAtRule c name params s).2.store.containers = s.store.containers + 1 := by
  have hopen := within_openAtRule h name params
  rw [enterAtRule, Scope.inAtRule, hopen.inKeyframes]
  dsimp only
  cases hkeyframes : sc.inKeyframes || AtRule.isKeyframes name with
  | true =>
    rw [if_pos rfl, if_pos rfl, if_pos rfl]
    exact ⟨hkeyframes ▸ hopen, (List.append_nil _).symm, rfl⟩
  | false =>
    rw [if_neg Bool.false_ne_true, if_neg Bool.false_ne_true]
    exact within_enterCopy (hkeyframes ▸ hopen)

theorem within_atRoot (h : c.Within sc s) (p : Option Css.NodeId) :
    { c with parent := p, atRoot := true : Context }.Within sc.inAtRoot s := by
  refine ⟨h.containers, h.inKeyframes, fun _ => rfl, fun rule hrule => ?_⟩
  simp [Context.ruleInEffect, Context.hasRule] at hrule

theorem Adds.scopes (h : Adds o c s stmt s') (sc : Scope) (n : ContainerId) :
    s'.scopes = s.scopes ∧ s'.store.containers = s.store.containers ∧
      Flatten.scopes sc n stmt = [] ∧ countAtRules stmt = 0 := by
  cases h with
  | extend => exact ⟨scopes_addMarker s _ _, rfl, rfl, rfl⟩
  | charsetBlock hcharset => exact ⟨rfl, rfl, by rw [Flatten.scopes, if_pos hcharset],
      by rw [countAtRules, if_pos hcharset]⟩
  | declaration | dropped | atRule | charset | ignored | comment | message => exact ⟨rfl, rfl, rfl, rfl⟩

/-- What entering a block registers: maybe an at-rule, and maybe a rule within the new scope. -/
structure Opened (s : State) (sc : Scope) (stmt : Stmt) (r : Context × State) (inner : Scope)
    (added : List (List ContainerId)) : Prop where
  within : r.1.Within inner r.2
  scopes : r.2.scopes = s.scopes ++ added
  scopes_eq : Flatten.scopes sc s.store.containers stmt =
    added ++ allScopes inner r.2.store.containers stmt.body
  count_eq : s.store.containers + countAtRules stmt = r.2.store.containers + countAllAtRules stmt.body
  containers : inner.containers = sc.containers ∧ r.2.store.containers = s.store.containers ∨
    inner.containers = sc.containers ++ [s.store.containers] ∧
      r.2.store.containers = s.store.containers + 1
  added_eq : ∀ l ∈ added, l = inner.containers

theorem Scope.eq_of_mem_inCopy {l : List ContainerId} (h : l ∈ sc.inCopy.rule.toList) :
    l = sc.inCopy.containers := by
  rw [Option.mem_toList] at h
  obtain ⟨-, -, rfl⟩ := Option.map_eq_some_iff.mp h
  rfl

theorem Scope.eq_of_mem_inAtRule {n : ContainerId} {name : Text} {l : List ContainerId}
    (h : l ∈ if (sc.inAtRule n name).inKeyframes then [] else (sc.inAtRule n name).rule.toList) :
    l = (sc.inAtRule n name).containers := by
  by_cases hkeyframes : (sc.inKeyframes || AtRule.isKeyframes name) = true
  · have hinner : (sc.inAtRule n name).inKeyframes = true := by
      rw [Scope.inAtRule, if_pos hkeyframes]
      exact hkeyframes
    rw [if_pos hinner] at h
    cases h
  · have hinner : sc.inAtRule n name = inCopy { sc with
        containers := sc.containers ++ [n], inKeyframes := sc.inKeyframes || AtRule.isKeyframes name } := by
      rw [Scope.inAtRule]
      exact if_neg hkeyframes
    rw [hinner] at h ⊢
    split at h
    · next hcopy => exact absurd hcopy hkeyframes
    · exact eq_of_mem_inCopy h

theorem Enters.opened (h : Enters o c s stmt r) (hw : c.Within sc s) :
    ∃ inner added, Opened s sc stmt r inner added := by
  cases h with
  | keyframe hkeyframes =>
    rw [hw.inKeyframes] at hkeyframes
    refine ⟨sc, [], ⟨hw.containers, hw.inKeyframes, hw.rule_none, hw.rule_some⟩,
      (List.append_nil _).symm, ?_, rfl, .inl ⟨rfl, rfl⟩, by simp⟩
    rw [Flatten.scopes, if_pos hkeyframes, Scope.inRule, if_pos hkeyframes]
    rfl
  | rule hkeyframes =>
    obtain ⟨hwithin, hscopes⟩ := within_enterRule (o := o) hw hkeyframes _
    rw [hw.inKeyframes] at hkeyframes
    have hcontainers : sc.inRule.containers = sc.containers := by
      rw [Scope.inRule, if_neg (by simp [hkeyframes])]
    refine ⟨sc.inRule, [sc.containers], hwithin, hscopes, ?_, rfl, .inl ⟨hcontainers, rfl⟩, ?_⟩
    · rw [Flatten.scopes, if_neg (by simp [hkeyframes])]
      rfl
    · simp [hcontainers]
  | media =>
    obtain ⟨hwithin, hscopes, hcount⟩ := within_enterMedia hw _
    refine ⟨_, _, hwithin, hscopes, ?_, ?_, .inr ⟨rfl, hcount⟩, fun l => Scope.eq_of_mem_inCopy⟩
    · rw [hcount, Flatten.scopes]
      rfl
    · rw [hcount, countAtRules, Nat.add_right_comm]
      rfl
  | @atRule name params _ _ hcharset =>
    obtain ⟨hwithin, hscopes, hcount⟩ := within_enterAtRule hw name params
    refine ⟨_, _, hwithin, hscopes, ?_, ?_, .inr ⟨?_, hcount⟩, ?_⟩
    · rw [hcount, Flatten.scopes, if_neg (by simp [hcharset])]
      rfl
    · rw [hcount, countAtRules, if_neg (by simp [hcharset]), Nat.add_right_comm]
      rfl
    · rw [Scope.inAtRule]
      dsimp only
      split <;> rfl
    · exact fun l => Scope.eq_of_mem_inAtRule
  | atRoot =>
    exact ⟨sc.inAtRoot, [], within_atRoot hw _, (List.append_nil _).symm, rfl, rfl, .inl ⟨rfl, rfl⟩,
      by simp⟩

/-- **Rules are registered with the at-rules that are around them in the stylesheet.** -/
theorem Run.scopes (h : Run o c stmts s s') (hw : c.Within sc s) :
    s'.scopes = s.scopes ++ allScopes sc s.store.containers stmts ∧
      s'.store.containers = s.store.containers + countAllAtRules stmts := by
  induction h generalizing sc with
  | nil => exact ⟨(List.append_nil _).symm, rfl⟩
  | @plain c stmt rest s s₁ s' hadds _ ih =>
    obtain ⟨hscopes, hcontainers, hnone, hcount⟩ := hadds.scopes sc s.store.containers
    obtain ⟨ih₁, ih₂⟩ := ih (hw.mono (hscopes ▸ List.prefix_rfl))
    rw [allScopes, countAllAtRules, hnone, hcount, ih₁, ih₂, hscopes, hcontainers]
    simp
  | @block c stmt rest s s₂ s' r henters _ _ ihbody ih =>
    obtain ⟨inner, added, hopened⟩ := henters.opened hw
    obtain ⟨hbody₁, hbody₂⟩ := ihbody hopened.within
    have hscopes : s₂.scopes = s.scopes ++ Flatten.scopes sc s.store.containers stmt := by
      rw [hbody₁, hopened.scopes, hopened.scopes_eq, List.append_assoc]
    have hcount : s₂.store.containers = s.store.containers + countAtRules stmt := by
      rw [hbody₂, hopened.count_eq]
    have hprefix : s.scopes <+: (leave c stmt s₂).scopes := by
      rw [scopes_leave, hscopes]
      exact List.prefix_append _ _
    obtain ⟨ih₁, ih₂⟩ := ih (hw.mono hprefix)
    rw [leave_store, hcount] at ih₁ ih₂
    rw [ih₁, ih₂, scopes_leave, hscopes, allScopes, countAllAtRules, List.append_assoc, Nat.add_assoc]
    exact ⟨rfl, rfl⟩

/-- Behind a block the scope is what it was in front of it. -/
theorem within_leave {s₂ : State} (henters : Enters o c s stmt r) (hbody : Run o r.1 stmt.body r.2 s₂)
    (hw : c.Within sc s) : c.Within sc (leave c stmt s₂) ∧
      (leave c stmt s₂).store.containers = s.store.containers + countAtRules stmt := by
  obtain ⟨inner, added, hopened⟩ := henters.opened hw
  obtain ⟨hscopes, hcount⟩ := hbody.scopes hopened.within
  constructor
  · refine hw.mono ?_
    rw [scopes_leave, hscopes, hopened.scopes, List.append_assoc]
    exact List.prefix_append _ _
  · rw [leave_store, hcount, hopened.count_eq]

theorem within_initial (dialect : Dialect) : Context.Within {} {} (.initial dialect) :=
  ⟨rfl, rfl, fun _ => rfl, fun _ h => by simp [Context.ruleInEffect, Context.hasRule] at h⟩

/-! ## Numbers -/

/-- The numbers are below `n`, and `outer` gives for each of them those in front of it. -/
structure Numbered (outer : ContainerId → List ContainerId) (n : ContainerId) (l : List ContainerId) :
    Prop where
  lt : ∀ k ∈ l, k < n
  outer_eq : ∀ p k q, l = p ++ k :: q → outer k = p

namespace Numbered

variable {outer outer' : ContainerId → List ContainerId} {n n' : ContainerId} {l l' : List ContainerId}

theorem nil : Numbered outer n [] := ⟨by simp, by simp⟩

theorem mono (h : Numbered outer n l) (hn : n ≤ n') (houter : ∀ k < n, outer' k = outer k) :
    Numbered outer' n' l := by
  refine ⟨fun k hk => (h.lt k hk).trans_le hn, ?_⟩
  rintro p k q rfl
  rw [houter k (h.lt k (by simp)), h.outer_eq p k q rfl]

theorem concat (h : Numbered outer n l) : Numbered (Function.update outer n l) (n + 1) (l ++ [n]) := by
  constructor
  · intro k hk
    rcases List.mem_append.mp hk with hk | hk
    · exact (h.lt k hk).trans n.lt_succ_self
    · rw [List.mem_singleton.mp hk]
      exact n.lt_succ_self
  · intro p k q hl
    rcases List.eq_nil_or_concat' q with rfl | ⟨q, last, rfl⟩
    · obtain ⟨rfl, hk⟩ := List.append_inj' hl rfl
      cases hk
      exact Function.update_self ..
    · rw [← List.cons_append, ← List.append_assoc] at hl
      obtain ⟨rfl, -⟩ := List.append_inj' hl rfl
      have hk : k < n := h.lt k (by simp)
      rw [Function.update_of_ne (Nat.ne_of_lt hk), h.outer_eq p k q rfl]

/-- **Of numbered scopes one begins another** if its at-rules are among those of the other. -/
theorem isPrefix_iff_subset (h : Numbered outer n l) (h' : Numbered outer n' l') :
    l <+: l' ↔ l ⊆ l' := by
  refine ⟨List.IsPrefix.subset, fun hsub => ?_⟩
  rcases List.eq_nil_or_concat' l with rfl | ⟨p, k, rfl⟩
  · exact List.nil_prefix
  · obtain ⟨p', q', rfl⟩ := List.append_of_mem (hsub (by simp : k ∈ p ++ [k]))
    obtain rfl : p = p' := by rw [← h.outer_eq p k [] rfl, h'.outer_eq p' k q' rfl]
    exact ⟨q', (List.append_cons p k q').symm⟩

end Numbered

theorem Run.numbered (h : Run o c stmts s s') (hw : c.Within sc s)
    (outer : ContainerId → List ContainerId) (hsc : Numbered outer s.store.containers sc.containers)
    (hs : ∀ l ∈ s.scopes, Numbered outer s.store.containers l) :
    ∃ outer', (∀ k < s.store.containers, outer' k = outer k) ∧
      ∀ l ∈ s'.scopes, Numbered outer' s'.store.containers l := by
  induction h generalizing sc outer with
  | nil => exact ⟨outer, fun _ _ => rfl, hs⟩
  | @plain c stmt rest s s₁ s' hadds _ ih =>
    obtain ⟨hscopes, hcontainers, -, -⟩ := hadds.scopes sc s.store.containers
    rw [← hcontainers]
    exact ih (hw.mono (hscopes ▸ List.prefix_rfl)) outer (hcontainers ▸ hsc)
      (by rwa [hscopes, hcontainers])
  | @block c stmt rest s s₂ s' r henters hbody _ ihbody ih =>
    obtain ⟨inner, added, hopened⟩ := henters.opened hw
    obtain ⟨outer₁, houter₁, hn₁, hinner⟩ : ∃ outer₁, (∀ k < s.store.containers, outer₁ k = outer k) ∧
        s.store.containers ≤ r.2.store.containers ∧
        Numbered outer₁ r.2.store.containers inner.containers := by
      rcases hopened.containers with ⟨hinner, hcount⟩ | ⟨hinner, hcount⟩
      · exact ⟨outer, fun _ _ => rfl, hcount.ge, by rwa [hinner, hcount]⟩
      · -- the number of the at-rule is new, so what is in front of it is still free
        refine ⟨Function.update outer s.store.containers sc.containers, fun k hk => ?_, ?_, ?_⟩
        · exact Function.update_of_ne (Nat.ne_of_lt hk) ..
        · rw [hcount]
          exact Nat.le_succ _
        · rw [hinner, hcount]
          exact hsc.concat
    have hr : ∀ l ∈ r.2.scopes, Numbered outer₁ r.2.store.containers l := by
      intro l hl
      rw [hopened.scopes] at hl
      rcases List.mem_append.mp hl with hl | hl
      · exact (hs l hl).mono hn₁ houter₁
      · exact hopened.added_eq l hl ▸ hinner
    obtain ⟨outer₂, houter₂, hs₂⟩ := ihbody hopened.within outer₁ hinner hr
    have hn₂ : s.store.containers ≤ s₂.store.containers := by
      rw [(hbody.scopes hopened.within).2]
      exact hn₁.trans (Nat.le_add_right _ _)
    have houter : ∀ k < s.store.containers, outer₂ k = outer k := fun k hk =>
      (houter₂ k (hk.trans_le hn₁)).trans (houter₁ k hk)
    have hrest := ih (within_leave henters hbody hw).1 outer₂
    rw [scopes_leave, leave_store] at hrest
    obtain ⟨outer', houter', hs'⟩ := hrest (hsc.mono hn₂ houter) hs₂
    exact ⟨outer', fun k hk => (houter' k (hk.trans_le hn₂)).trans (houter k hk), hs'⟩

/-- **The at-rules around a rule begin those around another** if they are among them. -/
theorem isPrefix_iff_subset (h : Run o {} stmts (.initial o.dialect) s) {l l' : List ContainerId}
    (hl : l ∈ s.scopes) (hl' : l' ∈ s.scopes) : l <+: l' ↔ l ⊆ l' := by
  obtain ⟨outer, -, hs⟩ := h.numbered (within_initial o.dialect) (fun _ => []) .nil (by
    intro l hl
    cases hl)
  exact (hs l hl).isPrefix_iff_subset (hs l' hl')

end Flatten

end NestedCss
