import NestedCss.Proofs.Extend.Derivation
import NestedCss.Proofs.Extend.Filled
import NestedCss.Proofs.Flatten.Flat
import NestedCss.Proofs.Selector.Resolved

/-!
# The selectors of a stylesheet are resolved

A rule is registered only under resolved selectors, since those that it nests under are resolved, and
extends make resolved selectors of resolved ones. So no `&` is ever written.

* `Store.IsResolved`: all selectors of a store are resolved, which `Store.IsResolved.resolve` keeps;
* `Visits`: the states that a run goes through;
* `Visits.isResolved`: their stores are resolved;
* **`isResolved_finish`**: so are the selectors of the output.
-/

namespace NestedCss

namespace Extend

variable {s : Store} {id : RuleId} {q : Request}

/-- All selectors of all rules are resolved. -/
def Store.IsResolved (s : Store) : Prop := ∀ r ∈ s.rules, ∀ u ∈ r.selectors, u.IsResolved

theorem Rule.isResolved_stripped (dialect : Dialect) {r : Rule}
    (h : ∀ u ∈ r.selectors, u.IsResolved) : ∀ u ∈ (r.stripped dialect).selectors, u.IsResolved := by
  cases dialect with
  | scss => exact h
  | less =>
    intro u hu
    obtain ⟨e, he, rfl⟩ := List.mem_map.mp hu
    obtain ⟨e₀, he₀, rfl⟩ := List.mem_map.mp he
    exact (h _ (List.mem_map_of_mem he₀)).getD_takeExtends

/-- What a request makes of a resolved selector is resolved, or empty and not added. -/
theorem Request.Makes.isResolved {containers : List ContainerId} {d e : Entry}
    (hm : q.Makes id containers d e) (hd : d.selector.IsResolved) (hq : q.extender.IsResolved) :
    e.selector.IsResolved := by
  have hempty := hm.isEmpty
  rw [hm.selector, Request.replacement] at hempty ⊢
  cases hmode : q.target.mode with
  | strict => exact hq
  | anywhere =>
    rw [hmode] at hempty
    exact Selector.isResolved_replaceAll hd.isPlain hq.isPlain hempty

namespace Store.IsResolved

theorem empty (dialect : Dialect) : (Store.empty dialect).IsResolved :=
  fun _ hr => nomatch hr

theorem addRule (h : s.IsResolved) {selectors : List Selector} (containers : List ContainerId)
    (hselectors : ∀ u ∈ selectors, u.IsResolved) : (s.addRule selectors containers).2.IsResolved := by
  intro r hr
  rcases List.mem_append.mp hr with hr | hr
  · exact h r hr
  · rw [List.mem_singleton.mp hr]
    simpa [Rule.selectors, Rule.ofSelectors, Function.comp_def] using hselectors

theorem addMarker (h : s.IsResolved) (id : RuleId) (m : Marker) : (s.addMarker id m).IsResolved := by
  intro r hr
  obtain ⟨i, hi⟩ := List.mem_iff_getElem?.mp hr
  rw [getElem?_addMarker] at hi
  obtain ⟨r₀, hr₀, rfl⟩ := Option.map_eq_some_iff.mp hi
  have hr₀ := h r₀ (List.mem_of_getElem? hr₀)
  split <;> exact hr₀

theorem extender (h : s.IsResolved) (hq : q ∈ s.requests) : q.extender.IsResolved := by
  obtain ⟨i, r, hr, hq⟩ := Store.mem_requests.mp hq
  have hr := h r (List.mem_of_getElem? hr)
  rcases Rule.mem_requests.mp hq with hq | ⟨m, -, hq⟩
  · obtain ⟨-, u, hu, extender, targets, htake, target, -, rfl⟩ := Rule.mem_trailingRequests.mp hq
    exact (hr u hu).takeExtends htake
  · obtain ⟨targets, -, u, hu, target, -, rfl⟩ := Rule.mem_markerRequests.mp hq
    exact Rule.isResolved_stripped s.dialect hr u hu

/-- **Extending keeps all selectors resolved.** -/
theorem resolve (h : s.IsResolved) : s.resolve.IsResolved := by
  intro r' hr'
  obtain ⟨i, hi⟩ := List.mem_iff_getElem?.mp hr'
  obtain ⟨r, hr, rfl⟩ := exists_of_rules_resolve hi
  have hstart := Rule.isResolved_stripped s.dialect (h r (List.mem_of_getElem? hr))
  suffices hgrown : ∀ l, Grown s.requests i (r.stripped s.dialect).containers
      (r.stripped s.dialect).entries l → ∀ e ∈ l, e.selector.IsResolved by
    intro u hu
    obtain ⟨e, he, rfl⟩ := List.mem_map.mp hu
    exact hgrown _ ((r.stripped s.dialect).grown_growth maxRounds) e he
  intro l hl
  induction hl with
  | start => exact fun e he => hstart _ (List.mem_map_of_mem he)
  | add _ hd hq hm _ ih =>
    intro e he
    rcases List.mem_append.mp he with he | he
    · exact ih e he
    · rw [List.mem_singleton.mp he]
      exact hm.isResolved (ih _ hd) (h.extender hq)

end Store.IsResolved

end Extend

namespace Flatten

open Css (Head NodeId)
open Extend (ContainerId RuleId Store)

variable {o : Origin} {c : Context} {s s' t : State} {stmt : Stmt} {stmts : List Stmt}
  {r : Context × State}

/-! ## Statements -/

/-- The selectors that a context nests under are resolved. -/
def Context.IsResolved (c : Context) : Prop :=
  ∀ rule, c.rule = some rule → ∀ u ∈ rule.selectors, u.IsResolved

theorem isResolved_nestable {dialect : Dialect} {selectors : List Selector}
    (h : ∀ u ∈ selectors, u.IsResolved) : ∀ u ∈ nestable dialect selectors, u.IsResolved := by
  cases dialect with
  | scss => exact h
  | less =>
    intro u hu
    obtain ⟨v, hv, rfl⟩ := List.mem_map.mp hu
    exact (h v hv).getD_takeExtends

theorem isResolved_enterCopy (hc : c.IsResolved) (hs : s.store.IsResolved) :
    (enterCopy c s).1.IsResolved ∧ (enterCopy c s).2.store.IsResolved := by
  cases hrule : c.ruleInEffect with
  | none =>
    rw [enterCopy_of_none hrule]
    exact ⟨hc, hs⟩
  | some rule =>
    have hselectors := hc rule (Context.ruleInEffect_eq_some.mp hrule).2
    rw [enterCopy_of_some hrule]
    refine ⟨fun rule' hrule' => ?_, hs.addRule _ hselectors⟩
    cases hrule'
    exact hselectors

/-- **Entering a block** registers a rule only under resolved selectors. -/
theorem Enters.isResolved (h : Enters o c s stmt r) (hc : c.IsResolved) (hs : s.store.IsResolved) :
    r.1.IsResolved ∧ r.2.store.IsResolved := by
  cases h with
  | keyframe => exact ⟨hc, hs⟩
  | @rule selector prelude region body list _ hread =>
    have hselectors : ∀ u ∈ Selector.combine ((c.rule.map RuleContext.selectors).getD []) list
        (!c.atRoot), u.IsResolved := by
      unfold Selector.readList at hread
      split at hread
      · next hscan =>
        cases hread
        refine Selector.isResolved_combine (fun p hp => ?_) hscan
        cases hrule : c.rule with
        | none => simp [hrule] at hp
        | some rule =>
          rw [hrule] at hp
          exact (hc rule hrule p hp).isPlain
      · cases hread
    refine ⟨fun rule' hrule' => ?_, hs.addRule _ hselectors⟩
    cases hrule'
    exact isResolved_nestable hselectors
  | media => exact isResolved_enterCopy hc hs
  | @atRule name params region body _ =>
    have hopen : (openAtRule c name params s).1.IsResolved ∧
        (openAtRule c name params s).2.store.IsResolved := ⟨hc, hs⟩
    rw [enterAtRule]
    split
    · exact hopen
    · exact isResolved_enterCopy hopen.1 hopen.2
  | atRoot => exact ⟨hc, hs⟩

theorem Adds.isResolved (h : Adds o c s stmt s') (hs : s.store.IsResolved) : s'.store.IsResolved := by
  cases h with
  | extend => exact hs.addMarker _ _
  | _ => exact hs

/-! ## Runs -/

/-- The states that a run of the statements in context `c` goes through. -/
inductive Visits (o : Origin) : Context → List Stmt → State → State → Prop
  | here {c : Context} {stmts : List Stmt} {s : State} : Visits o c stmts s s
  | plain {c : Context} {stmt : Stmt} {rest : List Stmt} {s s₁ t : State} :
      Adds o c s stmt s₁ → Visits o c rest s₁ t → Visits o c (stmt :: rest) s t
  | inside {c : Context} {stmt : Stmt} {rest : List Stmt} {s t : State} {r : Context × State} :
      Enters o c s stmt r → Visits o r.1 stmt.body r.2 t → Visits o c (stmt :: rest) s t
  | behind {c : Context} {stmt : Stmt} {rest : List Stmt} {s s₂ t : State} {r : Context × State} :
      Enters o c s stmt r → Run o r.1 stmt.body r.2 s₂ → Visits o c rest (leave c stmt s₂) t →
      Visits o c (stmt :: rest) s t

theorem Run.visits (h : Run o c stmts s s') : Visits o c stmts s s' := by
  induction h with
  | nil => exact .here
  | plain hadds _ ih => exact .plain hadds ih
  | block henters hbody _ _ ih => exact .behind henters hbody ih

theorem Run.isResolved (h : Run o c stmts s s') (hc : c.IsResolved) (hs : s.store.IsResolved) :
    s'.store.IsResolved := by
  induction h with
  | nil => exact hs
  | plain hadds _ ih => exact ih hc (hadds.isResolved hs)
  | block henters _ _ ihbody ih =>
    obtain ⟨hr, hs'⟩ := henters.isResolved hc hs
    exact ih hc (by rw [leave_store]; exact ihbody hr hs')

/-- Whatever state a run goes through, its store is resolved. -/
theorem Visits.isResolved (h : Visits o c stmts s t) (hc : c.IsResolved) (hs : s.store.IsResolved) :
    t.store.IsResolved := by
  induction h with
  | here => exact hs
  | plain hadds _ ih => exact ih hc (hadds.isResolved hs)
  | inside henters _ ih =>
    obtain ⟨hr, hs'⟩ := henters.isResolved hc hs
    exact ih hr hs'
  | behind henters hbody _ ih =>
    obtain ⟨hr, hs'⟩ := henters.isResolved hc hs
    exact ih hc (by rw [leave_store]; exact hbody.isResolved hr hs')

/-- **All selectors are resolved**, in every state that the run of a stylesheet goes through, once all
extends are applied there, and in the output. -/
theorem isResolved_finish (h : addStmts o stmts {} (.initial o.dialect) = .ok () s) :
    Visits o {} stmts (.initial o.dialect) s ∧
      (∀ t, Visits o {} stmts (.initial o.dialect) t →
        t.store.IsResolved ∧ t.store.resolve.IsResolved) ∧
      ∀ x ∈ Css.occurrences s.finish, ∀ selectors, x.head = .rule selectors →
        ∀ u ∈ selectors, u.IsResolved := by
  have hrun := addStmts_eq_ok.mp h
  have hvisited (t : State) (ht : Visits o {} stmts (.initial o.dialect) t) :
      t.store.IsResolved ∧ t.store.resolve.IsResolved := by
    have hstore := ht.isResolved (fun _ hrule => nomatch hrule) (.empty o.dialect)
    exact ⟨hstore, hstore.resolve⟩
  refine ⟨hrun.visits, hvisited, fun x hx selectors hselectors u hu => ?_⟩
  have hsound := (hrun.fits (fits_initial o.dialect)).1.isFlat.sound
  rw [State.finish, Css.Tree.occurrences_finish_map _ hsound] at hx
  obtain ⟨⟨around, head⟩, -, rfl⟩ := List.mem_map.mp hx
  cases head with
  | rule id =>
    cases hselectors
    cases hrule : s.store.resolve.rules[id]? with
    | none => simp [Store.selectors, hrule] at hu
    | some rule =>
      rw [Store.selectors, hrule] at hu
      exact (hvisited s hrun.visits).2 rule (List.mem_of_getElem? hrule) u hu
  | _ => cases hselectors

/-- `.a { &-b:extend(.x all) { @media m { c: d; } } } .x .y { e: f; }`. -/
def referringSheet : List Stmt :=
  let r : Region := ⟨0, 0⟩
  [.rule ".a".toList r r [.rule "&-b:extend(.x all)".toList r r
      [.media ['m'] r [.declaration ['c'] ['d'] r]]],
    .rule ".x .y".toList r r [.declaration ['e'] ['f'] r]]

/-- The last rule of the example ends as `.x .y, .a-b .y`. -/
theorem isResolved_finish_referringSheet : ∃ s,
    addStmts (blank .less) referringSheet {} (.initial .less) = .ok () s ∧
      s.store.resolve.selectors 3 = [⟨[.className ['x'], .space, .className ['y']]⟩,
        ⟨[.className "a-b".toList, .space, .className ['y']]⟩] ∧
      s.store.resolve.IsResolved ∧
      ∀ x ∈ Css.occurrences s.finish, ∀ selectors, x.head = .rule selectors →
        ∀ u ∈ selectors, u.IsResolved := by
  obtain ⟨s, hs, hselectors⟩ : ∃ s,
      addStmts (blank .less) referringSheet {} (.initial .less) = .ok () s ∧
        s.store.resolve.selectors 3 = [⟨[.className ['x'], .space, .className ['y']]⟩,
          ⟨[.className "a-b".toList, .space, .className ['y']]⟩] :=
    exists_ok_of_run (by decide +kernel)
  obtain ⟨hvisits, hvisited, hwritten⟩ := isResolved_finish hs
  exact ⟨s, hs, hselectors, (hvisited s hvisits).2, hwritten⟩

end Flatten

end NestedCss
