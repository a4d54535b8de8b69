import Mathlib.Logic.Equiv.Basic
import NestedCss.Proofs.Extend.Chain

/-!
# The order of the rules

Which of two equally short chains leads to a selector first depends on the order of the rules, and with
it which rules the selector counts as its origins. As long as shortest chains use the requests of no
rule twice, this makes no difference to what the rules hold in the end.

* `Store.Reordered`: the same rules in another order;
* `Chain.rename`: the chains of a store are those of the other, with other numbers for the rules;
* **`Store.has_resolve_reordered`**: what the order of the rules does not matter to.
-/

namespace NestedCss.Extend

variable {dialect : Dialect} {requests requests' : List Request} {id : RuleId}
  {containers : List ContainerId} {own : List Selector} {ids : List RuleId} {s s' : Store}
  {σ : Equiv.Perm RuleId} {t : Selector}

/-! ## Other numbers for the rules -/

/-- The request of a rule that has another number. -/
def Request.rename (σ : RuleId → RuleId) (q : Request) : Request :=
  { q with requester := σ q.requester }

theorem Rule.requests_rename (σ : RuleId → RuleId) (r : Rule) :
    r.requests dialect (σ id) = (r.requests dialect id).map (Request.rename σ) := by
  have htrailing : r.trailingRequests dialect (σ id) =
      (r.trailingRequests dialect id).map (Request.rename σ) := by
    cases dialect with
    | scss => rfl
    | less =>
      rw [trailingRequests, trailingRequests, List.map_flatMap]
      congr 1
      funext u
      cases u.takeExtends? with
      | none => rfl
      | some taken => simp [Request.rename]
  have hmarker (r : Rule) (m : Marker) : r.markerRequests (σ id) m =
      (r.markerRequests id m).map (Request.rename σ) := by
    rw [markerRequests, markerRequests]
    cases Target.readList m.allowsAll m.targets with
    | none => rfl
    | some targets =>
      simp only [List.map_flatMap, List.map_map]
      rfl
  rw [requests, requests, List.map_append, List.map_flatMap, htrailing]
  congr 2
  funext m
  exact hmarker _ m

theorem Chain.rename (h : Chain requests containers own ids t)
    (hrequests : ∀ q ∈ requests, q.rename σ ∈ requests') :
    Chain requests' containers own (ids.map σ) t := by
  induction h with
  | own hown => exact .own hown
  | step _ hq hreaches haccepts ih => exact ih.step (hrequests _ hq) hreaches haccepts

/-! ## The same rules in another order -/

/-- The rules of `s` stand in `s'` in another order: rule `id` is rule `σ id` there. -/
structure Store.Reordered (σ : Equiv.Perm RuleId) (s s' : Store) : Prop where
  dialect_eq : s'.dialect = s.dialect
  rules_eq (id : RuleId) : s'.rules[σ id]? = s.rules[id]?

namespace Store.Reordered

/-- It is enough to look at the rules that there are. -/
theorem of_length_eq {n : ℕ} (hdialect : s'.dialect = s.dialect) (hn : s.rules.length = n)
    (hn' : s'.rules.length = n) (hσ : ∀ i : ℕ, n ≤ i → σ i = i)
    (hrules : ∀ i < n, s'.rules[σ i]? = s.rules[i]?) : s.Reordered σ s' := by
  refine ⟨hdialect, fun i => ?_⟩
  rcases Nat.lt_or_ge i n with hi | hi
  · exact hrules i hi
  · rw [hσ i hi, List.getElem?_eq_none (by omega), List.getElem?_eq_none (by omega)]

theorem symm (h : s.Reordered σ s') : s'.Reordered σ.symm s := by
  refine ⟨h.dialect_eq.symm, fun id => ?_⟩
  rw [← h.rules_eq, Equiv.apply_symm_apply]

theorem rename_mem_requests (h : s.Reordered σ s') {q : Request} (hq : q ∈ s.requests) :
    q.rename σ ∈ s'.requests := by
  obtain ⟨i, r, hr, hq⟩ := mem_requests.mp hq
  refine mem_requests.mpr ⟨σ i, r, ?_, ?_⟩
  · rw [h.rules_eq, hr]
  · rw [h.dialect_eq, Rule.requests_rename]
    exact List.mem_map_of_mem hq

theorem chain (h : s.Reordered σ s') (hchain : Chain s.requests containers own ids t) :
    Chain s'.requests containers own (ids.map σ) t :=
  hchain.rename fun _ hq => h.rename_mem_requests hq

theorem allStrict (h : s.Reordered σ s') (hstrict : AllStrict s.requests) :
    AllStrict s'.requests :=
  fun q hq => hstrict (q.rename σ.symm) (h.symm.rename_mem_requests hq)

theorem shortest (h : s.Reordered σ s') (hshort : Shortest s.requests containers own ids t) :
    Shortest s'.requests containers own (ids.map σ) t := by
  refine ⟨h.chain hshort.chain, fun {ids' u} hchain hsame => ?_⟩
  have hle := hshort.le (h.symm.chain hchain) hsame
  rwa [List.length_map] at hle ⊢

theorem unrepeated (h : s.Reordered σ s') (honce : Unrepeated s.requests containers own t) :
    Unrepeated s'.requests containers own t :=
  fun _ _ hshort hsame => (honce _ _ (h.symm.shortest hshort) hsame).of_map _

end Store.Reordered

/-- **What the order of the rules does not matter to**, if all requests are strict: whether a rule holds
a selector to which no shortest chain uses two requests of one rule, and so all that it holds if in each
rule the selectors that extend anything extend the same targets. -/
theorem Store.has_resolve_reordered (hs : Filled dialect s) (h : s.Reordered σ s')
    (hstrict : AllStrict s.requests) {r : Rule} (hr : s.rules[id]? = some r) :
    ∃ r₁ r₂, s.resolve.rules[id]? = some r₁ ∧ s'.resolve.rules[σ id]? = some r₂ ∧
      (∀ t, Unrepeated s.requests r.containers (r.stripped dialect).selectors t → r₁.has t = r₂.has t) ∧
      (Uniform s.requests → ∀ t, r₁.has t = r₂.has t) := by
  have hr' : s'.rules[σ id]? = some r := by rw [h.rules_eq, hr]
  obtain rfl := hs.dialect_eq
  obtain ⟨r₁, hr₁⟩ : ∃ r₁, s.resolve.rules[id]? = some r₁ := ⟨_, rules_resolve hr⟩
  obtain ⟨r₂, hr₂⟩ : ∃ r₂, s'.resolve.rules[σ id]? = some r₂ := ⟨_, rules_resolve hr'⟩
  have hhas (t : Selector)
      (honce : Unrepeated s.requests r.containers (r.stripped s.dialect).selectors t) :
      r₁.has t = r₂.has t := by
    have horigins := hs.origins_stripped hr
    have hiff₁ := has_iff_chain hr hr₁ horigins hstrict honce
    rw [← h.dialect_eq] at horigins honce hiff₁
    have hiff₂ := has_iff_chain hr' hr₂ horigins (h.allStrict hstrict) (h.unrepeated honce)
    rw [Bool.eq_iff_iff, hiff₁, hiff₂]
    constructor
    · rintro ⟨ids, u, hchain, hle, hsame, hempty⟩
      exact ⟨ids.map σ, u, h.chain hchain, by rwa [List.length_map], hsame, by simpa using hempty⟩
    · rintro ⟨ids, u, hchain, hle, hsame, hempty⟩
      exact ⟨ids.map σ.symm, u, h.symm.chain hchain, by rwa [List.length_map], hsame,
        by simpa using hempty⟩
  exact ⟨r₁, r₂, hr₁, hr₂, hhas, fun huniform t => hhas t (huniform.unrepeated hstrict t)⟩

/-- The rules of `triangleStore`, the last one first. -/
def reversedTriangleStore : Store := { triangleStore with rules := triangleStore.rules.reverse }

/-- However a triangle is ordered, its first rule ends with the same selectors. -/
theorem triangleStore_has_reordered : ∃ r₁ r₂, triangleStore.resolve.rules[0]? = some r₁ ∧
    reversedTriangleStore.resolve.rules[2]? = some r₂ ∧ r₁.has ⟨[.className ['z']]⟩ ∧
    ∀ t, r₁.has t = r₂.has t := by
  have hfilled : Filled .less triangleStore :=
    ((Filled.empty.addRule [extending ['x'] ".z".toList] []).addRule
      [extending ['y'] ".x".toList] []).addRule [extending ['z'] ".y".toList] []
  have hreordered : triangleStore.Reordered (Equiv.swap 0 2) reversedTriangleStore :=
    .of_length_eq (n := 3) rfl rfl rfl
      (fun i hi => Equiv.swap_apply_of_ne_of_ne (show i ≠ 0 by omega) (show i ≠ 2 by omega))
      (by decide +kernel)
  have hstrict : AllStrict triangleStore.requests := by unfold AllStrict; decide +kernel
  have huniform : Uniform triangleStore.requests := by unfold Uniform; decide +kernel
  have hz : (triangleStore.resolve.rules[0]?.map (·.has ⟨[.className ['z']]⟩)) = some true := by
    decide +kernel
  obtain ⟨r₁, r₂, hr₁, hr₂, -, hhas⟩ := Store.has_resolve_reordered hfilled hreordered hstrict
    (show triangleStore.rules[0]? = _ from rfl)
  rw [Equiv.swap_apply_left] at hr₂
  rw [hr₁] at hz
  exact ⟨r₁, r₂, hr₁, hr₂, Option.some.inj hz, hhas huniform⟩

/-- The store of `.x { } .a:extend(.x), .b:extend(.y) { } .m:extend(.x) { } .y:extend(.a, .m) { }`. Two
chains lead from `.x` to `.y`, and the next request, which leads to `.b`, is of a rule of the first. -/
def forkedStore : Store :=
  ⟨.less, [.ofSelectors [⟨[.className ['x']]⟩] [],
    .ofSelectors [extending ['a'] ".x".toList, extending ['b'] ".y".toList] [],
    .ofSelectors [extending ['m'] ".x".toList] [],
    .ofSelectors [extending ['y'] ".a, .m".toList] []], 0⟩

/-- The store with the second and third rules of `forkedStore` in the other order. -/
def swappedForkedStore : Store :=
  ⟨.less, [.ofSelectors [⟨[.className ['x']]⟩] [],
    .ofSelectors [extending ['m'] ".x".toList] [],
    .ofSelectors [extending ['a'] ".x".toList, extending ['b'] ".y".toList] [],
    .ofSelectors [extending ['y'] ".a, .m".toList] []], 0⟩

/-- **The order of the rules does matter** where the selectors of a rule extend different targets. -/
theorem forkedStore_not_has_reordered : Filled .less forkedStore ∧ Filled .less swappedForkedStore ∧
    forkedStore.Reordered (Equiv.swap 1 2) swappedForkedStore ∧ AllStrict forkedStore.requests ∧
    forkedStore.requesters.card ≤ maxRounds ∧
    ∃ r₁ r₂, forkedStore.resolve.rules[0]? = some r₁ ∧
      swappedForkedStore.resolve.rules[Equiv.swap 1 2 0]? = some r₂ ∧
      r₁.has ⟨[.className ['b']]⟩ = false ∧ r₂.has ⟨[.className ['b']]⟩ = true := by
  have hreordered : forkedStore.Reordered (Equiv.swap 1 2) swappedForkedStore :=
    .of_length_eq (n := 4) rfl rfl rfl
      (fun i hi => Equiv.swap_apply_of_ne_of_ne (show i ≠ 1 by omega) (show i ≠ 2 by omega))
      (by decide +kernel)
  have hfirst : forkedStore.resolve.rules[0]?.map (·.has ⟨[.className ['b']]⟩) = some false := by
    decide +kernel
  have hsecond : swappedForkedStore.resolve.rules[0]?.map (·.has ⟨[.className ['b']]⟩) = some true := by
    decide +kernel
  obtain ⟨r₁, hr₁, hb₁⟩ := Option.map_eq_some_iff.mp hfirst
  obtain ⟨r₂, hr₂, hb₂⟩ := Option.map_eq_some_iff.mp hsecond
  rw [← Equiv.swap_apply_of_ne_of_ne (show (0 : RuleId) ≠ 1 by simp) (show (0 : RuleId) ≠ 2 by simp)]
    at hr₂
  refine ⟨?_, ?_, hreordered, by unfold AllStrict; decide +kernel, by decide +kernel, r₁, r₂, hr₁, hr₂,
    hb₁, hb₂⟩
  · exact (((Filled.empty.addRule [⟨[.className ['x']]⟩] []).addRule
      [extending ['a'] ".x".toList, extending ['b'] ".y".toList] []).addRule
      [extending ['m'] ".x".toList] []).addRule [extending ['y'] ".a, .m".toList] []
  · exact (((Filled.empty.addRule [⟨[.className ['x']]⟩] []).addRule
      [extending ['m'] ".x".toList] []).addRule
      [extending ['a'] ".x".toList, extending ['b'] ".y".toList] []).addRule
      [extending ['y'] ".a, .m".toList] []

end NestedCss.Extend
