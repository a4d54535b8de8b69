import NestedCss.Proofs.Extend.Filled
import NestedCss.Proofs.Extend.Saturation

/-!
# The order of the selectors of a rule

All rules share one worklist, but the selectors that one rule gains come in an order of its own: those
that fewer rules had a part in come first, then those made of a selector further up, then those made
by a request that was collected earlier.

* `Making`: a selector of a rule and a request, by their places;
* `Making.Adds`: the pair that brought a selector into the rule, the first that makes one like it;
* `Visited`: the state of a rule when all pairs before a certain one are behind it, kept by each pair
  (`Visited.apply`), each selector (`Visited.visit`) and each round (`Rule.visited_growth`);
* **`Store.resolve_breadthFirst`**: the order that results.
-/

namespace NestedCss.Extend

variable {requests : List Request} {id : RuleId} {containers : List ContainerId}
  {start entries more : List Entry} {d e : Entry} {i j : ℕ}

/-! ## Pairs of an entry and a request -/

/-- An entry of a rule, by its place there, and a request, by its place in the order of collection. -/
structure Making where
  source : ℕ
  request : ℕ

namespace Making

variable {m m' : Making}

/-- The order in which the pairs are tried: entry by entry and, for each, request by request. -/
def Before (m m' : Making) : Prop :=
  m.source < m'.source ∨ m.source = m'.source ∧ m.request < m'.request

theorem before_or_eq_or_before (m m' : Making) : m.Before m' ∨ m = m' ∨ m'.Before m := by
  obtain ⟨j, k⟩ := m
  obtain ⟨j', k'⟩ := m'
  simp only [Before, mk.injEq]
  omega

theorem before_next_iff {j k : ℕ} : m.Before ⟨j, k + 1⟩ ↔ m.Before ⟨j, k⟩ ∨ m = ⟨j, k⟩ := by
  obtain ⟨j', k'⟩ := m
  simp only [Before, mk.injEq]
  omega

theorem Before.source_le (h : m.Before m') : m.source ≤ m'.source := by
  simp only [Before] at h
  omega

/-- The request of the pair makes `e` of the entry of the pair. -/
def Yields (requests : List Request) (id : RuleId) (containers : List ContainerId)
    (entries : List Entry) (m : Making) (e : Entry) : Prop :=
  ∃ d q, entries[m.source]? = some d ∧ requests[m.request]? = some q ∧ q.Makes id containers d e

theorem Yields.unique {e' : Entry} (h : m.Yields requests id containers entries e)
    (h' : m.Yields requests id containers entries e') : e = e' := by
  obtain ⟨d, q, hd, hq, hmakes⟩ := h
  obtain ⟨d', q', hd', hq', hmakes'⟩ := h'
  obtain rfl := Option.some.inj (hd.symm.trans hd')
  obtain rfl := Option.some.inj (hq.symm.trans hq')
  cases e
  cases e'
  rw [Entry.mk.injEq]
  exact ⟨hmakes.selector.trans hmakes'.selector.symm, hmakes.origins.trans hmakes'.origins.symm⟩

theorem yields_append_iff (hm : m.source < entries.length) :
    m.Yields requests id containers (entries ++ more) e ↔
      m.Yields requests id containers entries e := by
  simp only [Yields, List.getElem?_append_left hm]

/-- The pair makes entry `i` of an entry before it, and no pair before makes one with the same
selector. -/
structure Adds (requests : List Request) (id : RuleId) (containers : List ContainerId)
    (entries : List Entry) (m : Making) (i : ℕ) : Prop where
  source_lt : m.source < i
  yields : ∃ e, entries[i]? = some e ∧ m.Yields requests id containers entries e
  first : ∀ (m' : Making) (e e' : Entry), m'.Before m → entries[i]? = some e →
    m'.Yields requests id containers entries e' → e'.selector.same e.selector = false

theorem Adds.lt_length (h : m.Adds requests id containers entries i) : i < entries.length := by
  obtain ⟨e, he, -⟩ := h.yields
  exact (List.getElem?_eq_some_iff.mp he).1

theorem Adds.unique (h : m.Adds requests id containers entries i)
    (h' : m'.Adds requests id containers entries i) : m = m' := by
  obtain ⟨e, he, hm⟩ := h.yields
  obtain ⟨e', he', hm'⟩ := h'.yields
  have hsame : e'.selector.same e.selector := by
    cases he.symm.trans he'
    exact Selector.same_refl _
  rcases before_or_eq_or_before m m' with hlt | heq | hlt
  · have := h'.first m e' e hlt he' hm
    rw [Selector.same_comm, hsame] at this
    cases this
  · exact heq
  · have := h.first m' e e' hlt he hm'
    rw [hsame] at this
    cases this

theorem adds_append_iff (hi : i < entries.length) :
    m.Adds requests id containers (entries ++ more) i ↔ m.Adds requests id containers entries i := by
  have he : (entries ++ more)[i]? = entries[i]? := List.getElem?_append_left hi
  constructor
  all_goals
    intro h
    have hsource := h.source_lt.trans hi
    have hyields := h.yields
    have hfirst := h.first
  · simp only [he, yields_append_iff hsource] at hyields hfirst
    exact ⟨h.source_lt, hyields, fun m' e e' hm' hei hy =>
      hfirst m' e e' hm' hei ((yields_append_iff (hm'.source_le.trans_lt hsource)).mpr hy)⟩
  · refine ⟨h.source_lt, ?_, fun m' e e' hm' hei hy => ?_⟩
    · simpa only [he, yields_append_iff hsource] using hyields
    · rw [he] at hei
      exact hfirst m' e e' hm' hei ((yields_append_iff (hm'.source_le.trans_lt hsource)).mp hy)

end Making

/-! ## One rule, pair by pair -/

/-- The entries of a rule, of which the first were there from the start, when all pairs before `bound`
were tried and no others. -/
structure Visited (requests : List Request) (id : RuleId) (containers : List ContainerId)
    (start : List Entry) (bound : Making) (entries : List Entry) : Prop where
  length_le : start.length ≤ entries.length
  adds : ∀ i, start.length ≤ i → i < entries.length →
    ∃ m : Making, m.Before bound ∧ m.Adds requests id containers entries i
  ordered : ∀ (i j : ℕ) (m m' : Making), start.length ≤ i → i < j →
    m.Adds requests id containers entries i → m'.Adds requests id containers entries j → m.Before m'
  /-- Whatever a pair makes, the rule has a selector like it. -/
  done : ∀ (m : Making) (e : Entry), m.Before bound → m.Yields requests id containers entries e →
    ∃ x ∈ entries, x.selector.same e.selector

namespace Visited

variable {k : ℕ} {q : Request} {bound : Making}

theorem zero : Visited requests id containers start ⟨0, 0⟩ start := by
  refine ⟨Nat.le_refl _, fun i hi hlt => by omega, fun i j m m' hi hij hm => ?_, fun m e hm => ?_⟩
  · have := hm.lt_length
    omega
  · simp [Making.Before] at hm

/-- A pair that makes nothing new is passed over. -/
theorem pass (h : Visited requests id containers start ⟨j, k⟩ entries)
    (hknown : ∀ e, Making.Yields requests id containers entries ⟨j, k⟩ e →
      ∃ x ∈ entries, x.selector.same e.selector) :
    Visited requests id containers start ⟨j, k + 1⟩ entries := by
  refine ⟨h.length_le, fun i hi hlt => ?_, h.ordered, fun m e hm hy => ?_⟩
  · obtain ⟨m, hm, ha⟩ := h.adds i hi hlt
    exact ⟨m, Making.before_next_iff.mpr (.inl hm), ha⟩
  · rcases Making.before_next_iff.mp hm with hm | rfl
    · exact h.done m e hm hy
    · exact hknown e hy

/-- If what a pair makes is new, it is the first pair that makes one like it. -/
theorem adds_concat (h : Visited requests id containers start bound entries)
    (hsource : bound.source < entries.length) (hy : bound.Yields requests id containers entries e)
    (hnew : ∀ x ∈ entries, x.selector.same e.selector = false) :
    bound.Adds requests id containers (entries ++ [e]) entries.length := by
  have hlast : (entries ++ [e])[entries.length]? = some e := List.getElem?_concat_length
  refine ⟨hsource, ⟨e, hlast, (Making.yields_append_iff hsource).mpr hy⟩, fun m' x e' hm' hx hy' => ?_⟩
  obtain rfl := Option.some.inj (hlast.symm.trans hx)
  -- whatever a pair before made, a selector like it stands in the rule
  obtain ⟨y, hy, hsame⟩ :=
    h.done m' e' hm' ((Making.yields_append_iff (hm'.source_le.trans_lt hsource)).mp hy')
  rw [Bool.eq_false_iff]
  intro hsame'
  exact Bool.eq_false_iff.mp (hnew y hy) (Selector.same_trans hsame hsame')

theorem add (h : Visited requests id containers start ⟨j, k⟩ entries) (hj : j < entries.length)
    (hy : Making.Yields requests id containers entries ⟨j, k⟩ e)
    (hnew : ∀ x ∈ entries, x.selector.same e.selector = false) :
    Visited requests id containers start ⟨j, k + 1⟩ (entries ++ [e]) := by
  have hadds := h.adds_concat hj hy hnew
  have hlength : (entries ++ [e]).length = entries.length + 1 := List.length_append
  refine ⟨?_, fun i hi hlt => ?_, fun i i' m m' hi hii' hm hm' => ?_, fun m e' hm hy' => ?_⟩
  · exact h.length_le.trans (hlength ▸ Nat.le_succ _)
  · rcases Nat.lt_succ_iff_lt_or_eq.mp (hlength ▸ hlt) with hlt | rfl
    · obtain ⟨m, hm, ha⟩ := h.adds i hi hlt
      exact ⟨m, Making.before_next_iff.mpr (.inl hm), (Making.adds_append_iff hlt).mpr ha⟩
    · exact ⟨⟨j, k⟩, Making.before_next_iff.mpr (.inr rfl), hadds⟩
  · have hle := hm'.lt_length
    rw [hlength] at hle
    have hlt : i < entries.length := by omega
    rw [Making.adds_append_iff hlt] at hm
    rcases Nat.lt_succ_iff_lt_or_eq.mp hle with hlt' | rfl
    · exact h.ordered i i' m m' hi hii' hm ((Making.adds_append_iff hlt').mp hm')
    · obtain ⟨m₀, hbefore, hm₀⟩ := h.adds i hi hlt
      rwa [hm.unique hm₀, hm'.unique hadds]
  · rcases Making.before_next_iff.mp hm with hm | rfl
    · obtain ⟨x, hx, hsame⟩ :=
        h.done m e' hm ((Making.yields_append_iff (hm.source_le.trans_lt hj)).mp hy')
      exact ⟨x, List.mem_append_left _ hx, hsame⟩
    · obtain rfl := hy.unique ((Making.yields_append_iff hj).mp hy')
      exact ⟨e, List.mem_append_right _ List.mem_cons_self, Selector.same_refl _⟩

theorem apply (h : Visited requests id containers start ⟨j, k⟩ entries)
    (hd : entries[j]? = some d) (hq : requests[k]? = some q) :
    Visited requests id containers start ⟨j, k + 1⟩
      (entries ++ fresh entries (offers [q] id containers d)) := by
  have hyields (e : Entry) : Making.Yields requests id containers entries ⟨j, k⟩ e ↔
      q.Makes id containers d e := by
    simp [Making.Yields, hd, hq]
  have hoffers (e : Entry) : e ∈ offers [q] id containers d ↔ q.Makes id containers d e := by
    simp [mem_offers]
  match hl : offers [q] id containers d with
  | [] =>
    rw [fresh, List.append_nil]
    refine h.pass fun e he => ?_
    rw [hyields, ← hoffers, hl] at he
    cases he
  | [e] =>
    have hmakes : q.Makes id containers d e := (hoffers e).mp (hl ▸ List.mem_cons_self)
    simp only [fresh]
    split
    · next hknown =>
      rw [List.append_nil]
      refine h.pass fun e' he' => ?_
      rw [hyields, ← hoffers, hl, List.mem_singleton] at he'
      rw [he']
      exact List.any_eq_true.mp hknown
    · next hnew =>
      exact h.add (List.getElem?_eq_some_iff.mp hd).1 ((hyields e).mpr hmakes) (by simpa using hnew)
  | _ :: _ :: _ =>
    have hlength : (offers [q] id containers d).length ≤ 1 :=
      (List.length_filterMap_le _ _).trans (List.length_filter_le _ _)
    rw [hl] at hlength
    simp at hlength

theorem next (h : Visited requests id containers start ⟨j, requests.length⟩ entries) :
    Visited requests id containers start ⟨j + 1, 0⟩ entries := by
  refine ⟨h.length_le, fun i hi hlt => ?_, h.ordered, fun m e hm hy => h.done m e ?_ hy⟩
  · obtain ⟨m, hm, ha⟩ := h.adds i hi hlt
    refine ⟨m, .inl ?_, ha⟩
    have := hm.source_le
    simp only at this ⊢
    omega
  · obtain ⟨d, q, -, hq, -⟩ := hy
    have hrequest := (List.getElem?_eq_some_iff.mp hq).1
    simp only [Making.Before] at hm ⊢
    omega

theorem visit (h : Visited requests id containers start ⟨j, 0⟩ entries)
    (hd : entries[j]? = some d) :
    Visited requests id containers start ⟨j + 1, 0⟩
      (entries ++ fresh entries (offers requests id containers d)) := by
  suffices hrest : ∀ rest k (entries : List Entry), requests.drop k = rest →
      k + rest.length = requests.length →
      Visited requests id containers start ⟨j, k⟩ entries → entries[j]? = some d →
      Visited requests id containers start ⟨j, requests.length⟩
        (entries ++ fresh entries (offers rest id containers d)) from
    (hrest requests 0 entries List.drop_zero (Nat.zero_add _) h hd).next
  intro rest
  induction rest with
  | nil =>
    intro k entries _ hk h hd
    rw [List.length_nil, Nat.add_zero] at hk
    rw [← hk]
    simpa [offers, fresh] using h
  | cons q rest ih =>
    intro k entries hdrop hk h hd
    have hq : requests[k]? = some q := by
      rw [← List.head?_drop, hdrop, List.head?_cons]
    have hdrop' : requests.drop (k + 1) = rest := by
      rw [← List.tail_drop, hdrop, List.tail_cons]
    have hoffers : offers (q :: rest) id containers d =
        offers [q] id containers d ++ offers rest id containers d := by
      simp only [offers, ← List.filterMap_append, ← List.filter_append, List.singleton_append]
    rw [hoffers, fresh_append, ← List.append_assoc]
    refine ih (k + 1) _ hdrop' ?_ (h.apply hd hq) ?_
    · rw [← hk, List.length_cons]
      omega
    · rw [List.getElem?_append_left (List.getElem?_eq_some_iff.mp hd).1, hd]

/-- All requests are applied to entries that stand one after the other. -/
theorem visitAll {latest : List Entry} (h : Visited requests id containers start ⟨j, 0⟩ entries)
    (hlatest : latest <+: entries.drop j) :
    Visited requests id containers start ⟨j + latest.length, 0⟩
      (entries ++ fresh entries (latest.flatMap (offers requests id containers))) := by
  induction latest generalizing j entries with
  | nil => simpa [fresh] using h
  | cons d latest ih =>
    obtain ⟨rest, hrest⟩ := hlatest
    rw [List.cons_append] at hrest
    have hd : entries[j]? = some d := by
      rw [← List.head?_drop, ← hrest, List.head?_cons]
    have hj := (List.getElem?_eq_some_iff.mp hd).1
    have hlatest' : latest <+: (entries ++ fresh entries (offers requests id containers d)).drop
        (j + 1) := by
      rw [List.drop_append_of_le_length (by omega), ← List.tail_drop, ← hrest, List.tail_cons,
        List.append_assoc]
      exact List.prefix_append _ _
    rw [List.flatMap_cons, fresh_append, ← List.append_assoc, List.length_cons,
      show j + (latest.length + 1) = j + 1 + latest.length by omega]
    exact ih (h.visit hd) hlatest'

end Visited

/-- Before each round, all pairs of an entry that is not one of the latest are behind the rule. -/
theorem Rule.visited_growth (r : Rule) (n : ℕ) :
    ∃ earlier, (r.growth requests id n).entries = earlier ++ (r.growth requests id n).latest ∧
      Visited requests id r.containers r.entries ⟨earlier.length, 0⟩
        (r.growth requests id n).entries := by
  induction n with
  | zero => exact ⟨[], rfl, .zero⟩
  | succ n ih =>
    obtain ⟨earlier, heq, h⟩ := ih
    refine ⟨(r.growth requests id n).entries, by rw [growth_succ]; rfl, ?_⟩
    have hlatest : (r.growth requests id n).latest <+:
        (r.growth requests id n).entries.drop earlier.length := by
      rw [heq, List.drop_left]
    have hround := h.visitAll hlatest
    rw [← List.length_append, ← heq] at hround
    rw [growth_succ]
    exact hround

/-! ## The order -/

/-- The rules that had a part in an entry, counted once each. -/
def Entry.generation (e : Entry) : ℕ := e.origins.toFinset.card

theorem Request.Makes.generation {q : Request} (h : q.Makes id containers d e) :
    e.generation = d.generation + 1 := by
  rw [Entry.generation, Entry.generation, h.origins, List.toFinset_cons, Finset.card_insert_of_notMem]
  rw [List.mem_toFinset]
  exact h.requester

theorem Making.Adds.exists_source {m : Making} (h : m.Adds requests id containers entries i)
    (he : entries[i]? = some e) :
    ∃ d, entries[m.source]? = some d ∧ e.generation = d.generation + 1 := by
  obtain ⟨e', he', d, q, hd, -, hmakes⟩ := h.yields
  obtain rfl := Option.some.inj (he.symm.trans he')
  exact ⟨d, hd, hmakes.generation⟩

/-- The entries of a rule stand in breadth-first order, from the author's `start` on. -/
structure BreadthFirst (requests : List Request) (id : RuleId) (containers : List ContainerId)
    (start entries : List Entry) : Prop where
  isPrefix : start <+: entries
  /-- Every entry that is not the author's was added by one pair. -/
  exists_adds : ∀ i, start.length ≤ i → i < entries.length →
    ∃! m : Making, m.Adds requests id containers entries i
  /-- One more rule had a part in it than in the entry that it was made of. -/
  generation_source : ∀ (i : ℕ) (m : Making) (d e : Entry), start.length ≤ i →
    m.Adds requests id containers entries i → entries[m.source]? = some d → entries[i]? = some e →
    e.generation = d.generation + 1
  generation_mono : ∀ (i j : ℕ) (d e : Entry), i ≤ j → entries[i]? = some d → entries[j]? = some e →
    d.generation ≤ e.generation
  /-- The entries that are not the author's stand in the order of the pairs that added them. -/
  ordered : ∀ (i j : ℕ) (m m' : Making), start.length ≤ i → i < j →
    m.Adds requests id containers entries i → m'.Adds requests id containers entries j → m.Before m'

theorem Visited.generation_mono {bound : Making}
    (h : Visited requests id containers start bound entries)
    (hstart : ∀ i d, i < start.length → entries[i]? = some d → d.generation = 0) (hij : i ≤ j)
    (hd : entries[i]? = some d) (he : entries[j]? = some e) : d.generation ≤ e.generation := by
  -- by induction on the later entry: if both were added, so were their sources, in this order
  induction j using Nat.strong_induction_on generalizing i d e with
  | _ j ih =>
    by_cases hi : i < start.length
    · rw [hstart i d hi hd]
      exact Nat.zero_le _
    · rcases Nat.lt_or_eq_of_le hij with hlt | rfl
      · obtain ⟨m, -, hm⟩ := h.adds i (by omega) (List.getElem?_eq_some_iff.mp hd).1
        obtain ⟨m', -, hm'⟩ := h.adds j (by omega) (List.getElem?_eq_some_iff.mp he).1
        obtain ⟨a, ha, hgeneration⟩ := hm.exists_source hd
        obtain ⟨a', ha', hgeneration'⟩ := hm'.exists_source he
        have hsources := (h.ordered i j m m' (by omega) hlt hm hm').source_le
        rw [hgeneration, hgeneration']
        exact Nat.succ_le_succ (ih m'.source hm'.source_lt hsources ha ha')
      · exact (Option.some.inj (hd.symm.trans he) ▸ Nat.le_refl _)

theorem Visited.breadthFirst {bound : Making}
    (h : Visited requests id containers start bound entries) (hfront : start <+: entries)
    (hstart : ∀ d ∈ start, d.generation = 0) :
    BreadthFirst requests id containers start entries where
  isPrefix := hfront
  exists_adds i hi hlt := by
    obtain ⟨m, -, hm⟩ := h.adds i hi hlt
    exact ⟨m, hm, fun m' hm' => hm'.unique hm⟩
  generation_source i m d e _ hm hd he := by
    obtain ⟨a, ha, hgeneration⟩ := hm.exists_source he
    obtain rfl := Option.some.inj (hd.symm.trans ha)
    exact hgeneration
  generation_mono i j d e hij hd he := by
    refine h.generation_mono (fun i d hi hd => ?_) hij hd he
    obtain ⟨more, rfl⟩ := hfront
    rw [List.getElem?_append_left hi] at hd
    exact hstart d (List.mem_of_getElem? hd)
  ordered := h.ordered

/-- **The selectors of a rule stand in breadth-first order**, whatever other rules there are, when
extends are applied to selectors that are all the author's. -/
theorem Store.resolve_breadthFirst {s : Store} {r : Rule} (hr : s.rules[id]? = some r)
    (hauthor : ∀ e ∈ r.entries, e.origins = []) :
    ∃ r', s.resolve.rules[id]? = some r' ∧
      BreadthFirst s.requests id r.containers (r.stripped s.dialect).entries r'.entries := by
  refine ⟨_, rules_resolve hr, ?_⟩
  have hgrown : Grown s.requests id _ _ _ := (r.stripped s.dialect).grown_growth maxRounds
  obtain ⟨earlier, -, h⟩ : ∃ earlier, _ ∧ Visited s.requests id _ _ _ _ :=
    (r.stripped s.dialect).visited_growth maxRounds
  rw [Rule.containers_stripped] at h
  refine h.breadthFirst hgrown.isPrefix fun e he => ?_
  rw [Entry.generation, r.origins_stripped hauthor s.dialect e he]
  rfl

/-- The store of `.x { } .c:extend(.a) { } .a:extend(.x) { } .b:extend(.x) { }`. -/
def tieredStore : Store :=
  ⟨.less, [.ofSelectors [⟨[.className ['x']]⟩] [], .ofSelectors [extending ['c'] ".a".toList] [],
    .ofSelectors [extending ['a'] ".x".toList] [], .ofSelectors [extending ['b'] ".x".toList] []], 0⟩

/-- The first rule ends as `.x, .a, .b, .c`: the request for `.c` was collected first, but two rules
had a part in `.c`. -/
theorem tieredStore_breadthFirst : ∃ r r', tieredStore.rules[0]? = some r ∧
    (∀ e ∈ r.entries, e.origins = []) ∧ tieredStore.resolve.rules[0]? = some r' ∧
    r'.selectors = [⟨[.className ['x']]⟩, ⟨[.className ['a']]⟩, ⟨[.className ['b']]⟩,
      ⟨[.className ['c']]⟩] ∧
    r'.entries.map Entry.generation = [0, 1, 1, 2] ∧
    BreadthFirst tieredStore.requests 0 r.containers (r.stripped .less).entries r'.entries := by
  obtain ⟨r, hr⟩ : ∃ r, tieredStore.rules[0]? = some r := ⟨_, rfl⟩
  have hauthor : ∀ e ∈ r.entries, e.origins = [] := by
    cases hr
    exact List.forall_mem_singleton.mpr rfl
  obtain ⟨r', hr', horder⟩ := Store.resolve_breadthFirst hr hauthor
  have hselectors : tieredStore.resolve.rules[0]?.map Rule.selectors = some [⟨[.className ['x']]⟩,
      ⟨[.className ['a']]⟩, ⟨[.className ['b']]⟩, ⟨[.className ['c']]⟩] := by decide +kernel
  have hgenerations : tieredStore.resolve.rules[0]?.map (·.entries.map Entry.generation) =
      some [0, 1, 1, 2] := by decide +kernel
  rw [hr'] at hselectors hgenerations
  exact ⟨r, r', hr, hauthor, hr', Option.some.inj hselectors, Option.some.inj hgenerations, horder⟩

end NestedCss.Extend
