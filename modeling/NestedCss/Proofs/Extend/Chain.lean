import Mathlib.Data.Nat.Find
import NestedCss.Proofs.Extend.Filled
import NestedCss.Proofs.Extend.Saturation

/-!
# Chains of extends

A selector gets into a rule along a chain of requests that starts at a selector of the rule's author.
As long as all requests are strict, a rule holds every selector that a shortest chain leads to, unless
such a chain uses two requests of one rule: then the guard on origins may break it.

* `Chain`: a chain of requests, with the rules whose requests they are;
* `Grown.chain`: what a rule holds is at the end of a chain;
* `Shortest`: a chain that no other one to the same selector falls short of;
* **`Rule.exists_same_of_shortest`**: what a rule is bound to hold;
* `Store.has_iff_chain`: what a rule holds in the end.
-/

namespace NestedCss.Extend

variable {requests : List Request} {id : RuleId} {containers : List ContainerId}
  {own : List Selector} {ids : List RuleId} {s t : Selector}

/-- From a selector in `own`, a chain of requests that reach a rule within the given at-rules leads to
`s`. The requests are those of the rules `ids`, the last one first. -/
inductive Chain (requests : List Request) (containers : List ContainerId) (own : List Selector) :
    List RuleId → Selector → Prop
  | own {s : Selector} : s ∈ own → Chain requests containers own [] s
  | step {ids : List RuleId} {s : Selector} {q : Request} : Chain requests containers own ids s →
      q ∈ requests → q.reaches containers → q.target.accepts s →
      Chain requests containers own (q.requester :: ids) q.extender

/-- A rule has its place in a chain: a request of that rule, applied to what a shorter chain leads
to. -/
theorem Chain.exists_of_mem (h : Chain requests containers own ids s) {i : RuleId} (hi : i ∈ ids) :
    ∃ ids' s', Chain requests containers own ids' s' ∧ ids'.length < ids.length ∧
      ∃ q ∈ requests, q.requester = i ∧ q.reaches containers ∧ q.target.accepts s' := by
  induction h with
  | own _ => cases hi
  | @step ids s q hchain hq hreaches haccepts ih =>
    rcases List.mem_cons.mp hi with rfl | hi
    · exact ⟨ids, s, hchain, Nat.lt_succ_self _, q, hq, rfl, hreaches, haccepts⟩
    · obtain ⟨ids', s', hchain', hlt, hq'⟩ := ih hi
      exact ⟨ids', s', hchain', Nat.lt_succ_of_lt hlt, hq'⟩

/-! ## What a rule holds is at the end of a chain -/

/-- The requests replace whole selectors. -/
def AllStrict (requests : List Request) : Prop := ∀ q ∈ requests, q.target.mode = .strict

theorem accepts_iff_of_strict {q : Request} (hq : q.target.mode = .strict) :
    q.target.accepts s ↔ s.same q.target.selector := by
  rw [Target.accepts, hq]

theorem accepts_of_same {q : Request} (hq : q.target.mode = .strict) (hsame : s.same t)
    (h : q.target.accepts t) : q.target.accepts s := by
  rw [accepts_iff_of_strict hq] at h ⊢
  exact Selector.same_trans hsame h

theorem replacement_of_strict {q : Request} (hq : q.target.mode = .strict) (s : Selector) :
    q.replacement s = q.extender := by
  rw [Request.replacement, hq]

/-- The origins of an entry are the rules along a chain to its selector. -/
theorem Grown.chain (hstrict : AllStrict requests) {start l : List Entry}
    (hstart : ∀ e ∈ start, e.origins = [])
    (h : Grown requests id containers start l) :
    ∀ e ∈ l, Chain requests containers (start.map Entry.selector) e.origins e.selector := by
  induction h with
  | start =>
    intro e he
    rw [hstart e he]
    exact .own (List.mem_map_of_mem he)
  | add _ hd hq hm _ ih =>
    intro x hx
    rcases List.mem_append.mp hx with hx | hx
    · exact ih x hx
    · obtain rfl := List.mem_singleton.mp hx
      rw [hm.origins, hm.selector, replacement_of_strict (hstrict _ hq)]
      exact .step (ih _ hd) hq hm.reaches hm.accepts

namespace Rule

theorem length_origins_of_mem_latest {r : Rule} (hr : ∀ e ∈ r.entries, e.origins = []) (n : ℕ) :
    ∀ e ∈ (r.growth requests id n).latest, e.origins.length = n := by
  induction n with
  | zero =>
    intro e he
    rw [hr e he, List.length_nil]
  | succ n ih =>
    intro e he
    rw [growth_succ] at he
    obtain ⟨d, hd, hmade⟩ := List.mem_flatMap.mp (mem_of_mem_fresh he)
    obtain ⟨q, -, hm⟩ := mem_offers.mp hmade
    rw [hm.origins, List.length_cons, ih d hd]

/-- After `n` rounds no entry has more than `n` origins, and those with so many are the latest. -/
theorem mem_latest_or_length_origins_lt {r : Rule} (hr : ∀ e ∈ r.entries, e.origins = []) (n : ℕ) :
    ∀ e ∈ (r.growth requests id n).entries,
      e ∈ (r.growth requests id n).latest ∨ e.origins.length < n := by
  induction n with
  | zero => exact fun e he => .inl he
  | succ n ih =>
    intro e he
    rw [growth_succ] at he ⊢
    rcases List.mem_append.mp he with he | he
    · refine .inr ?_
      rcases ih e he with hlatest | hlt
      · rw [length_origins_of_mem_latest hr n e hlatest]
        exact Nat.lt_succ_self n
      · exact Nat.lt_succ_of_lt hlt
    · exact .inl he

end Rule

/-! ## Shortest chains -/

/-- A chain to `s`, while no shorter one leads to a selector equal to `s`. -/
structure Shortest (requests : List Request) (containers : List ContainerId) (own : List Selector)
    (ids : List RuleId) (s : Selector) : Prop where
  chain : Chain requests containers own ids s
  le {ids' : List RuleId} {s' : Selector} : Chain requests containers own ids' s' → s'.same s →
    ids.length ≤ ids'.length

/-- No shortest chain to a selector equal to `t` uses two requests of one rule. -/
def Unrepeated (requests : List Request) (containers : List ContainerId) (own : List Selector)
    (t : Selector) : Prop :=
  ∀ ids s, Shortest requests containers own ids s → s.same t → ids.Nodup

theorem Chain.exists_shortest (h : Chain requests containers own ids s) (hs : s.same t) :
    ∃ ids' s', Shortest requests containers own ids' s' ∧ s'.same t := by
  let P : ℕ → Prop := fun n =>
    ∃ ids' s', Chain requests containers own ids' s' ∧ s'.same t ∧ ids'.length = n
  have hP : ∃ n, P n := ⟨_, ids, s, h, hs, rfl⟩
  classical
  obtain ⟨ids', s', hchain, hsame, hlength⟩ := Nat.find_spec hP
  refine ⟨ids', s', ⟨hchain, fun {ids'' s''} hchain'' hsame'' => ?_⟩, hsame⟩
  rw [hlength]
  exact Nat.find_min' hP ⟨ids'', s'', hchain'', Selector.same_trans hsame'' hsame, rfl⟩

namespace Shortest

variable {q : Request}

theorem of_step (hstrict : AllStrict requests)
    (h : Shortest requests containers own (q.requester :: ids) q.extender)
    (hchain : Chain requests containers own ids t) (hq : q ∈ requests)
    (hreaches : q.reaches containers) (haccepts : q.target.accepts t) :
    Shortest requests containers own ids t := by
  refine ⟨hchain, fun {ids' s'} hchain' hsame => ?_⟩
  have haccepts' : q.target.accepts s' := accepts_of_same (hstrict q hq) hsame haccepts
  have hle := h.le (hchain'.step hq hreaches haccepts') (Selector.same_refl _)
  exact Nat.le_of_succ_le_succ hle

/-- The last request of a shortest chain may follow any other shortest chain to what it is applied
to. -/
theorem extend (hstrict : AllStrict requests)
    (h : Shortest requests containers own (q.requester :: ids) q.extender)
    (hchain : Chain requests containers own ids t) (hq : q ∈ requests)
    (hreaches : q.reaches containers) (haccepts : q.target.accepts t) {ids' : List RuleId}
    (hs : Shortest requests containers own ids' s) (hsame : s.same t) :
    Shortest requests containers own (q.requester :: ids') q.extender := by
  have haccepts' : q.target.accepts s := accepts_of_same (hstrict q hq) hsame haccepts
  refine ⟨hs.chain.step hq hreaches haccepts', fun {ids'' s''} hchain'' hsame'' => ?_⟩
  have hlength : ids'.length ≤ ids.length := hs.le hchain (Selector.same_symm hsame)
  exact (Nat.succ_le_succ hlength).trans (h.le hchain'' hsame'')

end Shortest

namespace Rule

variable {r : Rule}

/-- An entry that is there after as many rounds as a shortest chain to its selector is long came in
the last round, by a chain just as short. -/
theorem shortest_origins (hr : ∀ e ∈ r.entries, e.origins = []) (hstrict : AllStrict requests)
    (h : Shortest requests r.containers r.selectors ids t) {e : Entry}
    (he : e ∈ (r.growth requests id ids.length).entries) (hsame : e.selector.same t) :
    e ∈ (r.growth requests id ids.length).latest ∧ e.origins.length = ids.length ∧
      Shortest requests r.containers r.selectors e.origins e.selector := by
  have hchain : Chain requests r.containers r.selectors e.origins e.selector :=
    (r.grown_growth ids.length).chain hstrict hr e he
  have hlatest : e ∈ (r.growth requests id ids.length).latest :=
    (mem_latest_or_length_origins_lt hr _ e he).resolve_right (Nat.not_lt.mpr (h.le hchain hsame))
  have hlength : e.origins.length = ids.length := length_origins_of_mem_latest hr _ e hlatest
  refine ⟨hlatest, hlength, hchain, fun {ids' s'} hchain' hsame' => ?_⟩
  rw [hlength]
  exact h.le hchain' (Selector.same_trans hsame' hsame)

/-- **What a rule is bound to hold.** A selector that a shortest chain leads to is there after as many
rounds as the chain is long, if no such chain uses two requests of one rule. -/
theorem exists_same_of_shortest (hr : ∀ e ∈ r.entries, e.origins = [])
    (hstrict : AllStrict requests) (htarget : ∀ q ∈ requests, q.target.selector.isEmpty = false)
    (h : Shortest requests r.containers r.selectors ids s) (hs : s.isEmpty = false)
    (honce : Unrepeated requests r.containers r.selectors s) :
    ∃ e ∈ (r.growth requests id ids.length).entries, e.selector.same s := by
  obtain ⟨hchain, hle⟩ := h
  induction hchain with
  | own hown =>
    obtain ⟨e, he, rfl⟩ := List.mem_map.mp hown
    exact ⟨e, he, Selector.same_refl _⟩
  | @step ids t q hchain hq hreaches haccepts ih =>
    have hshort : Shortest requests r.containers r.selectors (q.requester :: ids) q.extender :=
      ⟨hchain.step hq hreaches haccepts, hle⟩
    have hshort' := hshort.of_step hstrict hchain hq hreaches haccepts
    have honce' : Unrepeated requests r.containers r.selectors t := fun ids' u hu hut =>
      (honce _ _ (hshort.extend hstrict hchain hq hreaches haccepts hu hut)
        (Selector.same_refl _)).of_cons
    have htsame := (accepts_iff_of_strict (hstrict q hq)).mp haccepts
    have ht : t.isEmpty = false := by
      rw [Selector.isEmpty_eq_of_same htsame, htarget q hq]
    obtain ⟨e, he, hsame⟩ := ih ht honce' hshort'.le
    obtain ⟨hlatest, hlength, hshort''⟩ := shortest_origins hr hstrict hshort' he hsame
    -- the guards let the request pass: else a rule would come twice, or the chain be too long
    have hnodup : (q.requester :: e.origins).Nodup :=
      honce _ _ (hshort.extend hstrict hchain hq hreaches haccepts hshort'' hsame)
        (Selector.same_refl _)
    have hforeign : ¬ (id = q.requester ∧ e.selector.same q.extender) := by
      rintro ⟨-, hown⟩
      have := hle hshort''.chain hown
      rw [hlength, List.length_cons] at this
      omega
    have hmakes : q.Makes id r.containers e ⟨q.extender, q.requester :: e.origins⟩ :=
      ⟨hreaches, accepts_of_same (hstrict q hq) hsame haccepts, (List.nodup_cons.mp hnodup).1,
        hforeign, (replacement_of_strict (hstrict q hq) _).symm, rfl, hs⟩
    rw [List.length_cons, growth_succ]
    exact exists_same_of_mem _
      (List.mem_flatMap.mpr ⟨e, hlatest, mem_offers.mpr ⟨q, hq, hmakes⟩⟩)

/-- **What a rule holds after `n` rounds** is what chains of at most `n` requests lead to, as far as no
shortest chain uses two requests of one rule. Empty selectors do not join it. -/
theorem exists_same_iff (hr : ∀ e ∈ r.entries, e.origins = []) (hstrict : AllStrict requests)
    (htarget : ∀ q ∈ requests, q.target.selector.isEmpty = false)
    (honce : Unrepeated requests r.containers r.selectors t) (n : ℕ) :
    (∃ e ∈ (r.growth requests id n).entries, e.selector.same t) ↔
      ∃ ids s, Chain requests r.containers r.selectors ids s ∧ ids.length ≤ n ∧ s.same t ∧
        (ids = [] ∨ s.isEmpty = false) := by
  have hgrown : Grown requests id r.containers r.entries (r.growth requests id n).entries :=
    r.grown_growth n
  constructor
  · rintro ⟨e, he, hsame⟩
    refine ⟨e.origins, e.selector, hgrown.chain hstrict hr e he, ?_, hsame, ?_⟩
    · rcases mem_latest_or_length_origins_lt hr n e he with hlatest | hlt
      · exact (length_origins_of_mem_latest hr n e hlatest).le
      · exact hlt.le
    · exact (hgrown.mem_start_or_isEmpty_eq_false e he).imp_left (hr e)
  · rintro ⟨ids, s, hchain, hle, hsame, rfl | hs⟩
    · cases hchain with
      | own hown =>
        obtain ⟨e, he, rfl⟩ := List.mem_map.mp hown
        exact ⟨e, growth_entries_mono r (Nat.zero_le n) he, hsame⟩
    · obtain ⟨ids', s', hshort, hsame'⟩ := hchain.exists_shortest (Selector.same_refl s)
      have hs' : s'.isEmpty = false := by rw [Selector.isEmpty_eq_of_same hsame', hs]
      have honce' : Unrepeated requests r.containers r.selectors s' := fun _ _ hu hus =>
        honce _ _ hu (Selector.same_trans hus (Selector.same_trans hsame' hsame))
      obtain ⟨e, he, hes⟩ := exists_same_of_shortest hr hstrict htarget hshort hs' honce'
      have hlength : ids'.length ≤ n := (hshort.le hchain (Selector.same_symm hsame')).trans hle
      exact ⟨e, growth_entries_mono r hlength he,
        Selector.same_trans hes (Selector.same_trans hsame' hsame)⟩

end Rule

/-- If all requests are strict, a rule holds in the end what chains of at most as many requests as there
may be rounds lead to. -/
theorem Store.has_iff_chain {s : Store} {r r' : Rule} (hr : s.rules[id]? = some r)
    (hr' : s.resolve.rules[id]? = some r')
    (horigins : ∀ e ∈ (r.stripped s.dialect).entries, e.origins = [])
    (hstrict : AllStrict s.requests)
    (honce : Unrepeated s.requests r.containers (r.stripped s.dialect).selectors t) :
    r'.has t ↔ ∃ ids u, Chain s.requests r.containers (r.stripped s.dialect).selectors ids u ∧
      ids.length ≤ maxRounds ∧ u.same t ∧ (ids = [] ∨ u.isEmpty = false) := by
  have hcontainers : (r.stripped s.dialect).containers = r.containers := r.containers_stripped _
  have htarget : ∀ q ∈ s.requests, q.target.selector.isEmpty = false :=
    fun q hq => isEmpty_target hq (hstrict q hq)
  have hentries : r'.entries = ((r.stripped s.dialect).growth s.requests id maxRounds).entries := by
    rw [rules_resolve hr] at hr'
    rw [← Option.some.inj hr']
  rw [← hcontainers] at honce
  rw [Rule.has_iff, hentries, Rule.exists_same_iff horigins hstrict htarget honce, hcontainers]

/-! ## Rules whose selectors all extend the same targets -/

/-- The selectors of a rule that extend anything all extend the same targets. -/
def Uniform (requests : List Request) : Prop :=
  ∀ q₁ ∈ requests, ∀ q₂ ∈ requests, q₁.requester = q₂.requester →
    { q₁ with extender := q₂.extender } ∈ requests

/-- If a chain comes back to a rule, then one of its earlier requests could have led to the end. -/
theorem Shortest.nodup (h : Shortest requests containers own ids s) (huniform : Uniform requests)
    (hstrict : AllStrict requests) : ids.Nodup := by
  obtain ⟨hchain, hle⟩ := h
  induction hchain with
  | own _ => exact List.nodup_nil
  | @step ids s q hchain hq hreaches haccepts ih =>
    have hshort : Shortest requests containers own (q.requester :: ids) q.extender :=
      ⟨hchain.step hq hreaches haccepts, hle⟩
    refine List.nodup_cons.mpr ⟨fun hmem => ?_, ?_⟩
    · obtain ⟨ids', s', hchain', hlt, q', hq', hsame, hreaches', haccepts'⟩ :=
        hchain.exists_of_mem hmem
      have hq'' := huniform q' hq' q hq hsame
      have hle' := hle (hchain'.step hq'' hreaches' haccepts') (Selector.same_refl _)
      rw [List.length_cons, List.length_cons] at hle'
      omega
    · exact ih (hshort.of_step hstrict hchain hq hreaches haccepts).le

theorem Uniform.unrepeated (huniform : Uniform requests) (hstrict : AllStrict requests)
    (t : Selector) : Unrepeated requests containers own t :=
  fun _ _ h _ => h.nodup huniform hstrict

end NestedCss.Extend
