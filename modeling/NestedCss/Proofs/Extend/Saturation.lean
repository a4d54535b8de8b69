import Mathlib.Data.Finset.Card
import NestedCss.Proofs.Extend.Derivation

/-!
# Saturation

No request is applied to what its rule had a part in, so every round that adds a selector uses up one
more rule. If no more rules extend than there may be rounds, the limit cuts nothing off.

* `Settled`: the requests that an entry satisfies have nothing to add;
* `Rule.settled_of_not_mem_latest`: a round settles the entries that it visits;
* `Rule.le_card_origins`: the entries of round `n` come from at least `n` rules;
* **`Store.resolve_saturated`**: in the end all entries are settled.
-/

namespace NestedCss.Extend

variable {requests : List Request} {id : RuleId} {containers : List ContainerId}

/-! ## Settled entries -/

/-- Why the requests that entry `e` of a rule satisfies add nothing to the entries of the rule. -/
def Settled (requests : List Request) (id : RuleId) (containers : List ContainerId)
    (entries : List Entry) (e : Entry) : Prop :=
  ∀ q ∈ requests, q.reaches containers → q.target.accepts e.selector →
    q.requester ∈ e.origins ∨ (id = q.requester ∧ e.selector.same q.extender) ∨
      (q.replacement e.selector).isEmpty ∨
      ∃ x ∈ entries, x.selector.same (q.replacement e.selector)

theorem Settled.mono {entries entries' : List Entry} {e : Entry}
    (h : Settled requests id containers entries e) (hsub : entries ⊆ entries') :
    Settled requests id containers entries' e := by
  intro q hq hreaches haccepts
  rcases h q hq hreaches haccepts with h | h | h | ⟨x, hx, hsame⟩
  · exact .inl h
  · exact .inr (.inl h)
  · exact .inr (.inr (.inl h))
  · exact .inr (.inr (.inr ⟨x, hsub hx, hsame⟩))

theorem settled_of_offers {entries : List Entry} {e : Entry}
    (h : ∀ x ∈ offers requests id containers e, ∃ y ∈ entries, y.selector.same x.selector) :
    Settled requests id containers entries e := by
  intro q hq hreaches haccepts
  by_cases horigin : q.requester ∈ e.origins
  · exact .inl horigin
  by_cases hown : id = q.requester ∧ e.selector.same q.extender
  · exact .inr (.inl hown)
  by_cases hempty : (q.replacement e.selector).isEmpty = true
  · exact .inr (.inr (.inl hempty))
  · have hmakes : q.Makes id containers e ⟨q.replacement e.selector, q.requester :: e.origins⟩ :=
      ⟨hreaches, haccepts, horigin, hown, rfl, rfl, Bool.eq_false_iff.mpr hempty⟩
    exact .inr (.inr (.inr (h _ (mem_offers.mpr ⟨q, hq, hmakes⟩))))

namespace Rule

theorem growth_entries_subset (r : Rule) (n : ℕ) :
    (r.growth requests id n).entries ⊆ (r.growth requests id (n + 1)).entries := by
  rw [growth_succ]
  exact List.subset_append_left _ _

theorem growth_entries_mono (r : Rule) {m n : ℕ} (h : m ≤ n) :
    (r.growth requests id m).entries ⊆ (r.growth requests id n).entries := by
  induction h with
  | refl => exact List.Subset.refl _
  | step _ ih => exact fun e he => growth_entries_subset r _ (ih he)

/-- **A round settles the entries that it visits.** Only the latest are left. -/
theorem settled_of_not_mem_latest (r : Rule) (n : ℕ) {e : Entry}
    (he : e ∈ (r.growth requests id n).entries) (hlatest : e ∉ (r.growth requests id n).latest) :
    Settled requests id r.containers (r.growth requests id n).entries e := by
  induction n with
  | zero => exact absurd he hlatest
  | succ n ih =>
    by_cases hvisited : e ∈ (r.growth requests id n).latest
    · refine settled_of_offers fun x hx => ?_
      rw [growth_succ]
      exact exists_same_of_mem _ (List.mem_flatMap.mpr ⟨e, hvisited, hx⟩)
    · have he' : e ∈ (r.growth requests id n).entries := by
        rw [growth_succ] at he hlatest
        exact (List.mem_append.mp he).resolve_right hlatest
      exact (ih he' hvisited).mono (growth_entries_subset r n)

/-- **The entries of round `n` come from at least `n` of the rules that extend.** -/
theorem le_card_origins (r : Rule) (n : ℕ) {e : Entry} (he : e ∈ (r.growth requests id n).latest) :
    n ≤ (e.origins.toFinset ∩ (requests.map Request.requester).toFinset).card := by
  induction n generalizing e with
  | zero => exact Nat.zero_le _
  | succ n ih =>
    rw [growth_succ] at he
    obtain ⟨d, hd, hmade⟩ := List.mem_flatMap.mp (mem_of_mem_fresh he)
    obtain ⟨q, hq, hm⟩ := mem_offers.mp hmade
    have hrequester : q.requester ∈ (requests.map Request.requester).toFinset :=
      List.mem_toFinset.mpr (List.mem_map_of_mem hq)
    rw [hm.origins, List.toFinset_cons, Finset.insert_inter_of_mem hrequester,
      Finset.card_insert_of_notMem]
    · exact Nat.succ_le_succ (ih hd)
    · rw [Finset.mem_inter, List.mem_toFinset]
      exact fun h => hm.requester h.1

/-- **As many rounds as there are rules that extend settle all entries.** -/
theorem settled_growth (r : Rule) {n : ℕ}
    (hn : (requests.map Request.requester).toFinset.card ≤ n) {e : Entry}
    (he : e ∈ (r.growth requests id n).entries) :
    Settled requests id r.containers (r.growth requests id n).entries e := by
  by_cases hlatest : e ∈ (r.growth requests id n).latest
  · -- the last round is full, so every rule that extends had a part in its entries
    intro q hq _ _
    have hfull : e.origins.toFinset ∩ (requests.map Request.requester).toFinset =
        (requests.map Request.requester).toFinset :=
      Finset.eq_of_subset_of_card_le Finset.inter_subset_right (hn.trans (r.le_card_origins n hlatest))
    have hmem : q.requester ∈ (requests.map Request.requester).toFinset :=
      List.mem_toFinset.mpr (List.mem_map_of_mem hq)
    rw [← hfull, Finset.mem_inter, List.mem_toFinset] at hmem
    exact .inl hmem.1
  · exact r.settled_of_not_mem_latest n he hlatest

end Rule

/-! ## The end of application -/

/-- The rules whose extends ask for something. -/
def Store.requesters (s : Store) : Finset RuleId := (s.requests.map Request.requester).toFinset

/-- **The limit of rounds cuts nothing off** if no more rules extend than there may be rounds. -/
theorem Store.resolve_saturated {s : Store} (hs : s.requesters.card ≤ maxRounds) {r : Rule}
    (hr : s.resolve.rules[id]? = some r) :
    ∀ e ∈ r.entries, Settled s.requests id r.containers r.entries e := by
  obtain ⟨r₀, -, rfl⟩ := exists_of_rules_resolve hr
  exact fun e he => (r₀.stripped s.dialect).settled_growth hs he

/-- The selector `.name:extend(targets)`. -/
def extending (name targets : Text) : Selector :=
  ⟨[.className name, .pseudo ⟨"extend".toList, false, some targets⟩]⟩

/-- The store of `.x:extend(.z) { } .y:extend(.x) { } .z:extend(.y) { }`. -/
def triangleStore : Store :=
  ⟨.less, [.ofSelectors [extending ['x'] ".z".toList] [], .ofSelectors [extending ['y'] ".x".toList] [],
    .ofSelectors [extending ['z'] ".y".toList] []], 0⟩

/-- The first rule ends as `.x, .y, .z`. Its own request accepts `.z`, which it had no part in, but
has nothing to add. -/
theorem triangleStore_saturated : triangleStore.requesters.card ≤ maxRounds ∧
    ∃ r, triangleStore.resolve.rules[0]? = some r ∧
      r.selectors = [⟨[.className ['x']]⟩, ⟨[.className ['y']]⟩, ⟨[.className ['z']]⟩] ∧
      ∀ e ∈ r.entries, Settled triangleStore.requests 0 r.containers r.entries e := by
  have hcard : triangleStore.requesters.card ≤ maxRounds := by decide +kernel
  have hselectors : triangleStore.resolve.rules[0]?.map Rule.selectors =
      some [⟨[.className ['x']]⟩, ⟨[.className ['y']]⟩, ⟨[.className ['z']]⟩] := by decide +kernel
  obtain ⟨r, hr, hlist⟩ := Option.map_eq_some_iff.mp hselectors
  exact ⟨hcard, r, hr, hlist, Store.resolve_saturated hcard hr⟩

end NestedCss.Extend
