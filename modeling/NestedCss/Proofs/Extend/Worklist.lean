import Mathlib.Logic.Function.Iterate
import NestedCss.Extend.Store

/-!
# The worklist, seen from one rule

All rules share one worklist, one list of requests and one limit of rounds. A request only ever adds to
the rule whose selector it is applied to, so a rule grows as if it were alone.

* `offers`: what the requests make of an entry of a rule;
* `Growth.step`: one round, for one rule;
* `Round.view_foldl_visit`: a round of all rules is a round of each;
* **`Store.rules_resolve`**: what `Store.resolve` makes of a rule.
-/

namespace NestedCss.Extend

variable {requests : List Request} {id : RuleId} {containers : List ContainerId}

/-! ## The growth of one rule -/

/-- The entries whose selector neither `known` nor an entry before has. -/
def fresh (known : List Entry) : List Entry → List Entry
  | [] => []
  | e :: rest =>
    if known.any (·.selector.same e.selector) then fresh known rest
    else e :: fresh (known ++ [e]) rest

theorem fresh_append (known a b : List Entry) :
    fresh known (a ++ b) = fresh known a ++ fresh (known ++ fresh known a) b := by
  induction a generalizing known with
  | nil => simp [fresh]
  | cons e a ih =>
    simp only [List.cons_append, fresh]
    split
    · exact ih known
    · rw [ih, List.cons_append, List.append_assoc, List.cons_append, List.nil_append]

/-- What the requests make of an entry of rule `id`, which stands within the given at-rules. -/
def offers (requests : List Request) (id : RuleId) (containers : List ContainerId) (e : Entry) :
    List Entry :=
  (requests.filter (·.isSatisfiedBy containers e.selector)).filterMap (·.produce? id e)

/-- The entries of a rule between two rounds, with those that the last round added. -/
structure Growth where
  entries : List Entry
  latest : List Entry

namespace Growth

/-- The entries that a round adds, where `offers` says what is made of each entry. -/
def added (offers : Entry → List Entry) (g : Growth) : List Entry :=
  fresh g.entries (g.latest.flatMap offers)

/-- One round: what is made of the latest entries joins the rule and is the latest from then on. -/
def step (offers : Entry → List Entry) (g : Growth) : Growth :=
  ⟨g.entries ++ g.added offers, g.added offers⟩

theorem step_of_latest_nil (offers : Entry → List Entry) (entries : List Entry) :
    step offers ⟨entries, []⟩ = ⟨entries, []⟩ := by
  simp [step, added, fresh]

theorem iterate_of_latest_nil (offers : Entry → List Entry) (entries : List Entry) (n : ℕ) :
    (step offers)^[n] ⟨entries, []⟩ = ⟨entries, []⟩ :=
  Function.iterate_fixed (step_of_latest_nil offers entries) n

end Growth

/-! ## Nodes -/

/-- What the requests of a node make of the entry in its place. -/
def Node.offers (entries : List Entry) (n : Node) : List Entry :=
  match entries[n.index]? with
  | some e => n.requests.filterMap (·.produce? n.rule e)
  | none => []

theorem Node.of?_eq_some {index : Nat} {s : Selector} {n : Node}
    (h : Node.of? requests id containers index s = some n) :
    n = ⟨id, index, requests.filter (·.isSatisfiedBy containers s)⟩ := by
  simp only [Node.of?] at h
  split at h
  · cases h
  · exact (Option.some.inj h).symm

theorem mem_nodesFrom {index : Nat} {entries : List Entry} {n : Node}
    (h : n ∈ nodesFrom requests id containers index entries) :
    n.rule = id ∧ n.index < index + entries.length := by
  induction entries generalizing index with
  | nil => simp [nodesFrom] at h
  | cons e rest ih =>
    simp only [nodesFrom, List.mem_append, Option.mem_toList] at h
    rcases h with h | h
    · cases Node.of?_eq_some h
      simp
    · have := ih h
      exact ⟨this.1, by simp only [List.length_cons]; omega⟩

theorem nodesFrom_append (index : Nat) (a b : List Entry) :
    nodesFrom requests id containers index (a ++ b) =
      nodesFrom requests id containers index a ++
        nodesFrom requests id containers (index + a.length) b := by
  induction a generalizing index with
  | nil => simp [nodesFrom]
  | cons e a ih =>
    rw [List.cons_append, nodesFrom, nodesFrom, ih, List.append_assoc, List.length_cons,
      show index + 1 + a.length = index + (a.length + 1) by omega]

/-- The nodes of entries lead to what the requests make of these entries. -/
theorem flatMap_offers_nodesFrom {entries latest : List Entry} {index : Nat}
    (h : entries.drop index = latest) :
    (nodesFrom requests id containers index latest).flatMap (Node.offers entries) =
      latest.flatMap (offers requests id containers) := by
  induction latest generalizing index with
  | nil => rfl
  | cons e rest ih =>
    have he : entries[index]? = some e := by
      rw [← List.head?_drop, h, List.head?_cons]
    have hrest : entries.drop (index + 1) = rest := by
      rw [← List.tail_drop, h, List.tail_cons]
    rw [nodesFrom, List.flatMap_append, ih hrest, List.flatMap_cons]
    congr 1
    simp only [Node.of?, offers]
    split
    · next hs => simp [List.isEmpty_iff.mp hs]
    · simp [Node.offers, he]

theorem filter_flatten_mapIdx {α β : Type} (key : β → ℕ) {l : List α} {f : ℕ → α → List β}
    {i k : ℕ} {a : α} (hf : ∀ i a, ∀ b ∈ f i a, key b = i + k) (h : l[i]? = some a) :
    (l.mapIdx f).flatten.filter (key · == i + k) = f i a := by
  induction l generalizing f i k with
  | nil => cases h
  | cons a' l ih =>
    have hf' : ∀ i a, ∀ b ∈ f (i + 1) a, key b = i + (k + 1) := fun i a b hb => by
      rw [hf _ _ b hb]; omega
    rw [List.mapIdx_cons, List.flatten_cons, List.filter_append]
    cases i with
    | zero =>
      cases h
      rw [List.filter_eq_self.mpr, List.filter_eq_nil_iff.mpr, List.append_nil]
      · intro b hb
        obtain ⟨m, hm, hb⟩ := List.mem_flatten.mp hb
        obtain ⟨j, hj, rfl⟩ := List.mem_mapIdx.mp hm
        have := hf' _ _ b hb
        simp only [beq_iff_eq]
        omega
      · intro b hb
        simp [hf _ _ b hb]
    | succ i =>
      rw [List.getElem?_cons_succ] at h
      rw [List.filter_eq_nil_iff.mpr, List.nil_append]
      · have := ih hf' h
        rwa [show i + 1 + k = i + (k + 1) by omega]
      · intro b hb
        have := hf _ _ b hb
        simp only [beq_iff_eq]
        omega

/-- The worklist holds the nodes of each rule in order. -/
theorem filter_allNodes {rules : List Rule} {r : Rule} (h : rules[id]? = some r) :
    (allNodes requests rules).filter (·.rule == id) =
      nodesFrom requests id r.containers 0 r.entries :=
  filter_flatten_mapIdx (k := 0) Node.rule (fun _ _ _ hn => (mem_nodesFrom hn).1) h

/-! ## A round of all rules -/

namespace Round

/-- What a round in progress means for rule `id`: the rule and its nodes for the next round. -/
def view (round : Round) (id : RuleId) : Option Rule × List Node :=
  (round.rules[id]?, round.waiting.filter (·.rule == id))

/-- The entries `added` to rule `id` in a round, where `start` is the rule without them. -/
def viewOf (requests : List Request) (id : RuleId) (start : Rule) (added : List Entry) :
    Option Rule × List Node :=
  (some { start with entries := start.entries ++ added },
    nodesFrom requests id start.containers start.entries.length added)

/-- A request that is applied to another rule's selector changes nothing for a rule. -/
theorem view_apply_of_ne {n : Node} (hn : n.rule ≠ id) (round : Round) (q : Request) :
    (round.apply requests n q).view id = round.view id := by
  simp only [apply]
  split
  · rfl
  · split
    · rfl
    · next r _ _ e _ =>
      split
      · rfl
      · have hw : (Node.of? requests n.rule r.containers r.entries.length e.selector).toList.filter
            (·.rule == id) = [] := by
          rw [List.filter_eq_nil_iff]
          intro m hm
          rw [Node.of?_eq_some (Option.mem_toList.mp hm)]
          simpa using hn
        simp only [view, List.getElem?_set_ne hn, List.filter_append, hw, List.append_nil]

/-- A request that is applied to a selector of a rule adds what it makes of it, if that is new. -/
theorem view_apply {n : Node} {start : Rule} {added : List Entry} {e : Entry} {round : Round}
    (hv : round.view n.rule = viewOf requests n.rule start added)
    (he : start.entries[n.index]? = some e) (q : Request) :
    (round.apply requests n q).view n.rule = viewOf requests n.rule start
      (added ++ fresh (start.entries ++ added) (q.produce? n.rule e).toList) := by
  obtain ⟨hr, hw⟩ := Prod.ext_iff.mp hv
  simp only [view, viewOf] at hr hw
  have he' : (start.entries ++ added)[n.index]? = some e := by
    rw [List.getElem?_append_left (List.getElem?_eq_some_iff.mp he).1, he]
  simp only [apply, hr, he', Option.bind_some]
  cases hq : q.produce? n.rule e with
  | none => simp [fresh, view, viewOf, hr, hw]
  | some e' =>
    simp only [Option.toList_some, fresh]
    by_cases hany : (start.entries ++ added).any (·.selector.same e'.selector) = true
    · have hhas : Rule.has { start with entries := start.entries ++ added } e'.selector := hany
      rw [if_pos hhas, if_pos hany, List.append_nil]
      exact hv
    · have hhas : ¬ Rule.has { start with entries := start.entries ++ added } e'.selector := hany
      rw [if_neg hhas, if_neg hany]
      have hlt := (List.getElem?_eq_some_iff.mp hr).1
      simp only [view, viewOf, List.getElem?_set_self hlt, List.filter_append, hw,
        nodesFrom_append, List.append_assoc, List.length_append, Prod.mk.injEq, true_and,
        List.append_cancel_left_eq]
      rw [nodesFrom, nodesFrom, List.append_nil, List.filter_eq_self]
      intro m hm
      rw [Node.of?_eq_some (Option.mem_toList.mp hm), beq_self_eq_true]

theorem view_visit {n : Node} {start : Rule} {added : List Entry} {round : Round}
    (hv : round.view n.rule = viewOf requests n.rule start added)
    (hn : n.index < start.entries.length) :
    (round.visit requests n).view n.rule = viewOf requests n.rule start
      (added ++ fresh (start.entries ++ added) (n.offers start.entries)) := by
  have he : start.entries[n.index]? = some start.entries[n.index] := List.getElem?_eq_getElem hn
  have hoffers : n.offers start.entries =
      n.requests.filterMap (·.produce? n.rule start.entries[n.index]) := by
    rw [Node.offers, he]
  rw [visit, hoffers]
  generalize n.requests = qs
  induction qs generalizing added round with
  | nil => simpa [fresh] using hv
  | cons q qs ih =>
    rw [List.foldl_cons, ih (view_apply hv he q), List.append_assoc, ← List.append_assoc start.entries,
      ← fresh_append, List.filterMap_cons]
    cases q.produce? n.rule start.entries[n.index] <;> rfl

theorem view_visit_of_ne {n : Node} (hn : n.rule ≠ id) (round : Round) :
    (round.visit requests n).view id = round.view id := by
  rw [visit]
  generalize n.requests = qs
  induction qs generalizing round with
  | nil => rfl
  | cons q qs ih => rw [List.foldl_cons, ih, view_apply_of_ne hn]

/-- **A round of all rules is a round of each.** A rule grows by what its own nodes lead to. -/
theorem view_foldl_visit {worklist : List Node} {start : Rule} {added : List Entry} {round : Round}
    (hv : round.view id = viewOf requests id start added)
    (hw : ∀ n ∈ worklist, n.rule = id → n.index < start.entries.length) :
    (worklist.foldl (visit requests) round).view id = viewOf requests id start
      (added ++ fresh (start.entries ++ added)
        ((worklist.filter (·.rule == id)).flatMap (Node.offers start.entries))) := by
  induction worklist generalizing added round with
  | nil => simpa [fresh] using hv
  | cons n worklist ih =>
    have hw' := fun m hm => hw m (List.mem_cons_of_mem _ hm)
    rw [List.foldl_cons]
    by_cases hn : n.rule = id
    · subst hn
      rw [ih (view_visit hv (hw n List.mem_cons_self rfl)) hw', List.append_assoc,
        ← List.append_assoc start.entries, ← fresh_append,
        List.filter_cons, if_pos (beq_self_eq_true _), List.flatMap_cons]
    · rw [ih ((view_visit_of_ne hn round).trans hv) hw', List.filter_cons_of_neg (by simpa using hn)]

end Round

/-! ## All rounds -/

/-- A rule whose nodes in the worklist are those of its latest entries grows as if it were alone. -/
theorem applyRounds_getElem? {limit : Nat} {rules : List Rule} {worklist : List Node} {r : Rule}
    {earlier latest : List Entry} (hr : rules[id]? = some r) (he : r.entries = earlier ++ latest)
    (hw : worklist.filter (·.rule == id) =
      nodesFrom requests id r.containers earlier.length latest) :
    (applyRounds requests limit rules worklist)[id]? = some { r with
      entries := ((Growth.step (offers requests id r.containers))^[limit]
        ⟨r.entries, latest⟩).entries } := by
  induction limit generalizing rules worklist r earlier latest with
  | zero => exact hr
  | succ limit ih =>
    have hoffers : (worklist.filter (·.rule == id)).flatMap (Node.offers r.entries) =
        latest.flatMap (offers requests id r.containers) := by
      rw [hw, flatMap_offers_nodesFrom (by rw [he, List.drop_left])]
    rw [applyRounds, Function.iterate_succ_apply]
    by_cases hempty : worklist.isEmpty = true
    · rw [if_pos hempty, hr]
      have hnone : latest.flatMap (offers requests id r.containers) = [] := by
        rw [← hoffers, List.isEmpty_iff.mp hempty]
        rfl
      have hstep : Growth.step (offers requests id r.containers) ⟨r.entries, latest⟩ =
          ⟨r.entries, []⟩ := by
        simp [Growth.step, Growth.added, hnone, fresh]
      rw [hstep, Growth.iterate_of_latest_nil]
    · rw [if_neg hempty]
      have hstart : Round.view ⟨rules, []⟩ id = Round.viewOf requests id r [] := by
        simp [Round.view, Round.viewOf, hr, nodesFrom]
      have hindex : ∀ n ∈ worklist, n.rule = id → n.index < r.entries.length := by
        intro n hn hid
        have hmem : n ∈ worklist.filter (·.rule == id) :=
          List.mem_filter.mpr ⟨hn, by simpa using hid⟩
        rw [hw] at hmem
        have hlt := (mem_nodesFrom hmem).2
        rwa [← List.length_append, ← he] at hlt
      have hview := Round.view_foldl_visit hstart hindex
      rw [hoffers, List.nil_append, List.append_nil] at hview
      obtain ⟨hrules, hwaiting⟩ := Prod.ext_iff.mp hview
      exact ih hrules rfl hwaiting

/-- The rounds of rule `id`, one after the other. -/
def Rule.growth (requests : List Request) (id : RuleId) (r : Rule) (n : ℕ) : Growth :=
  (Growth.step (offers requests id r.containers))^[n] ⟨r.entries, r.entries⟩

theorem Rule.growth_succ (r : Rule) (n : ℕ) : r.growth requests id (n + 1) =
    (r.growth requests id n).step (offers requests id r.containers) :=
  Function.iterate_succ_apply' _ _ _

/-- **A rule after all extends were applied.** It has grown by itself for as long as the limit lets
it. -/
theorem Store.rules_resolve {s : Store} {r : Rule} (h : s.rules[id]? = some r) :
    s.resolve.rules[id]? = some { r.stripped s.dialect with
      entries := ((r.stripped s.dialect).growth s.requests id maxRounds).entries } := by
  have hr : (s.rules.map (·.stripped s.dialect))[id]? = some (r.stripped s.dialect) := by
    rw [List.getElem?_map, h, Option.map_some]
  exact applyRounds_getElem? hr (List.nil_append _).symm (filter_allNodes hr)

/-! ## The number of rules -/

theorem Round.length_visit (n : Node) (round : Round) :
    (round.visit requests n).rules.length = round.rules.length := by
  rw [visit]
  generalize n.requests = qs
  induction qs generalizing round with
  | nil => rfl
  | cons q qs ih =>
    rw [List.foldl_cons, ih, apply]
    split
    · rfl
    · split
      · rfl
      · split
        · rfl
        · exact List.length_set

theorem Round.length_foldl_visit (worklist : List Node) (round : Round) :
    (worklist.foldl (visit requests) round).rules.length = round.rules.length := by
  induction worklist generalizing round with
  | nil => rfl
  | cons n worklist ih => exact (ih _).trans (length_visit n round)

theorem length_applyRounds (limit : Nat) (rules : List Rule) (worklist : List Node) :
    (applyRounds requests limit rules worklist).length = rules.length := by
  induction limit generalizing rules worklist with
  | zero => rfl
  | succ limit ih =>
    rw [applyRounds]
    split
    · rfl
    · exact (ih _ _).trans (Round.length_foldl_visit worklist ⟨rules, []⟩)

theorem Store.length_resolve (s : Store) : s.resolve.rules.length = s.rules.length := by
  rw [resolve, length_applyRounds, List.length_map]

/-- The rules after all extends were applied are those there were, each grown by itself. -/
theorem Store.rules_resolve_eq_mapIdx (s : Store) : s.resolve.rules = s.rules.mapIdx fun id r =>
    { r.stripped s.dialect with
      entries := ((r.stripped s.dialect).growth s.requests id maxRounds).entries } := by
  refine List.ext_getElem? fun id => ?_
  rw [List.getElem?_mapIdx]
  cases hr : s.rules[id]? with
  | some r => exact rules_resolve hr
  | none =>
    rw [Option.map_none, List.getElem?_eq_none_iff, length_resolve]
    exact List.getElem?_eq_none_iff.mp hr

/-- Extending neither adds nor removes rules. -/
theorem Store.exists_of_rules_resolve {s : Store} {r' : Rule} (h : s.resolve.rules[id]? = some r') :
    ∃ r, s.rules[id]? = some r ∧ r' = { r.stripped s.dialect with
      entries := ((r.stripped s.dialect).growth s.requests id maxRounds).entries } := by
  rw [rules_resolve_eq_mapIdx, List.getElem?_mapIdx] at h
  obtain ⟨r, hr, rfl⟩ := Option.map_eq_some_iff.mp h
  exact ⟨r, hr, rfl⟩

end NestedCss.Extend
