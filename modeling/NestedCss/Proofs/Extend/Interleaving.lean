import NestedCss.Proofs.Extend.Reachability

/-!
# Applying extends more than once

All extends of an SCSS store may be applied while it is still being filled, and once more in the end.
What an application leaves behind, selectors that extend in their turn and origins that keep requests
off, does not show in the end.

* `Interleaved`: a store beside the one of the same calls in which nothing was applied;
* `Rule.Continues`: what applications in between leave of a rule;
* `Continues.resolve`: one more application keeps to that;
* `Continues.has_iff_leads`: what a rule holds after the last one;
* **`Store.resolve_interleaved`**: it is what one application makes of the rule.
-/

namespace NestedCss.Extend

variable {once s s' : Store} {id i : RuleId} {own own' : List Selector} {t u v : Selector}

/-! ## Calls of a store -/

/-- `once` is an SCSS store in which nothing was applied, and `s` comes from the same calls with
applications of all extends in between. -/
inductive Interleaved : (once s : Store) → Prop
  | empty : Interleaved (.empty .scss) (.empty .scss)
  | addContainer {once s : Store} : Interleaved once s →
      Interleaved once.addContainer.2 s.addContainer.2
  | addRule {once s : Store} (selectors : List Selector) (containers : List ContainerId) :
      Interleaved once s →
      Interleaved (once.addRule selectors containers).2 (s.addRule selectors containers).2
  | addMarker {once s : Store} (id : RuleId) (targets : Text) : Interleaved once s →
      Interleaved (once.addMarker id ⟨.scss, targets⟩) (s.addMarker id ⟨.scss, targets⟩)
  | resolve {once s : Store} : Interleaved once s → Interleaved once s.resolve

/-! ## Steps between selectors -/

/-- Rule `i` has an `@extend` that lists a target equal to `t`. -/
def Store.Targets (s : Store) (i : RuleId) (t : Selector) : Prop :=
  ∃ r, s.rules[i]? = some r ∧ ∃ m ∈ r.markers, ∃ targets,
    Target.readList false m.targets = some targets ∧ ∃ target ∈ targets, target.selector.same t

/-- Steps lead from one of the given selectors to one equal to `t`, which is not empty unless it is
one of these. -/
def Store.Leads (s : Store) (own : List Selector) (t : Selector) : Prop :=
  ∃ n u, s.Reaches own n u ∧ u.same t ∧ (n = 0 ∨ u.isEmpty = false)

/-- The rules of `s` are there in `s'`, with their selectors, their extends and maybe more extends. -/
def Store.Below (s s' : Store) : Prop :=
  ∀ (i : RuleId) (r : Rule), s.rules[i]? = some r →
    ∃ r' : Rule, s'.rules[i]? = some r' ∧ r'.selectors = r.selectors ∧ r.markers ⊆ r'.markers

namespace Store

theorem extends_iff_targets :
    s.Extends t u ↔ ∃ i r, s.rules[i]? = some r ∧ u ∈ r.selectors ∧ s.Targets i t := by
  constructor
  · rintro ⟨r, hr, hu, hmarker⟩
    obtain ⟨i, hi⟩ := List.mem_iff_getElem?.mp hr
    exact ⟨i, r, hi, hu, r, hi, hmarker⟩
  · rintro ⟨i, r, hr, hu, r', hr', hmarker⟩
    rw [hr] at hr'
    cases hr'
    exact ⟨r, List.mem_of_getElem? hr, hu, hmarker⟩

theorem Targets.of_same (h : s.Targets i t) (hsame : t.same u) : s.Targets i u := by
  obtain ⟨r, hr, m, hm, targets, hread, target, htarget, htarget'⟩ := h
  exact ⟨r, hr, m, hm, targets, hread, target, htarget, Selector.same_trans htarget' hsame⟩

theorem Targets.isEmpty (h : s.Targets i t) : t.isEmpty = false := by
  obtain ⟨r, -, m, -, targets, hread, target, htarget, hsame⟩ := h
  rw [← Selector.isEmpty_eq_of_same hsame]
  exact Target.isEmpty_of_readList hread target htarget (Target.mode_of_readList hread target htarget)

/-- What steps lead to one's extenders lead to is within reach. -/
theorem Leads.through (h : s.Leads own t) (hstep : ∀ w ∈ own', s.Extends t w) (h' : s.Leads own' v)
    (hv : v.isEmpty = false) : s.Leads own v := by
  obtain ⟨n, u, hreaches, hsame, -⟩ := h
  obtain ⟨m, w, hreaches', hsame', -⟩ := h'
  have hlong : ∃ k, s.Reaches own k w := by
    clear hsame'
    induction hreaches' with
    | own hw =>
      obtain ⟨i, r, hr, hu, htargets⟩ := extends_iff_targets.mp (hstep _ hw)
      have htargets' := htargets.of_same (Selector.same_symm hsame)
      exact ⟨n + 1, hreaches.step (extends_iff_targets.mpr ⟨i, r, hr, hu, htargets'⟩)⟩
    | step _ hlast ih =>
      obtain ⟨k, hk⟩ := ih
      exact ⟨k + 1, hk.step hlast⟩
  obtain ⟨k, hk⟩ := hlong
  exact ⟨k, w, hk, hsame', .inr ((Selector.isEmpty_eq_of_same hsame').trans hv)⟩

namespace Below

theorem addContainer (s : Store) : s.Below s.addContainer.2 :=
  fun _ r hr => ⟨r, hr, rfl, List.Subset.refl _⟩

theorem addRule (s : Store) (selectors : List Selector) (containers : List ContainerId) :
    s.Below (s.addRule selectors containers).2 := by
  intro i r hr
  refine ⟨r, ?_, rfl, List.Subset.refl _⟩
  exact (List.getElem?_append_left (List.getElem?_eq_some_iff.mp hr).1).trans hr

theorem addMarker (s : Store) (id : RuleId) (m : Marker) : s.Below (s.addMarker id m) := by
  intro i r hr
  rw [getElem?_addMarker, hr, Option.map_some]
  split
  · exact ⟨_, rfl, rfl, List.subset_append_left _ _⟩
  · exact ⟨_, rfl, rfl, List.Subset.refl _⟩

theorem targets (h : s.Below s') (ht : s.Targets i t) : s'.Targets i t := by
  obtain ⟨r, hr, m, hm, hread⟩ := ht
  obtain ⟨r', hr', -, hmarkers⟩ := h i r hr
  exact ⟨r', hr', m, hmarkers hm, hread⟩

theorem leads (h : s.Below s') (ht : s.Leads own t) : s'.Leads own t := by
  obtain ⟨n, u, hreaches, hu⟩ := ht
  refine ⟨n, u, ?_, hu⟩
  clear hu
  induction hreaches with
  | own hu => exact .own hu
  | step _ hstep ih =>
    obtain ⟨i, r, hr, hu, htargets⟩ := extends_iff_targets.mp hstep
    obtain ⟨r', hr', hselectors, -⟩ := h i r hr
    exact ih.step (extends_iff_targets.mpr ⟨i, r', hr', hselectors ▸ hu, h.targets htargets⟩)

end Below

end Store

/-! ## What applications leave behind -/

/-- `r` is what applications in between leave of `r₀`, a rule of `once`. A rule that had a part in a
selector has a target among the selectors that came without it, so it can be applied there again. -/
structure Rule.Continues (once : Store) (r₀ r : Rule) : Prop where
  containers : r.containers = r₀.containers
  markers : r.markers = r₀.markers
  entries : r₀.entries <+: r.entries
  leads : ∀ e ∈ r.entries, once.Leads r₀.selectors e.selector
  origins : ∀ e ∈ r.entries, ∀ i ∈ e.origins,
    ∃ d ∈ r.entries, i ∉ d.origins ∧ once.Targets i d.selector

/-- Every rule of `s` continues the one of `once` in its place. -/
structure Continues (once s : Store) : Prop where
  isScss : s.IsScss
  length_eq : s.rules.length = once.rules.length
  rules : ∀ (id : RuleId) r₀ r, once.rules[id]? = some r₀ → s.rules[id]? = some r →
    r₀.Continues once r

theorem Rule.Continues.mono {r₀ r : Rule} (h : r₀.Continues once r) (hbelow : once.Below s') :
    r₀.Continues s' r where
  containers := h.containers
  markers := h.markers
  entries := h.entries
  leads := fun e he => hbelow.leads (h.leads e he)
  origins := fun e he i hi => by
    obtain ⟨d, hd, hi', htargets⟩ := h.origins e he i hi
    exact ⟨d, hd, hi', hbelow.targets htargets⟩

theorem Rule.Continues.ofSelectors (s : Store) (selectors : List Selector)
    (containers : List ContainerId) :
    (Rule.ofSelectors selectors containers).Continues s (.ofSelectors selectors containers) where
  containers := rfl
  markers := rfl
  entries := List.prefix_refl _
  leads := fun e he => ⟨0, e.selector, .own (List.mem_map_of_mem he), Selector.same_refl _, .inl rfl⟩
  origins := fun e he i hi => by
    obtain ⟨u, -, rfl⟩ := List.mem_map.mp he
    cases hi

namespace Continues

theorem exists_rule (h : Continues once s) {r : Rule} (hr : s.rules[id]? = some r) :
    ∃ r₀, once.rules[id]? = some r₀ ∧ r₀.Continues once r := by
  have hlt := (List.getElem?_eq_some_iff.mp hr).1
  rw [h.length_eq] at hlt
  have hr₀ := List.getElem?_eq_getElem hlt
  exact ⟨_, hr₀, h.rules id _ r hr₀ hr⟩

theorem exists_rule_of_once (h : Continues once s) {r₀ : Rule} (hr₀ : once.rules[id]? = some r₀) :
    ∃ r, s.rules[id]? = some r ∧ r₀.Continues once r := by
  have hlt := (List.getElem?_eq_some_iff.mp hr₀).1
  rw [← h.length_eq] at hlt
  have hr := List.getElem?_eq_getElem hlt
  exact ⟨_, hr, h.rules id r₀ _ hr₀ hr⟩

/-! ## Filling the store further -/

theorem empty : Continues (.empty .scss) (.empty .scss) where
  isScss := ⟨rfl, fun r hr => absurd hr List.not_mem_nil⟩
  length_eq := rfl
  rules := fun id r₀ r hr₀ _ => by simp [Store.empty] at hr₀

theorem addContainer (h : Continues once s) : Continues once.addContainer.2 s.addContainer.2 where
  isScss := ⟨h.isScss.dialect_eq, h.isScss.markers⟩
  length_eq := h.length_eq
  rules := fun id r₀ r hr₀ hr => (h.rules id r₀ r hr₀ hr).mono (.addContainer once)

theorem addRule (h : Continues once s) (selectors : List Selector) (containers : List ContainerId) :
    Continues (once.addRule selectors containers).2 (s.addRule selectors containers).2 where
  isScss := ⟨h.isScss.dialect_eq, fun r hr m hm => by
    rcases List.mem_append.mp hr with hr | hr
    · exact h.isScss.markers r hr m hm
    · obtain rfl := List.mem_singleton.mp hr
      cases hm⟩
  length_eq := by simp [Store.addRule, h.length_eq]
  rules := fun id r₀ r hr₀ hr => by
    simp only [Store.addRule, List.getElem?_append, List.getElem?_singleton, h.length_eq] at hr₀ hr
    split at hr
    · next hlt =>
      rw [if_pos hlt] at hr₀
      exact (h.rules id r₀ r hr₀ hr).mono (.addRule once selectors containers)
    · next hlt =>
      rw [if_neg hlt] at hr₀
      rw [hr₀] at hr
      cases hr
      obtain ⟨-, hnew⟩ := Option.ite_none_right_eq_some.mp hr₀
      cases hnew
      exact .ofSelectors _ selectors containers

theorem addMarker (h : Continues once s) (id : RuleId) (targets : Text) :
    Continues (once.addMarker id ⟨.scss, targets⟩) (s.addMarker id ⟨.scss, targets⟩) where
  isScss := ⟨h.isScss.dialect_eq, fun r hr m hm => by
    obtain ⟨i, hi⟩ := List.mem_iff_getElem?.mp hr
    rw [Store.getElem?_addMarker] at hi
    obtain ⟨r', hr', rfl⟩ := Option.map_eq_some_iff.mp hi
    have hmarkers := h.isScss.markers r' (List.mem_of_getElem? hr')
    split at hm
    · rcases List.mem_append.mp hm with hm | hm
      · exact hmarkers m hm
      · rw [List.mem_singleton.mp hm]
    · exact hmarkers m hm⟩
  length_eq := by simp [Store.addMarker, h.length_eq]
  rules := fun i r₀ r hr₀ hr => by
    rw [Store.getElem?_addMarker] at hr₀ hr
    obtain ⟨r₁, hr₁, rfl⟩ := Option.map_eq_some_iff.mp hr₀
    obtain ⟨r₂, hr₂, rfl⟩ := Option.map_eq_some_iff.mp hr
    have hrule := (h.rules i r₁ r₂ hr₁ hr₂).mono (.addMarker once id ⟨.scss, targets⟩)
    split
    · exact { hrule with markers := congrArg (· ++ _) hrule.markers }
    · exact hrule

/-! ## Applying the extends -/

/-- What a request of an interleaved store asks for, in terms of the store without applications. -/
theorem exists_of_mem_requests (h : Continues once s) {q : Request} (hq : q ∈ s.requests) :
    (∀ t, q.target.accepts t → once.Targets q.requester t) ∧
      ∃ r₀, once.rules[q.requester]? = some r₀ ∧ once.Leads r₀.selectors q.extender := by
  obtain ⟨r, hr, hu, -, m, hm, targets, hread, htarget⟩ := h.isScss.mem_requests.mp hq
  obtain ⟨r₀, hr₀, hrule⟩ := h.exists_rule hr
  obtain ⟨e, he, hextender⟩ := List.mem_map.mp hu
  refine ⟨fun t haccepts => ?_, r₀, hr₀, hextender ▸ hrule.leads e he⟩
  have hsame := (accepts_iff_of_strict (h.isScss.allStrict q hq)).mp haccepts
  exact ⟨r₀, hr₀, m, hrule.markers ▸ hm, targets, hread, q.target, htarget, Selector.same_symm hsame⟩

/-- One more application keeps to what the rules lead to, and to the reason for every origin. -/
theorem resolve (h : Continues once s) : Continues once s.resolve where
  isScss := ⟨h.isScss.dialect_eq, fun r hr => by
    obtain ⟨i, hi⟩ := List.mem_iff_getElem?.mp hr
    obtain ⟨r', hr', rfl⟩ := Store.exists_of_rules_resolve hi
    rw [Rule.markers_stripped]
    exact h.isScss.markers r' (List.mem_of_getElem? hr')⟩
  length_eq := by rw [Store.resolve, length_applyRounds, List.length_map, h.length_eq]
  rules := fun id r₀ r' hr₀ hr' => by
    obtain ⟨r, hr, rfl⟩ := Store.exists_of_rules_resolve hr'
    rw [h.isScss.dialect_eq, Rule.stripped]
    have hrule := h.rules id r₀ r hr₀ hr
    have hgrown : Grown s.requests id r.containers r.entries
        (r.growth s.requests id maxRounds).entries := r.grown_growth maxRounds
    suffices hkept : ∀ l, Grown s.requests id r.containers r.entries l →
        (∀ e ∈ l, once.Leads r₀.selectors e.selector) ∧ ∀ e ∈ l, ∀ i ∈ e.origins,
          ∃ d ∈ l, i ∉ d.origins ∧ once.Targets i d.selector by
      obtain ⟨hleads, horigins⟩ := hkept _ hgrown
      exact ⟨hrule.containers, hrule.markers, hrule.entries.trans hgrown.isPrefix, hleads, horigins⟩
    intro l hl
    induction hl with
    | start => exact ⟨hrule.leads, hrule.origins⟩
    | @add l d e q _ hd hq hm _ ih =>
      obtain ⟨hleads, horigins⟩ := ih
      obtain ⟨htargets, r₁, hr₁, hextender⟩ := h.exists_of_mem_requests hq
      have hselector : e.selector = q.extender := by
        rw [hm.selector, replacement_of_strict (h.isScss.allStrict q hq)]
      constructor
      · intro x hx
        rcases List.mem_append.mp hx with hx | hx
        · exact hleads x hx
        · obtain rfl := List.mem_singleton.mp hx
          have hstep : ∀ w ∈ r₁.selectors, once.Extends d.selector w := fun w hw =>
            Store.extends_iff_targets.mpr ⟨_, r₁, hr₁, hw, htargets _ hm.accepts⟩
          exact (hleads d hd).through hstep (hselector ▸ hextender) hm.isEmpty
      · -- the requester is accounted for by `d`, the other origins as they were for `d`
        have hwiden {i : RuleId} (hi : ∃ d ∈ l, i ∉ d.origins ∧ once.Targets i d.selector) :
            ∃ d ∈ l ++ [e], i ∉ d.origins ∧ once.Targets i d.selector := by
          obtain ⟨d, hd, hi⟩ := hi
          exact ⟨d, List.mem_append_left _ hd, hi⟩
        intro x hx i hi
        rcases List.mem_append.mp hx with hx | hx
        · exact hwiden (horigins x hx i hi)
        · obtain rfl := List.mem_singleton.mp hx
          rw [hm.origins] at hi
          rcases List.mem_cons.mp hi with rfl | hi
          · exact hwiden ⟨d, hd, hm.requester, htargets _ hm.accepts⟩
          · exact hwiden (horigins d hd i hi)

/-! ## The last application -/

/-- The rules that ask for something have extends. -/
theorem card_requesters_le (h : Continues once s) :
    s.requesters.card ≤ once.rules.countP (!·.markers.isEmpty) := by
  let marked := once.rules.zipIdx.filter fun p => !p.1.markers.isEmpty
  have hsub : s.requesters ⊆ (marked.map Prod.snd).toFinset := by
    intro i hi
    obtain ⟨q, hq, rfl⟩ := List.mem_map.mp (List.mem_toFinset.mp hi)
    obtain ⟨r, hr, -, -, m, hm, -⟩ := h.isScss.mem_requests.mp hq
    obtain ⟨r₀, hr₀, hrule⟩ := h.exists_rule hr
    have hmarked : r₀.markers ≠ [] := List.ne_nil_of_mem (hrule.markers ▸ hm)
    refine List.mem_toFinset.mpr (List.mem_map.mpr ⟨(r₀, q.requester), ?_, rfl⟩)
    exact List.mem_filter.mpr ⟨List.mem_zipIdx_iff_getElem?.mpr hr₀, by simpa using hmarked⟩
  have hlength : marked.length = once.rules.countP (!·.markers.isEmpty) := by
    rw [← List.countP_eq_length_filter]
    conv_rhs => rw [← List.zipIdx_map_fst 0 once.rules, List.countP_map]
    rfl
  calc s.requesters.card
      ≤ (marked.map Prod.snd).length := (Finset.card_le_card hsub).trans (List.toFinset_card_le _)
    _ = once.rules.countP (!·.markers.isEmpty) := by rw [List.length_map, hlength]

/-- What extends a selector that a rule holds in the end is held too. -/
theorem exists_same_of_targets (h : Continues once s) (hfew : s.requesters.card ≤ maxRounds)
    {r' r₁ : Rule} (hr' : s.resolve.rules[id]? = some r') {e : Entry} (he : e ∈ r'.entries)
    (htargets : once.Targets i e.selector) (hr₁ : once.rules[i]? = some r₁) (hu : u ∈ r₁.selectors)
    (hempty : u.isEmpty = false) : ∃ x ∈ r'.entries, x.selector.same u := by
  obtain ⟨r, hr, rfl⟩ := Store.exists_of_rules_resolve hr'
  rw [h.isScss.dialect_eq, Rule.stripped] at *
  obtain ⟨r₂, hr₂, hrule⟩ := h.exists_rule_of_once hr₁
  have hu₂ : u ∈ r₂.selectors := (hrule.entries.map Entry.selector).subset hu
  -- a request of rule `i` that a selector of `r'` came without has been applied to that selector
  have hsettled : ∀ d ∈ (r.growth s.requests id maxRounds).entries, i ∉ d.origins →
      once.Targets i d.selector →
      ∃ x ∈ (r.growth s.requests id maxRounds).entries, x.selector.same u := by
    rintro d hd horigin ⟨r₁', hr₁', m, hm, targets, hread, target, htarget, hsame⟩
    rw [hr₁] at hr₁'
    cases hr₁'
    have hq : (⟨i, u, target, []⟩ : Request) ∈ s.requests := h.isScss.mem_requests.mpr
      ⟨r₂, hr₂, hu₂, rfl, m, hrule.markers ▸ hm, targets, hread, htarget⟩
    have haccepts : target.accepts d.selector :=
      (accepts_iff_of_strict (h.isScss.allStrict _ hq)).mpr (Selector.same_symm hsame)
    have hreplacement := replacement_of_strict (h.isScss.allStrict _ hq) d.selector
    rcases r.settled_growth hfew hd _ hq rfl haccepts with horigin' | ⟨-, hown⟩ | hnone | hheld
    · exact absurd horigin' horigin
    · exact ⟨d, hd, hown⟩
    · rw [hreplacement, hempty] at hnone
      cases hnone
    · rwa [hreplacement] at hheld
  by_cases horigin : i ∈ e.origins
  · obtain ⟨r₀, -, hrule'⟩ := h.resolve.exists_rule hr'
    obtain ⟨d, hd, hd', htargets'⟩ := hrule'.origins e he i horigin
    exact hsettled d hd hd' htargets'
  · exact hsettled e he horigin htargets

/-- **After an application a rule holds what steps lead to** from the selectors of its author. -/
theorem has_iff_leads (h : Continues once s) (hfew : s.requesters.card ≤ maxRounds) {r₀ r' : Rule}
    (hr₀ : once.rules[id]? = some r₀) (hr' : s.resolve.rules[id]? = some r') :
    r'.has t ↔ once.Leads r₀.selectors t := by
  have hrule := h.resolve.rules id r₀ r' hr₀ hr'
  rw [Rule.has_iff]
  constructor
  · rintro ⟨e, he, hsame⟩
    obtain ⟨n, u, hreaches, hsame', hempty⟩ := hrule.leads e he
    exact ⟨n, u, hreaches, Selector.same_trans hsame' hsame, hempty⟩
  · rintro ⟨n, u, hreaches, hsame, hempty⟩
    suffices hheld : ∃ e ∈ r'.entries, e.selector.same u by
      obtain ⟨e, he, hsame'⟩ := hheld
      exact ⟨e, he, Selector.same_trans hsame' hsame⟩
    clear hsame
    induction hreaches with
    | own hu =>
      obtain ⟨e, he, rfl⟩ := List.mem_map.mp hu
      exact ⟨e, hrule.entries.subset he, Selector.same_refl _⟩
    | @step n t u _ hstep ih =>
      obtain ⟨i, r₁, hr₁, hu, htargets⟩ := Store.extends_iff_targets.mp hstep
      obtain ⟨e, he, hsame⟩ := ih (.inr htargets.isEmpty)
      exact h.exists_same_of_targets hfew hr' he (htargets.of_same (Selector.same_symm hsame)) hr₁ hu
        (hempty.resolve_left (Nat.succ_ne_zero n))

/-- Applying the extends again adds nothing. -/
theorem resolve_resolve (h : Continues once s) (hfew : s.requesters.card ≤ maxRounds)
    (hfew' : s.resolve.requesters.card ≤ maxRounds) : s.resolve.resolve = s.resolve := by
  have hrules : s.resolve.resolve.rules = s.resolve.rules := by
    refine List.ext_getElem? fun id => ?_
    cases hr' : s.resolve.rules[id]? with
    | none =>
      rw [List.getElem?_eq_none_iff] at hr' ⊢
      rwa [h.resolve.resolve.length_eq, ← h.resolve.length_eq]
    | some r' =>
      obtain ⟨r₀, hr₀, -⟩ := h.resolve.exists_rule hr'
      have hresolve := Store.rules_resolve hr'
      rw [h.resolve.isScss.dialect_eq, Rule.stripped] at hresolve
      have hgrown : Grown s.resolve.requests id r'.containers r'.entries
          (r'.growth s.resolve.requests id maxRounds).entries := r'.grown_growth maxRounds
      obtain ⟨added, hadded⟩ := hgrown.isPrefix
      cases added with
      | nil => rw [hresolve, ← hadded, List.append_nil]
      | cons e added =>
        -- a first new selector would be one that the rule holds already
        have he : (r'.growth s.resolve.requests id maxRounds).entries[r'.entries.length]? = some e := by
          rw [← hadded]
          simp
        obtain ⟨_, _, _, _, _, hnew⟩ := hgrown.exists_makes (Nat.le_refl _) he
        have hleads : once.Leads r₀.selectors e.selector :=
          (h.resolve.has_iff_leads hfew' hr₀ hresolve).mp
            (Rule.has_iff.mpr ⟨e, List.mem_of_getElem? he, Selector.same_refl _⟩)
        obtain ⟨x, hx, hsame⟩ := Rule.has_iff.mp ((h.has_iff_leads hfew hr₀ hr').mpr hleads)
        obtain ⟨k, hk, rfl⟩ := List.mem_iff_getElem.mp hx
        have hdiff := hnew k r'.entries[k] hk (by rw [← hadded, List.getElem?_append_left hk]; simp)
        rw [hsame] at hdiff
        cases hdiff
  calc s.resolve.resolve = { s.resolve with rules := s.resolve.resolve.rules } := rfl
    _ = s.resolve := by rw [hrules]

end Continues

theorem Interleaved.continues (h : Interleaved once s) : Continues once s := by
  induction h with
  | empty => exact .empty
  | addContainer _ ih => exact ih.addContainer
  | addRule selectors containers _ ih => exact ih.addRule selectors containers
  | addMarker id targets _ ih => exact ih.addMarker id targets
  | resolve _ ih => exact ih.resolve

theorem Interleaved.atOnce (h : Interleaved once s) : Interleaved once once := by
  induction h with
  | empty => exact .empty
  | addContainer _ ih => exact .addContainer ih
  | addRule selectors containers _ ih => exact .addRule selectors containers ih
  | addMarker id targets _ ih => exact .addMarker id targets ih
  | resolve _ ih => exact ih

/-- **Applications in between do not matter**, as long as no more rules have extends than there may be
rounds: after the last application each rule holds what one application makes of it, and one more adds
nothing. -/
theorem Store.resolve_interleaved (h : Interleaved once s)
    (hfew : once.rules.countP (!·.markers.isEmpty) ≤ maxRounds) :
    s.resolve.rules.length = once.resolve.rules.length ∧
      (∀ (id : RuleId) (r r' : Rule), once.resolve.rules[id]? = some r →
        s.resolve.rules[id]? = some r' → ∀ t, r'.has t = r.has t) ∧
      s.resolve.resolve = s.resolve := by
  have hcontinues := h.continues
  have honce := h.atOnce.continues
  refine ⟨?_, fun id r r' hr hr' t => ?_, ?_⟩
  · rw [hcontinues.resolve.length_eq, honce.resolve.length_eq]
  · obtain ⟨r₀, hr₀, -⟩ := honce.resolve.exists_rule hr
    rw [Bool.eq_iff_iff, hcontinues.has_iff_leads (hcontinues.card_requesters_le.trans hfew) hr₀ hr',
      honce.has_iff_leads (honce.card_requesters_le.trans hfew) hr₀ hr]
  · exact hcontinues.resolve_resolve (hcontinues.card_requesters_le.trans hfew)
      (hcontinues.resolve.card_requesters_le.trans hfew)

/-- The store of `.a { } .b { @extend .a, .c; } .c { @extend .b; }`, where `between` happens before the
last rule and the second extend of `.b` are known. -/
def growingStore (between : Store → Store) : Store :=
  let begun := (((Store.empty .scss).addRule [⟨[.className ['a']]⟩] []).2.addRule
    [⟨[.className ['b']]⟩] []).2.addMarker 1 ⟨.scss, ".a".toList⟩
  (((between begun).addRule [⟨[.className ['c']]⟩] []).2.addMarker 2 ⟨.scss, ".b".toList⟩).addMarker 1
    ⟨.scss, ".c".toList⟩

/-- The first rule ends as `.a, .b, .c` even if `.b`, of which `.c` is made, was there before. -/
theorem growingStore_interleaved :
    (growingStore fun s => s).rules.countP (!·.markers.isEmpty) ≤ maxRounds ∧
      ∃ r r', (growingStore fun s => s).resolve.rules[0]? = some r ∧
        (growingStore Store.resolve).resolve.rules[0]? = some r' ∧
        r'.selectors = [⟨[.className ['a']]⟩, ⟨[.className ['b']]⟩, ⟨[.className ['c']]⟩] ∧
        ∀ t, r'.has t = r.has t := by
  have hfew : (growingStore fun s => s).rules.countP (!·.markers.isEmpty) ≤ maxRounds := by decide +kernel
  have hinterleaved : Interleaved (growingStore fun s => s) (growingStore Store.resolve) :=
    .addMarker _ _ (.addMarker _ _ (.addRule _ _ (.resolve (.addMarker _ _
      (.addRule _ _ (.addRule _ _ .empty))))))
  obtain ⟨-, hhas, -⟩ := Store.resolve_interleaved hinterleaved hfew
  obtain ⟨r, hr⟩ : ∃ r, (growingStore fun s => s).resolve.rules[0]? = some r :=
    Option.isSome_iff_exists.mp (by decide +kernel)
  have hselectors : (growingStore Store.resolve).resolve.rules[0]?.map Rule.selectors =
      some [⟨[.className ['a']]⟩, ⟨[.className ['b']]⟩, ⟨[.className ['c']]⟩] := by decide +kernel
  obtain ⟨r', hr', hlist⟩ := Option.map_eq_some_iff.mp hselectors
  exact ⟨hfew, r, r', hr, hr', hlist, hhas 0 r r' hr hr'⟩

end NestedCss.Extend
