import NestedCss.Extend.Target
import NestedCss.Proofs.Selector.Choices
import NestedCss.Proofs.Selector.Nonempty
import NestedCss.Proofs.Selector.Normal

/-!
# Resolved selectors

What a selector stands for within the rules around it refers to no parent any more, and stays so when
markers are taken off it or targets in it are replaced.

* `Selector.IsResolved`: not empty, without `&` and in normal form;
* `Selector.isNesting_substituteIn`: every reference is replaced;
* **`Selector.isResolved_combine`**: what a list that was read stands for is resolved;
* `Selector.IsResolved.takeExtends`, `Selector.isResolved_replaceAll`.
-/

namespace NestedCss

namespace Selector

variable {s t : Selector} {fragments : List Fragment} {parents list : List Selector}

/-- No fragment refers to the parent. -/
def IsPlain (s : Selector) : Prop := ∀ f ∈ s.fragments, f.isNesting = false

/-- The selector is not empty, refers to no parent and is in normal form. -/
structure IsResolved (s : Selector) : Prop where
  isEmpty : s.isEmpty = false
  isPlain : s.IsPlain
  isNormal : s.IsNormal

theorem isPlain_empty : empty.IsPlain := fun _ hf => nomatch hf

theorem isPlain_ofFragments (h : ∀ f ∈ fragments, f.isNesting = false) :
    (ofFragments fragments).IsPlain :=
  fun f hf => h f (mem_of_mem_ofFragments hf)

theorem isResolved_ofFragments (h : ∀ f ∈ fragments, f.isNesting = false)
    (hempty : (ofFragments fragments).isEmpty = false) : (ofFragments fragments).IsResolved :=
  ⟨hempty, isPlain_ofFragments h, isNormal_ofFragments fragments⟩

/-! ## Nesting -/

theorem isNesting_resolveNesting (suffix : Option Text) (hs : s.IsPlain) :
    ∀ f ∈ resolveNesting suffix s, f.isNesting = false := by
  cases suffix with
  | none => exact hs
  | some suffix =>
    simp only [resolveNesting, withSuffix]
    intro f hf
    split at hf
    · next last hlast =>
      rcases List.mem_append.mp hf with hf | hf
      · exact hs f ((List.dropLast_sublist _).subset hf)
      · obtain rfl := List.mem_singleton.mp hf
        obtain ⟨g, -, hglued⟩ := Option.bind_eq_some_iff.mp hlast
        cases g <;> cases hglued <;> rfl
    · rcases List.mem_append.mp hf with hf | hf
      · exact hs f hf
      · rw [List.mem_singleton.mp hf]
        rfl

/-- **Every reference is replaced** if there is a parent for each. -/
theorem isNesting_substituteIn (hcount : fragments.countP Fragment.isNesting ≤ parents.length)
    (hparents : ∀ p ∈ parents, p.IsPlain) :
    ∀ f ∈ substituteIn fragments parents, f.isNesting = false := by
  fun_induction substituteIn fragments parents with
  | case1 suffix rest parent parents ih =>
    intro f hf
    rcases List.mem_append.mp hf with hf | hf
    · exact isNesting_resolveNesting suffix (hparents parent List.mem_cons_self) f hf
    · refine ih ?_ (fun p hp => hparents p (List.mem_cons_of_mem _ hp)) f hf
      rw [List.countP_cons_of_pos (by rfl), List.length_cons] at hcount
      exact Nat.le_of_succ_le_succ hcount
  | case2 f rest parents hne ih =>
    have hf : f.isNesting = false := by
      cases f with
      | nesting suffix =>
        cases parents with
        | nil => simp [Fragment.isNesting] at hcount
        | cons parent parents => exact absurd rfl (hne suffix parent parents rfl)
      | _ => rfl
    intro g hg
    rcases List.mem_cons.mp hg with rfl | hg
    · exact hf
    · exact ih (by simpa [hf] using hcount) hparents g hg
  | case3 => exact fun f hf => nomatch hf

theorem isResolved_expansions {implicitParent : Bool} (hparents : ∀ p ∈ parents, p.IsPlain)
    (hempty : s.isEmpty = false) (hnormal : s.IsNormal) :
    ∀ t ∈ expansions parents implicitParent s, t.IsResolved := by
  intro t ht
  simp only [expansions] at ht
  split at ht
  · next hnone =>
    have hplain : s.IsPlain := by simpa [IsPlain, List.countP_eq_zero] using hnone
    cases implicitParent with
    | false =>
      obtain rfl := List.mem_singleton.mp ht
      exact ⟨hempty, hplain, hnormal⟩
    | true =>
      obtain ⟨ht, hempty'⟩ := List.mem_filter.mp ht
      obtain ⟨p, hp, rfl⟩ := List.mem_map.mp ht
      rw [Bool.not_eq_true', descendant] at hempty'
      refine isResolved_ofFragments (fun f hf => ?_) hempty'
      rcases List.mem_append.mp hf with hf | hf
      · exact hparents p hp f hf
      · rcases List.mem_cons.mp hf with rfl | hf
        · rfl
        · exact hplain f hf
  · obtain ⟨ht, hempty'⟩ := List.mem_filter.mp ht
    obtain ⟨choice, hchoice, rfl⟩ := List.mem_map.mp ht
    have hcount : s.fragments.countP Fragment.isNesting ≤ (choice.map (parents.getD · empty)).length := by
      rw [List.length_map, length_of_mem_choices hchoice]
    rw [Bool.not_eq_true', substitute] at hempty'
    exact isResolved_ofFragments
      (isNesting_substituteIn hcount (forall_mem_map_getD hparents isPlain_empty choice)) hempty'

/-- What a list stands for is what one of its members stands for. -/
theorem exists_of_mem_combine {implicitParent : Bool} (h : t ∈ combine parents list implicitParent) :
    ∃ s ∈ list, t ∈ expansions (if parents.isEmpty then [empty] else parents) implicitParent s := by
  obtain ⟨l, hl, ht⟩ := exists_of_mem_takeTurns ((distinctFrom_sublist _ _ _).subset h)
  obtain ⟨s, hs, rfl⟩ := List.mem_map.mp hl
  exact ⟨s, hs, ht⟩

/-- **What a list that was read stands for is resolved** if the parents refer to no parents. -/
theorem isResolved_combine {allowed : Allowance} {input rest : Text} {implicitParent : Bool}
    (hparents : ∀ p ∈ parents, p.IsPlain) (hread : scanList allowed input = .ok list rest) :
    ∀ t ∈ combine parents list implicitParent, t.IsResolved := by
  intro t ht
  obtain ⟨s, hs, ht⟩ := exists_of_mem_combine ht
  obtain ⟨fragments, rfl, hempty⟩ := exists_of_scanList hread s hs
  refine isResolved_expansions (fun p hp => ?_) hempty (isNormal_ofFragments fragments) t ht
  split at hp
  · rw [List.mem_singleton.mp hp]
    exact isPlain_empty
  · exact hparents p hp

/-! ## Markers and replacement -/

theorem mem_of_mem_takeMarkers {f : Fragment} (h : f ∈ (takeMarkers fragments).1) : f ∈ fragments := by
  fun_induction takeMarkers fragments with
  | case1 p before targets htargets rest lists hrest ih => exact List.mem_cons_of_mem _ (ih (hrest ▸ h))
  | case2 => exact h
  | case3 => exact h

theorem IsResolved.takeExtends (hs : s.IsResolved) {targets : List Extend.Target}
    (h : s.takeExtends? = some (t, targets)) : t.IsResolved := by
  unfold takeExtends? at h
  dsimp only at h
  split at h
  · cases h
  · next hkept =>
    obtain ⟨lists, -, h⟩ := Option.bind_eq_some_iff.mp h
    cases h
    refine isResolved_ofFragments (fun f hf => ?_) ?_
    · exact hs.isPlain f (List.mem_reverse.mp (mem_of_mem_takeMarkers (List.mem_reverse.mp hf)))
    · simp only [Bool.or_eq_true, not_or, Bool.not_eq_true] at hkept
      exact hkept.2

theorem IsResolved.getD_takeExtends (hs : s.IsResolved) :
    ((s.takeExtends?.map Prod.fst).getD s).IsResolved := by
  cases h : s.takeExtends? with
  | none => exact hs
  | some taken => exact hs.takeExtends h

theorem mem_replaceIn {target replacement : List Fragment} {f : Fragment}
    (h : f ∈ replaceIn target replacement fragments) : f ∈ replacement ∨ f ∈ fragments := by
  fun_induction replaceIn target replacement fragments with
  | case1 => cases h
  | case2 g rest _ ih =>
    rcases List.mem_append.mp h with h | h
    · exact .inl h
    · exact (ih h).imp_right fun h => List.mem_cons_of_mem _ (List.mem_of_mem_drop h)
  | case3 g rest _ ih =>
    rcases List.mem_cons.mp h with rfl | h
    · exact .inr List.mem_cons_self
    · exact (ih h).imp_right (List.mem_cons_of_mem _)

theorem isResolved_replaceAll {target replacement : Selector} (hs : s.IsPlain)
    (hreplacement : replacement.IsPlain) (hempty : (s.replaceAll target replacement).isEmpty = false) :
    (s.replaceAll target replacement).IsResolved :=
  isResolved_ofFragments (fun f hf => (mem_replaceIn hf).elim (hreplacement f) (hs f)) hempty

end Selector

end NestedCss
