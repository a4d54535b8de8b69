import NestedCss.Proofs.Scanner.Run
import NestedCss.Selector.Reader

/-!
# Empty selectors

No text reads as a list with an empty selector in it.

* `Selector.exists_of_scanMember`, `Selector.exists_of_scanList`: what is read comes from fragments;
* **`Selector.isEmpty_of_scanList`**: and is never empty.
-/

namespace NestedCss.Selector

open Scanner

variable {allowed : Allowance} {input rest : Text}

/-- A member is made of the fragments that were read, and refused if that leaves nothing. -/
theorem exists_of_scanMember {s : Selector} (h : scanMember allowed input = .ok s rest) :
    ∃ fragments, s = ofFragments fragments ∧ s.isEmpty = false := by
  obtain ⟨fragments, s', -, h⟩ := bind_eq_ok.mp h
  dsimp only at h
  split at h
  · obtain ⟨_, _, h, -⟩ := bind_eq_ok.mp h
    cases h
  · next hempty =>
    obtain ⟨rfl, -⟩ := pure_eq_ok.mp h
    exact ⟨fragments, rfl, Bool.eq_false_iff.mpr hempty⟩

theorem exists_of_scanList {list : List Selector} (h : scanList allowed input = .ok list rest) :
    ∀ s ∈ list, ∃ fragments, s = ofFragments fragments ∧ s.isEmpty = false := by
  obtain ⟨⟨list', last⟩, s', hgather, h⟩ := bind_eq_ok.mp h
  obtain ⟨next, s'', -, h⟩ := bind_eq_ok.mp h
  have hlist : list' = list := by
    dsimp only at h
    split at h
    · obtain ⟨_, _, h, -⟩ := bind_eq_ok.mp h
      cases h
    · exact (pure_eq_ok.mp h).1
  subst hlist
  refine forall_mem_of_gather (fun goesOn s piece state' rest hstep => ?_) hgather
  cases goesOn with
  | false =>
    have := (pure_eq_ok.mp hstep).1
    cases this
  | true =>
    obtain ⟨u, s₁, hmember, hstep⟩ := bind_eq_ok.mp hstep
    obtain ⟨comma, s₂, -, hstep⟩ := bind_eq_ok.mp hstep
    have := (pure_eq_ok.mp hstep).1
    cases this
    intro x hx
    rw [List.mem_singleton.mp hx]
    exact exists_of_scanMember hmember

/-- **No member of a list that was read is empty.** -/
theorem isEmpty_of_scanList {list : List Selector} (h : scanList allowed input = .ok list rest) :
    ∀ s ∈ list, s.isEmpty = false := by
  intro s hs
  obtain ⟨_, -, hempty⟩ := exists_of_scanList h s hs
  exact hempty

end NestedCss.Selector
