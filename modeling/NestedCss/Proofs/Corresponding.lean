import Mathlib.Data.List.Forall2

/-!
# Lists that correspond

Two runs of the same program are compared member by member of the lists that they keep.

* `forall₂_iff_map_eq`: lists with the same keys correspond;
* `getElem?_of_forall₂`: corresponding lists have corresponding members in every place;
* `forall₂_modify`, `forall₂_mapIdx`: what is done alike to both keeps them corresponding.
-/

namespace NestedCss

variable {α α' β β' : Type} {R : α → α' → Prop} {S : β → β' → Prop} {l : List α} {l' : List α'}

/-- **Lists with the same keys correspond**, member by member. -/
theorem forall₂_iff_map_eq {key : α → β} {key' : α' → β} :
    List.Forall₂ (fun a a' => key a = key' a') l l' ↔ l.map key = l'.map key' := by
  rw [← List.forall₂_eq_eq_eq, List.forall₂_map_left_iff, List.forall₂_map_right_iff]

/-- A place is either beyond both lists or holds members that correspond. -/
theorem getElem?_of_forall₂ (h : List.Forall₂ R l l') (i : ℕ) :
    l[i]? = none ∧ l'[i]? = none ∨ ∃ a a', l[i]? = some a ∧ l'[i]? = some a' ∧ R a a' := by
  induction h generalizing i with
  | nil => exact .inl ⟨rfl, rfl⟩
  | cons ha _ ih =>
    cases i with
    | zero => exact .inr ⟨_, _, rfl, rfl, ha⟩
    | succ i => simpa using ih i

theorem forall₂_modify {f : α → α} {g : α' → α'} (hfg : ∀ a a', R a a' → R (f a) (g a'))
    (h : List.Forall₂ R l l') (i : ℕ) : List.Forall₂ R (l.modify i f) (l'.modify i g) := by
  induction h generalizing i with
  | nil =>
    rw [List.modify_nil, List.modify_nil]
    exact .nil
  | cons ha hl ih =>
    cases i with
    | zero => exact .cons (hfg _ _ ha) hl
    | succ i => exact .cons ha (ih i)

/-- What is done to each member may depend on its place, which is the same in both. -/
theorem forall₂_mapIdx {f : ℕ → α → β} {g : ℕ → α' → β'} (hfg : ∀ i a a', R a a' → S (f i a) (g i a'))
    (h : List.Forall₂ R l l') : List.Forall₂ S (l.mapIdx f) (l'.mapIdx g) := by
  induction h generalizing f g with
  | nil => exact .nil
  | cons ha _ ih =>
    rw [List.mapIdx_cons, List.mapIdx_cons]
    exact .cons (hfg _ _ _ ha) (ih fun i => hfg (i + 1))

end NestedCss
