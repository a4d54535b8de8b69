import NestedCss.Proofs.Corresponding
import NestedCss.Proofs.Selector.Normal

/-!
# Equality of selectors

Fragments and selectors are compared by their keys, which leave out how values are quoted. Equality is
therefore an equivalence relation, and what searches, cuts and normalizes selectors comes to the same
when it is given keys.

* `Fragment.equivalence_same`, `Selector.same_refl`, `Selector.same_symm`, `Selector.same_trans`;
* `Selector.same_iff_forall₂`: selectors are equal fragment by fragment;
* `Selector.ofFragments_map_key`, `Selector.find?_key`, `Selector.splice_key`,
  `Selector.replaceAll_key`: taking keys before is the same as taking keys afterwards.
-/

namespace NestedCss

/-! ## Fragments -/

namespace Fragment

variable {f g : Fragment}

theorem same_iff : f.same g ↔ f.key = g.key := beq_iff_eq

/-- **Equality of fragments is an equivalence**, as that of their keys is. -/
theorem equivalence_same : Equivalence fun f g : Fragment => f.same g where
  refl _ := same_iff.mpr rfl
  symm h := same_iff.mpr (same_iff.mp h).symm
  trans h h' := same_iff.mpr ((same_iff.mp h).trans (same_iff.mp h'))

@[simp] theorem key_key (f : Fragment) : f.key.key = f.key := by
  fun_cases key f with
  | case1 => rfl
  | case2 => rfl
  | case3 f hattribute hquoted => rw [key]; exacts [hattribute, hquoted]

@[simp] theorem isCombinator_key (f : Fragment) : f.key.isCombinator = f.isCombinator := by
  fun_cases key f <;> rfl

@[simp] theorem key_space : key .space = .space := rfl

/-- Taking keys makes no fragment look like white space. -/
@[simp] theorem key_eq_space_iff : f.key = .space ↔ f = .space := by
  fun_cases key f <;> simp

@[simp] theorem key_pseudo (p : Pseudo) : key (.pseudo p) = .pseudo p := rfl

@[simp] theorem key_eq_pseudo_iff {p : Pseudo} : f.key = .pseudo p ↔ f = .pseudo p := by
  fun_cases key f <;> simp

@[simp] theorem key_type (name : Text) : key (.type name) = .type name := rfl

@[simp] theorem key_eq_type_iff {name : Text} : f.key = .type name ↔ f = .type name := by
  fun_cases key f <;> simp

@[simp] theorem same_key (f g : Fragment) : f.key.same g.key = f.same g := by
  rw [same, same, key_key, key_key]

end Fragment

namespace Selector

/-! ## Equality -/

section

variable {a b c : Selector}

theorem same_iff : a.same b ↔ a.key = b.key := by
  simp [same]

/-- **Equality of selectors is an equivalence** too, with `same_symm` and `same_trans`. -/
theorem same_refl (a : Selector) : a.same a := same_iff.mpr rfl

theorem same_symm (h : a.same b) : b.same a := same_iff.mpr (same_iff.mp h).symm

theorem same_trans (hab : a.same b) (hbc : b.same c) : a.same c :=
  same_iff.mpr ((same_iff.mp hab).trans (same_iff.mp hbc))

theorem same_comm (a b : Selector) : a.same b = b.same a := by
  rw [Bool.eq_iff_iff]
  exact ⟨same_symm, same_symm⟩

/-- Selectors are equal if their fragments are, one by one. -/
theorem same_iff_forall₂ :
    a.same b ↔ List.Forall₂ (fun f g => f.same g) a.fragments b.fragments := by
  simp only [same_iff, key, mk.injEq, Fragment.same_iff, forall₂_iff_map_eq]

@[simp] theorem key_key (a : Selector) : a.key.key = a.key := by
  simp [key]

@[simp] theorem same_key (a b : Selector) : a.key.same b.key = a.same b := by
  rw [same, same, key_key, key_key]

@[simp] theorem isEmpty_key (a : Selector) : a.key.isEmpty = a.isEmpty := by
  simp [key, isEmpty]

/-- Only the empty selector is equal to the empty one. -/
theorem isEmpty_eq_of_same (h : a.same b) : a.isEmpty = b.isEmpty := by
  rw [← isEmpty_key a, same_iff.mp h, isEmpty_key]

end

/-! ## Normal form -/

theorem startsCompound_map_key (fragments : List Fragment) :
    startsCompound (fragments.map Fragment.key) = startsCompound fragments := by
  fun_induction startsCompound fragments with
  | case1 => rfl
  | case2 rest ih => exact ih
  | case3 f rest hf =>
    rw [List.map_cons, startsCompound_cons (mt Fragment.key_eq_space_iff.mp hf), Fragment.isCombinator_key]

/-- The normal form looks for white space and combinators only, which keys leave as they are. -/
theorem normalizeFrom_map_key (joins : Bool) (fragments : List Fragment) :
    normalizeFrom joins (fragments.map Fragment.key) =
      (normalizeFrom joins fragments).map Fragment.key := by
  fun_induction normalizeFrom joins fragments with
  | case1 => rfl
  | case2 joins rest h ih =>
    rw [List.map_cons, Fragment.key_space, normalizeFrom, startsCompound_map_key, if_pos h, ih]
    rfl
  | case3 joins rest h ih =>
    rw [List.map_cons, Fragment.key_space, normalizeFrom, startsCompound_map_key, if_neg h, ih]
  | case4 joins f rest hf ih =>
    rw [List.map_cons, normalizeFrom_cons (mt Fragment.key_eq_space_iff.mp hf), Fragment.isCombinator_key,
      ih, List.map_cons]

/-- **Keys may be taken before** a selector is made of fragments or afterwards. -/
theorem ofFragments_map_key (fragments : List Fragment) :
    ofFragments (fragments.map Fragment.key) = (ofFragments fragments).key := by
  rw [ofFragments, normalizeFrom_map_key]
  rfl

/-! ## Search, cutting and replacement -/

theorem startsWith_map_key (target fragments : List Fragment) :
    startsWith (target.map Fragment.key) (fragments.map Fragment.key) = startsWith target fragments := by
  fun_induction startsWith target fragments with
  | case1 => rfl
  | case2 => rfl
  | case3 t target f fragments ih =>
    rw [List.map_cons, List.map_cons, startsWith, Fragment.same_key, ih]

theorem findIn_map_key (target fragments : List Fragment) :
    findIn (target.map Fragment.key) (fragments.map Fragment.key) = findIn target fragments := by
  induction fragments with
  | nil => rfl
  | cons f rest ih =>
    rw [findIn, ← startsWith_map_key, ← ih, List.map_cons, findIn]

/-- **A search does not see quotes**: among keys the key is found where the selector is. -/
theorem find?_key (s t : Selector) (start : ℕ) : s.key.find? t.key start = s.find? t start := by
  rw [find?, find?, isEmpty_key, key, key, ← List.map_drop, findIn_map_key]

theorem contains_key (s t : Selector) : s.key.contains t.key = s.contains t := by
  rw [contains, contains, find?_key]

/-- What is put in the place of something may be replaced by its key, if all the rest is. -/
theorem splice_key (s t : Selector) (start stop : ℕ) :
    s.key.splice start stop t.key = (s.splice start stop t).key := by
  simp only [splice, key, ← List.map_take, ← List.map_drop, ← List.map_append, ofFragments_map_key]

theorem replaceIn_map_key (target replacement fragments : List Fragment) :
    replaceIn (target.map Fragment.key) (replacement.map Fragment.key) (fragments.map Fragment.key) =
      (replaceIn target replacement fragments).map Fragment.key := by
  fun_induction replaceIn target replacement fragments with
  | case1 => rw [List.map_nil, replaceIn]
  | case2 f rest h ih =>
    rw [List.map_cons, replaceIn, ← List.map_cons, startsWith_map_key, List.isEmpty_map, if_pos h,
      List.length_map, ← List.map_drop, ih, List.map_append]
  | case3 f rest h ih =>
    rw [List.map_cons, replaceIn, ← List.map_cons, startsWith_map_key, List.isEmpty_map, if_neg h,
      ih, List.map_cons]

/-- **Replacement commutes with keys**, since it replaces what a search finds. -/
theorem replaceAll_key (s t replacement : Selector) :
    s.key.replaceAll t.key replacement.key = (s.replaceAll t replacement).key := by
  rw [replaceAll, replaceAll, ← ofFragments_map_key, ← replaceIn_map_key]
  rfl

end Selector

end NestedCss
