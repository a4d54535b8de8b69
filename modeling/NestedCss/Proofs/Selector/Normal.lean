import Mathlib.Data.List.Chain
import NestedCss.Selector.Basic

/-!
# The normal form of selectors

White space is left in a selector only where it is a descendant combinator.

* `Selector.IsNormal`: the normal form, by what may stand next to what;
* `Selector.isNormalFrom`, `Selector.IsNormal.isNormalFrom`: a check of it from the front;
* **`Selector.isNormal_ofFragments`**: selectors made of fragments are in normal form;
* `Selector.normalizeFrom_eq_self`: nothing is left out of a normal form.
-/

namespace NestedCss

/-- Whether one fragment may come right before the other. White space may come neither before nor
behind a combinator or more white space. -/
def Fragment.mayPrecede (f g : Fragment) : Bool :=
  !(f.isSpace && (g.isSpace || g.isCombinator)) && !(f.isCombinator && g.isSpace)

namespace Fragment

variable {f g : Fragment}

theorem isSpace_eq_true_iff : f.isSpace = true ↔ f = .space := by
  cases f <;> simp [isSpace]

theorem isSpace_eq_false_iff : f.isSpace = false ↔ f ≠ .space := by
  rw [← Bool.not_eq_true, isSpace_eq_true_iff]

theorem mayPrecede_of_space : space.mayPrecede g = (!g.isSpace && !g.isCombinator) := by
  have hspace : space.isSpace = true := rfl
  have hcombinator : space.isCombinator = false := rfl
  simp [mayPrecede, hspace, hcombinator]

theorem mayPrecede_of_ne_space (hf : f ≠ .space) : f.mayPrecede g = !(f.isCombinator && g.isSpace) := by
  simp [mayPrecede, isSpace_eq_false_iff.mpr hf]

end Fragment

namespace Selector

/-- White space stands neither at an end of the selector nor next to white space or a combinator. -/
structure IsNormal (s : Selector) : Prop where
  head : s.fragments.head? ≠ some .space
  last : s.fragments.getLast? ≠ some .space
  chain : s.fragments.IsChain (Fragment.mayPrecede · ·)

/-- Checks for the normal form, where `joins` says that something other than white space or a
combinator came before. -/
def isNormalFrom (joins : Bool) : List Fragment → Bool
  | [] => true
  | .space :: rest => joins && startsCompound rest && isNormalFrom false rest
  | f :: rest => isNormalFrom (!f.isCombinator) rest

variable {joins : Bool} {fragments : List Fragment} {f g : Fragment}

theorem normalizeFrom_cons (hf : f ≠ .space) :
    normalizeFrom joins (f :: fragments) = f :: normalizeFrom (!f.isCombinator) fragments := by
  rw [normalizeFrom]
  exact hf

theorem isNormalFrom_cons (hf : f ≠ .space) :
    isNormalFrom joins (f :: fragments) = isNormalFrom (!f.isCombinator) fragments := by
  rw [isNormalFrom]
  exact hf

theorem startsCompound_cons (hf : f ≠ .space) : startsCompound (f :: fragments) = !f.isCombinator := by
  rw [startsCompound]
  exact hf

theorem ne_space_of_isNormalFrom (h : isNormalFrom false (f :: fragments)) : f ≠ .space := by
  rintro rfl
  simp [isNormalFrom] at h

theorem startsCompound_normalizeFrom (joins : Bool) (fragments : List Fragment) :
    startsCompound (normalizeFrom joins fragments) = startsCompound fragments := by
  fun_induction normalizeFrom joins fragments with
  | case1 => rfl
  | case2 joins rest h ih => simpa [startsCompound] using ih
  | case3 joins rest h ih => simpa [startsCompound] using ih
  | case4 joins f rest hf ih => cases f <;> simp_all [startsCompound]

theorem isNormalFrom_of_false (h : isNormalFrom false fragments) : isNormalFrom joins fragments := by
  cases fragments with
  | nil => rfl
  | cons f rest => cases f <;> simp_all [isNormalFrom]

theorem isNormalFrom_normalizeFrom (joins : Bool) (fragments : List Fragment) :
    isNormalFrom joins (normalizeFrom joins fragments) := by
  fun_induction normalizeFrom joins fragments with
  | case1 => rfl
  | case2 joins rest h ih =>
    simp only [Bool.and_eq_true] at h
    simp [isNormalFrom, startsCompound_normalizeFrom, h, ih]
  | case3 joins rest h ih => exact isNormalFrom_of_false ih
  | case4 joins f rest hf ih => cases f <;> simp_all [isNormalFrom]

/-- What is in normal form stays as it is. -/
theorem normalizeFrom_eq_self (h : isNormalFrom joins fragments) :
    normalizeFrom joins fragments = fragments := by
  fun_induction isNormalFrom joins fragments with
  | case1 => rfl
  | case2 joins rest ih =>
    simp only [Bool.and_eq_true] at h
    simp [normalizeFrom, h, ih]
  | case3 joins f rest hf ih => cases f <;> simp_all [normalizeFrom]

theorem ne_nil_of_startsCompound (h : startsCompound fragments) : fragments ≠ [] := by
  rintro rfl
  cases h

theorem getLast?_ne_space (h : isNormalFrom joins fragments) : fragments.getLast? ≠ some .space := by
  fun_induction isNormalFrom joins fragments with
  | case1 => simp
  | case2 joins rest ih =>
    simp only [Bool.and_eq_true] at h
    obtain ⟨f, rest, rfl⟩ := List.exists_cons_of_ne_nil (ne_nil_of_startsCompound h.1.2)
    rw [List.getLast?_cons_cons]
    exact ih h.2
  | case3 joins f rest hf ih =>
    cases rest with
    | nil => simpa using hf
    | cons g rest =>
      rw [List.getLast?_cons_cons]
      exact ih h

theorem isChain_mayPrecede (h : isNormalFrom joins fragments) :
    fragments.IsChain (Fragment.mayPrecede · ·) := by
  fun_induction isNormalFrom joins fragments with
  | case1 => exact .nil
  | case2 joins rest ih =>
    simp only [Bool.and_eq_true] at h
    cases rest with
    | nil => exact .singleton _
    | cons g rest =>
      refine .cons_cons ?_ (ih h.2)
      have hg := ne_space_of_isNormalFrom h.2
      have hcombinator : g.isCombinator = false := by simpa [startsCompound_cons hg] using h.1.2
      simp [Fragment.mayPrecede_of_space, hcombinator, Fragment.isSpace_eq_false_iff.mpr hg]
  | case3 joins f rest hf ih =>
    cases rest with
    | nil => exact .singleton _
    | cons g rest =>
      refine .cons_cons ?_ (ih h)
      rw [Fragment.mayPrecede_of_ne_space hf]
      cases hcombinator : f.isCombinator with
      | false => rfl
      | true =>
        rw [hcombinator] at h
        simp [Fragment.isSpace_eq_false_iff.mpr (ne_space_of_isNormalFrom h)]

theorem isNormalFrom_of_isChain (hchain : fragments.IsChain (Fragment.mayPrecede · ·))
    (hlast : fragments.getLast? ≠ some .space) (hhead : joins = false → fragments.head? ≠ some .space) :
    isNormalFrom joins fragments := by
  induction fragments generalizing joins with
  | nil => rfl
  | cons f rest ih =>
    obtain ⟨hnext, hrest⟩ := List.isChain_cons.mp hchain
    have hlast' : rest.getLast? ≠ some .space := fun h => hlast (by rw [List.getLast?_cons, h]; rfl)
    by_cases hf : f = .space
    · subst hf
      have hjoins : joins = true := by
        rw [← Bool.not_eq_false]
        exact fun h => hhead h rfl
      cases rest with
      | nil => exact absurd rfl hlast
      | cons g rest =>
        have hg := hnext g rfl
        simp only [Fragment.mayPrecede_of_space, Bool.and_eq_true, Bool.not_eq_true'] at hg
        have hspace := Fragment.isSpace_eq_false_iff.mp hg.1
        have hnormal : isNormalFrom false (g :: rest) := ih hrest hlast' fun _ => by simpa using hspace
        simp [isNormalFrom, hjoins, startsCompound_cons hspace, hg.2, hnormal]
    · rw [isNormalFrom_cons hf]
      refine ih hrest hlast' fun hcombinator hhead => ?_
      have hnext := hnext .space hhead
      have hspace : Fragment.space.isSpace = true := rfl
      rw [Fragment.mayPrecede_of_ne_space hf, hspace, Bool.and_true, hcombinator] at hnext
      cases hnext

theorem isNormal_of_isNormalFrom (h : isNormalFrom false fragments) : IsNormal ⟨fragments⟩ where
  head := by
    cases fragments with
    | nil => simp
    | cons f rest => simpa using ne_space_of_isNormalFrom h
  last := getLast?_ne_space h
  chain := isChain_mayPrecede h

theorem IsNormal.isNormalFrom {s : Selector} (h : s.IsNormal) : isNormalFrom false s.fragments :=
  isNormalFrom_of_isChain h.chain h.last fun _ => h.head

theorem IsNormal.ofFragments_eq {s : Selector} (h : s.IsNormal) : ofFragments s.fragments = s := by
  rw [ofFragments, normalizeFrom_eq_self h.isNormalFrom]

/-- **Selectors are in normal form**, whatever they are made of. -/
theorem isNormal_ofFragments (fragments : List Fragment) : (ofFragments fragments).IsNormal :=
  isNormal_of_isNormalFrom (isNormalFrom_normalizeFrom false fragments)

theorem normalizeFrom_sublist (joins : Bool) (fragments : List Fragment) :
    (normalizeFrom joins fragments).Sublist fragments := by
  fun_induction normalizeFrom joins fragments with
  | case1 => exact .slnil
  | case2 joins rest h ih => exact ih.cons_cons _
  | case3 joins rest h ih => exact ih.cons _
  | case4 joins f rest hf ih => exact ih.cons_cons _

theorem mem_of_mem_ofFragments {f : Fragment} (h : f ∈ (ofFragments fragments).fragments) :
    f ∈ fragments :=
  (normalizeFrom_sublist false fragments).subset h

end Selector

end NestedCss
