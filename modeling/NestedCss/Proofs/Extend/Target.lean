import NestedCss.Extend.Target
import NestedCss.Proofs.Selector.Nonempty

/-!
# Properties of targets

What can be said of every target that a text lists.

* `Target.mode_of_readList`: without the keyword `all` targets are compared as a whole;
* `Target.isEmpty_of_readList`: such a target is not empty;
* `exists_readList_of_takeExtends`: markers at the end of a selector list their targets like others.
-/

namespace NestedCss.Extend

variable {t : Text} {targets : List Target}

/-- Without the keyword `all` every target is compared as a whole. -/
theorem Target.mode_of_readList (h : readList false t = some targets) :
    ∀ target ∈ targets, target.mode = .strict := by
  simp only [readList] at h
  split at h
  · next list _ _ =>
    cases h
    intro target htarget
    obtain ⟨s, -, rfl⟩ := List.mem_map.mp htarget
    simp only [ofSelector]
    split <;> rfl
  · cases h

theorem Target.isEmpty_of_readList {allowsAll : Bool}
    (h : readList allowsAll t = some targets) :
    ∀ target ∈ targets, target.mode = .strict → target.selector.isEmpty = false := by
  simp only [readList] at h
  split at h
  · next list _ hlist =>
    cases h
    intro target htarget hstrict
    obtain ⟨s, hs, rfl⟩ := List.mem_map.mp htarget
    have hempty := Selector.isEmpty_of_scanList hlist s hs
    simp only [ofSelector] at hstrict ⊢
    split at hstrict
    · cases allowsAll
      · exact hempty
      · cases hstrict
    · exact hempty
  · cases h

theorem exists_of_mapM_eq_some {α β : Type} {f : α → Option β} {l : List α} {out : List β}
    (h : l.mapM f = some out) : ∀ b ∈ out, ∃ a ∈ l, f a = some b := by
  induction l generalizing out with
  | nil =>
    cases h
    exact fun b hb => absurd hb List.not_mem_nil
  | cons a l ih =>
    rw [List.mapM_cons] at h
    obtain ⟨b, hb, h⟩ := Option.bind_eq_some_iff.mp h
    obtain ⟨out', hout, h⟩ := Option.bind_eq_some_iff.mp h
    cases h
    intro b' hb'
    rcases List.mem_cons.mp hb' with rfl | hb'
    · exact ⟨a, List.mem_cons_self, hb⟩
    · obtain ⟨a', ha', hf⟩ := ih hout b' hb'
      exact ⟨a', List.mem_cons_of_mem _ ha', hf⟩

/-- The targets of the markers at the end of a selector were listed by one of them. -/
theorem exists_readList_of_takeExtends {s stripped : Selector}
    (h : s.takeExtends? = some (stripped, targets)) :
    ∀ target ∈ targets, ∃ text list, Target.readList true text = some list ∧ target ∈ list := by
  unfold Selector.takeExtends? at h
  dsimp only at h
  split at h
  · cases h
  · obtain ⟨lists, hlists, h⟩ := Option.bind_eq_some_iff.mp h
    cases h
    intro target htarget
    obtain ⟨list, hlist, htarget⟩ := List.mem_flatten.mp htarget
    obtain ⟨text, -, hread⟩ := exists_of_mapM_eq_some hlists list hlist
    exact ⟨text, list, hread, htarget⟩

end NestedCss.Extend
