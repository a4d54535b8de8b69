import NestedCss.Proofs.Css.Order
import NestedCss.Proofs.Flatten.Flat

/-!
# Blocks keep their order

What is done in the body of a statement adds only within the enclosure of that, so behind the body the
right edge is where it was in front of it.

* `Enters.advances`, `Run.advances`: entering a block and a run keep the tree orderly;
* **`blocks_finish`**: blocks come out in the order in which they were added.
-/

namespace NestedCss

namespace Flatten

open Css (Head NodeId)
open Extend (RuleId)

variable {o : Origin} {c : Context} {s s' : State} {stmt : Stmt} {stmts : List Stmt}
  {r : Context × State}

theorem advances_enterBlock (ho : s.tree.Ordered c.parent) (hc : c.Fits s.tree) (head : Head RuleId) :
    s.tree.Advances c.parent (s.enterBlock c head Head.isRule).2.tree
      (s.enterBlock c head Head.isRule).1.parent :=
  ho.addBlock hc.isFlat hc.valid (fun _ => .inl) fun _ => eq_false_of_getLast?_rdropWhile

theorem advances_enterCopy (ho : s.tree.Ordered c.parent) (hc : c.Fits s.tree)
    (hlast : ∀ a, (s.tree.heads c.parent).getLast? = some a → a.isRule = false) :
    s.tree.Advances c.parent (enterCopy c s).2.tree (enterCopy c s).1.parent := by
  rw [enterCopy]
  split
  · exact ho.advances hc.isFlat.sound
  · have hself : (s.tree.heads c.parent).rdropWhile (fun _ => false) = s.tree.heads c.parent := by simp
    exact ho.addBlock hc.isFlat hc.valid (by simp) fun a ha => hlast a (hself ▸ ha)

theorem advances_enterMedia (ho : s.tree.Ordered c.parent) (hc : c.Fits s.tree) (query : Text) :
    s.tree.Advances c.parent (enterMedia c query s).2.tree (enterMedia c query s).1.parent := by
  have hopen : s.tree.Advances c.parent (openMedia c query s).2.tree (openMedia c query s).1.parent := by
    refine ho.addBlock hc.isFlat hc.valid ?_ fun a ha => (hc.leftByMedia ha).1
    simp only [Context.leftByMedia, Bool.or_eq_true, Bool.and_eq_true]
    exact fun a ha => ha.imp_right And.right
  have hfits := (hc.openMedia query).1
  refine hopen.trans (advances_enterCopy hopen.ordered hfits fun a ha => ?_) hfits.valid
  rw [heads_openMedia hc, List.getLast?_concat] at ha
  cases ha
  rfl

theorem advances_enterAtRule (ho : s.tree.Ordered c.parent) (hc : c.Fits s.tree) (name params : Text) :
    s.tree.Advances c.parent (enterAtRule c name params s).2.tree
      (enterAtRule c name params s).1.parent := by
  have hopen : s.tree.Advances c.parent (openAtRule c name params s).2.tree
      (openAtRule c name params s).1.parent :=
    ho.addBlock hc.isFlat hc.valid (fun _ => .inl) fun _ => eq_false_of_getLast?_rdropWhile
  have hfits := (hc.openAtRule name params).1
  rw [enterAtRule]
  split
  · exact hopen
  · refine hopen.trans (advances_enterCopy hopen.ordered hfits fun a ha => ?_) hfits.valid
    rw [heads_openAtRule hc, List.getLast?_concat] at ha
    cases ha
    rfl

theorem Enters.advances (h : Enters o c s stmt r) (hc : c.Fits s.tree) (ho : s.tree.Ordered c.parent) :
    s.tree.Advances c.parent r.2.tree r.1.parent := by
  cases h with
  | keyframe => exact advances_enterBlock ho hc _
  | rule => exact advances_enterBlock (s := ⟨s.tree, _, s.log⟩) ho hc _
  | media => exact advances_enterMedia ho hc _
  | atRule => exact advances_enterAtRule ho hc _ _
  | atRoot =>
    -- the place is higher up, but in the same enclosure
    have henclosure : s.tree.enclosure (c.parent.bind (s.tree.climb Head.isRule)) =
        s.tree.enclosure c.parent := Css.Tree.climb_climb hc.isFlat.sound hc.valid (by simp +contextual)
    have hstays := ho.advances hc.isFlat.sound
    exact ⟨ho.orderly, hstays.grows, henclosure ▸ ho.rightmost, henclosure ▸ hstays.encloses⟩

theorem Adds.advances (h : Adds o c s stmt s') (hc : c.Fits s.tree) (ho : s.tree.Ordered c.parent) :
    s.tree.Advances c.parent s'.tree c.parent := by
  cases h with
  | declaration | atRule | comment => exact ho.addLeaf hc.isFlat.sound hc.valid rfl
  | dropped | charset | charsetBlock | extend | ignored | message =>
    exact ho.advances hc.isFlat.sound

/-- **A run keeps the tree orderly** and stays within the enclosure that it starts in. -/
theorem Run.advances (h : Run o c stmts s s') (hc : c.Fits s.tree) (ho : s.tree.Ordered c.parent) :
    s.tree.Advances c.parent s'.tree c.parent := by
  induction h with
  | nil => exact ho.advances hc.isFlat.sound
  | plain hadds _ ih =>
    have hadd := hadds.advances hc ho
    have hfits := (hadds.fits hc).1
    exact hadd.trans (ih hfits hadd.ordered) hfits.valid
  | @block c stmt rest s s₂ s' r henters hbody _ ihbody ih =>
    have hr := (henters.fits hc).1
    obtain ⟨hc₂, hcleave, -⟩ := fits_leave henters hbody hc
    have henter := henters.advances hc ho
    have hinside := henter.trans (ihbody hr henter.ordered) hr.valid
    -- all of it is within the enclosure, so the place in front of the block still stands
    have houtside := ho.stays hc.isFlat.sound hc.valid hinside.orderly hinside.grows
    have hleave : s₂.tree.Advances c.parent (leave c stmt s₂).tree c.parent := by
      rcases leave_tree c stmt s₂ with hsame | hends
      · rw [hsame]
        exact houtside.ordered.advances hc₂.isFlat.sound
      · rw [hends]
        exact houtside.ordered.endGroup hc₂.isFlat.sound hc₂.valid _
    exact (houtside.trans hleave hc₂.valid).trans (ih hcleave hleave.ordered) hcleave.valid

theorem ordered_initial (dialect : Dialect) : (State.initial dialect).tree.Ordered none where
  orderly i j b _ _ hj _ _ := by
    simp [State.initial, Css.Tree.empty, Css.Tree.blockAt, Css.Tree.head?] at hj
  rightmost i hi := by cases hi

/-- **Blocks come out in the order in which they were added**: the output has the statements of the tree
in some order, each once, and that order leaves blocks where they are. -/
theorem blocks_finish (h : addStmts o stmts {} (.initial o.dialect) = .ok () s) :
    Css.occurrences s.finish = s.tree.order.filterMap (fun i =>
        (s.tree.occurrence? i).map (Css.Occurrence.map s.store.resolve.selectors)) ∧
      s.tree.order.Perm (List.range s.tree.nodes.length) ∧
      s.tree.order.filter s.tree.blockAt =
        (List.range s.tree.nodes.length).filter s.tree.blockAt := by
  have hrun := addStmts_eq_ok.mp h
  have hflat := (hrun.fits (fits_initial o.dialect)).1.isFlat
  have horderly := (hrun.advances (fits_initial o.dialect) (ordered_initial o.dialect)).orderly
  refine ⟨?_, Css.Tree.order_perm hflat.sound, horderly.filter_order hflat⟩
  rw [State.finish, Css.Tree.occurrences_finish_map _ hflat.sound,
    Css.Tree.occurrences_finish hflat.sound, List.map_filterMap]

/-- In the example, `.f` stands in a copy of the first `@media`, number 7, because the second one, number 4,
came in between. -/
theorem blocks_finish_mixedSheet : ∃ s,
    addStmts (blank .scss) mixedSheet {} (.initial .scss) = .ok () s ∧
      s.tree.order.filter s.tree.blockAt = [0, 2, 3, 4, 5, 7, 8] ∧
      s.tree.order.Perm (List.range 11) := by
  have hrun : ∃ s, addStmts (blank .scss) mixedSheet {} (.initial .scss) = .ok () s ∧
      s.tree.nodes.length = 11 ∧ (List.range 11).filter s.tree.blockAt = [0, 2, 3, 4, 5, 7, 8] :=
    exists_ok_of_run (by decide +kernel)
  obtain ⟨s, hs, hlength, hfilter⟩ := hrun
  obtain ⟨-, hperm, horder⟩ := blocks_finish hs
  rw [hlength] at hperm horder
  exact ⟨s, hs, horder.trans hfilter, hperm⟩

end Flatten

end NestedCss
