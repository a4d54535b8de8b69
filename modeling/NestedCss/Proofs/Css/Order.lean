import Mathlib.Data.List.Sort
import NestedCss.Proofs.Css.Finish
import NestedCss.Proofs.Css.Flat

/-!
# The order of blocks

In the finished tree a block must not overtake an earlier one. So nothing is added to what stands before a
block any more, leaves aside, and a block is added where everything around it is the last of its siblings,
or in a copy that is.

* `Tree.Orderly`: nothing was added before a block, `Tree.Orderly.filter_order`: then the blocks come in
  the order of addition;
* `Tree.Rightmost`: everything around a place is the last of its siblings;
* `Tree.enclosure`: the statement whose block blocks are added in, whatever style rules and `@media` rules
  they leave;
* **`Tree.Ordered.addBlock`**: adding a block keeps the tree orderly and adds only within the enclosure.
-/

namespace NestedCss.Css.Tree

variable {σ : Type} {t t' t'' : Tree σ} {i j k : ℕ} {p p' p'' a : Option NodeId} {n : Node σ} {head : Head σ}
  {through : Head σ → Bool}

/-! ## Orderly trees -/

/-- Whether a statement of the tree has a block. -/
def blockAt (t : Tree σ) (i : NodeId) : Bool := (t.head? i).any Head.isBlock

/-- When a block was added, the blocks in its older siblings were already there. -/
def Orderly (t : Tree σ) : Prop :=
  ∀ i j b : ℕ, t.parent? i = t.parent? j → i < j → t.blockAt j → t.blockAt b → i ∈ t.path b → b < j

theorem blockAt_of_mem_path (ht : t.IsFlat) (h : i ∈ t.path j) (hj : t.blockAt j) : t.blockAt i := by
  induction j using Nat.strong_induction_on with
  | _ j ih =>
    rw [path_eq ht.sound] at h
    rcases List.mem_append.mp h with h | h
    · cases hp : t.parent? j with
      | none => simp [hp, around] at h
      | some p =>
        rw [hp] at h
        obtain ⟨b, hb, hblock⟩ := ht.isBlock_of_parent? hp
        exact ih p (ht.sound j p hp) h (by simp [blockAt, hb, hblock])
    · rwa [List.mem_singleton.mp h]

theorem mem_path_of_mem_preorder (ht : t.Sound) (h : j ∈ t.preorder i) : i ∈ t.path j := by
  induction i using ht.descend with
  | _ i ih =>
    rw [preorder_eq ht] at h
    rcases List.mem_cons.mp h with rfl | h
    · exact mem_path_self ht j
    · obtain ⟨k, hk, hj⟩ := List.mem_flatMap.mp h
      refine mem_path_trans ht ?_ (ih k hk hj)
      rw [path_eq ht k, (mem_children.mp hk).2]
      exact List.mem_append_left _ (mem_path_self ht i)

theorem pairwise_children (t : Tree σ) (p : Option NodeId) : (t.children p).Pairwise (· < ·) := by
  rw [children_eq]
  exact List.pairwise_lt_range.filter _

/-- The blocks in siblings come in the order of addition if those in each one do. -/
theorem Orderly.pairwise_children (ho : t.Orderly) (ht : t.IsFlat)
    (h : ∀ j ∈ t.children p, (t.preorder j).Pairwise fun b b' => t.blockAt b → t.blockAt b' → b < b') :
    ((t.children p).flatMap t.preorder).Pairwise fun b b' => t.blockAt b → t.blockAt b' → b < b' := by
  rw [List.pairwise_flatMap]
  refine ⟨h, ?_⟩
  refine (t.pairwise_children p).imp_of_mem fun {i j} hi hj hij b hb b' hb' hblock hblock' => ?_
  have hpath := mem_path_of_mem_preorder ht.sound hb
  have hpath' := mem_path_of_mem_preorder ht.sound hb'
  have hsiblings : t.parent? i = t.parent? j :=
    (mem_children.mp hi).2.trans (mem_children.mp hj).2.symm
  have hlt := ho i j b hsiblings hij (blockAt_of_mem_path ht hpath' hblock') hblock hpath
  exact hlt.trans_le (le_of_mem_path ht.sound hpath')

theorem Orderly.pairwise_preorder (ho : t.Orderly) (ht : t.IsFlat) (i : ℕ) :
    (t.preorder i).Pairwise fun b b' => t.blockAt b → t.blockAt b' → b < b' := by
  induction i using ht.sound.descend with
  | _ i ih =>
    rw [preorder_eq ht.sound]
    refine List.pairwise_cons.mpr ⟨fun b hb _ _ => ?_, ho.pairwise_children ht ih⟩
    obtain ⟨j, hj, hb⟩ := List.mem_flatMap.mp hb
    have hle := le_of_mem_path ht.sound (mem_path_of_mem_preorder ht.sound hb)
    exact (ht.sound.lt_of_mem_children hj).trans_le hle

/-- **The blocks of an orderly tree come in the order of addition.** -/
theorem Orderly.filter_order (ho : t.Orderly) (ht : t.IsFlat) :
    t.order.filter t.blockAt = (List.range t.nodes.length).filter t.blockAt := by
  refine List.Perm.eq_of_pairwise' (r := (· < ·)) ?_ (List.pairwise_lt_range.filter _)
    ((order_perm ht.sound).filter _)
  rw [List.pairwise_filter]
  exact ho.pairwise_children ht fun j _ => ho.pairwise_preorder ht j

/-! ## The right edge -/

/-- Everything around what stands in the parent is the last of its siblings. -/
def Rightmost (t : Tree σ) (p : Option NodeId) : Prop :=
  ∀ i ∈ t.around p, ∀ j < t.nodes.length, t.parent? j = t.parent? i → j ≤ i

theorem getLast?_eq_some_of_pairwise {l : List ℕ} (hl : l.Pairwise (· < ·)) :
    l.getLast? = some i ↔ i ∈ l ∧ ∀ j ∈ l, j ≤ i := by
  constructor
  · intro hlast
    obtain ⟨rest, rfl⟩ := List.getLast?_eq_some_iff.mp hlast
    refine ⟨by simp, fun j hj => ?_⟩
    rcases List.mem_append.mp hj with hj | hj
    · exact ((List.pairwise_append.mp hl).2.2 j hj i (by simp)).le
    · exact (List.mem_singleton.mp hj).le
  · rintro ⟨hi, hmax⟩
    obtain ⟨rest, last, rfl⟩ := (List.eq_nil_or_concat' l).resolve_left (List.ne_nil_of_mem hi)
    have hle := hmax last (by simp)
    rcases List.mem_append.mp hi with hi | hi
    · have hlt := (List.pairwise_append.mp hl).2.2 i hi last (by simp)
      omega
    · rw [List.mem_singleton.mp hi, List.getLast?_concat]

theorem hasFollowingSibling_eq_false (hi : i < t.nodes.length) :
    t.hasFollowingSibling i = false ↔ ∀ j < t.nodes.length, t.parent? j = t.parent? i → j ≤ i := by
  rw [hasFollowingSibling, lastChild?, bne_eq_false_iff_eq,
    getLast?_eq_some_of_pairwise (t.pairwise_children _)]
  simp only [mem_children, hi, and_self, true_and, and_imp]

/-- `t'` extends `t` by statements in the block of `a`. -/
structure GrowsWithin (t : Tree σ) (a : Option NodeId) (t' : Tree σ) : Prop extends t.Extends t' where
  sound : t'.Sound
  mem_around : ∀ j < t'.nodes.length, t.nodes.length ≤ j → ∀ x, a = some x →
    x ∈ t'.around (t'.parent? j)

namespace GrowsWithin

theorem refl (ht : t.Sound) (a : Option NodeId) : t.GrowsWithin a t :=
  ⟨.refl t, ht, fun _ hj hj' => absurd hj (Nat.not_lt.mpr hj')⟩

theorem trans (h : t.GrowsWithin a t') (h' : t'.GrowsWithin a t'') : t.GrowsWithin a t'' := by
  refine ⟨h.toExtends.trans h'.toExtends, h'.sound, fun j hj hj' x hx => ?_⟩
  by_cases hlt : j < t'.nodes.length
  · rw [h'.parent?_eq j hlt, h'.around_eq h.sound h'.sound (h.sound.valid j)]
    exact h.mem_around j hlt hj' x hx
  · exact h'.mem_around j hj (Nat.le_of_not_lt hlt) x hx

/-- What grows in a block grows in those around it. -/
theorem outer {b : Option NodeId} (h : t.GrowsWithin b t') (ht : t.Sound) (hb : t.Valid b)
    (hab : ∀ x, a = some x → x ∈ t.around b) : t.GrowsWithin a t' := by
  refine ⟨h.toExtends, h.sound, fun j hj hj' x hx => ?_⟩
  have hx := hab x hx
  cases b with
  | none => cases hx
  | some y =>
    rw [← h.around_eq ht h.sound hb] at hx
    exact mem_around_trans h.sound hx (h.mem_around j hj hj' y rfl)

end GrowsWithin

/-- What grows in a block does not follow what is around it. -/
theorem Rightmost.mono (h : t.Rightmost a) (ht : t.Sound) (ha : t.Valid a) (hg : t.GrowsWithin a t') :
    t'.Rightmost a := by
  intro i hi j hj hparent
  have hold := hi
  rw [hg.around_eq ht hg.sound ha] at hold
  have hilt : i < t.nodes.length := by
    cases a with
    | none => cases hold
    | some x => exact (le_of_mem_path ht hold).trans_lt (ha x rfl)
  rw [hg.parent?_eq i hilt] at hparent
  by_cases hlt : j < t.nodes.length
  · rw [hg.parent?_eq j hlt] at hparent
    exact h i hold j hlt hparent
  · cases a with
    | none => cases hold
    | some x =>
      have hx := hg.mem_around j hj (Nat.le_of_not_lt hlt) x rfl
      rw [hparent, ← hg.parent?_eq i hilt] at hx
      have hxi := lt_of_mem_around_parent? hg.sound hx
      have hix := le_of_mem_path ht hold
      omega

/-! ## One more statement -/

theorem lt_of_blockAt (h : t.blockAt i) : i < t.nodes.length := by
  by_contra hc
  simp [blockAt, head?, List.getElem?_eq_none (Nat.le_of_not_lt hc)] at h

theorem Extends.blockAt_eq (h : t.Extends t') (hi : i < t.nodes.length) :
    t'.blockAt i = t.blockAt i := by
  rw [blockAt, blockAt, h.head?_eq i hi]

theorem growsWithin_push (ht : t.Sound) (hn : t.Valid n.parent)
    (ha : ∀ x, a = some x → x ∈ t.around n.parent) : t.GrowsWithin a (t.push n) := by
  have hext := t.extends_push n
  refine ⟨hext, ht.push hn, fun j hj hj' x hx => ?_⟩
  rw [length_push] at hj
  obtain rfl : j = t.nodes.length := by omega
  rw [parent?_push_length, hext.around_eq ht (ht.push hn) hn]
  exact ha x hx

theorem mem_around_self (ht : t.Sound) (p : Option NodeId) : ∀ x, p = some x → x ∈ t.around p := by
  rintro x rfl
  exact mem_path_self ht x

theorem Rightmost.push (h : t.Rightmost n.parent) (ht : t.Sound) (hn : t.Valid n.parent) :
    (t.push n).Rightmost (some t.nodes.length) := by
  have hgrows := growsWithin_push ht hn (mem_around_self ht n.parent)
  intro i hi j hj hparent
  rw [around_some hgrows.sound, parent?_push_length] at hi
  rcases List.mem_append.mp hi with hi | hi
  · exact h.mono ht hn hgrows i hi j hj hparent
  · rw [length_push] at hj
    rw [List.mem_singleton.mp hi]
    exact Nat.le_of_lt_succ hj

/-- A leaf may be added anywhere, and a block at the right edge. -/
theorem Orderly.push (ho : t.Orderly) (ht : t.Sound) (hn : t.Valid n.parent)
    (hr : n.head.isBlock → t.Rightmost n.parent) : (t.push n).Orderly := by
  have hext := t.extends_push n
  intro i j b hparent hij hj hb hi
  have hjlt := lt_of_blockAt hj
  have hblt := lt_of_blockAt hb
  rw [length_push] at hjlt hblt
  by_cases hblast : b = t.nodes.length
  · -- the new block is in `i`, which is on the right edge, so `j` is not behind `i`
    subst hblast
    have hblock : n.head.isBlock := by simpa [blockAt, head?_push_length] using hb
    have hright := (hr hblock).push ht hn
    have hle := hright i hi j (by simpa using hjlt) hparent.symm
    omega
  by_cases hjlast : j = t.nodes.length
  · omega
  have hjlt : j < t.nodes.length := by omega
  have hblt : b < t.nodes.length := by omega
  rw [hext.parent?_eq i (hij.trans hjlt), hext.parent?_eq j hjlt] at hparent
  rw [hext.blockAt_eq hjlt] at hj
  rw [hext.blockAt_eq hblt] at hb
  rw [hext.path_eq ht (ht.push hn) hblt] at hi
  exact ho i j b hparent hij hj hb hi

/-- What only marks the ends of groups keeps the tree orderly. -/
theorem Orderly.of_extends (ho : t.Orderly) (h : t.Extends t') (ht : t.Sound) (ht' : t'.Sound)
    (hlength : t'.nodes.length = t.nodes.length) : t'.Orderly := by
  intro i j b hparent hij hj hb hi
  have hjlt := hlength ▸ lt_of_blockAt hj
  have hblt := hlength ▸ lt_of_blockAt hb
  rw [h.parent?_eq i (hij.trans hjlt), h.parent?_eq j hjlt] at hparent
  rw [h.blockAt_eq hjlt] at hj
  rw [h.blockAt_eq hblt] at hb
  rw [h.path_eq ht ht' hblt] at hi
  exact ho i j b hparent hij hj hb hi

/-! ## Enclosures -/

theorem Extends.climb_eq (h : t.Extends t') (ht : t.Sound) (ht' : t'.Sound) (hi : i < t.nodes.length) :
    t'.climb through i = t.climb through i := by
  induction i using Nat.strong_induction_on with
  | _ i ih =>
    obtain ⟨n, hn⟩ := exists_node hi
    obtain ⟨n', hn'⟩ := exists_node (hi.trans_le h.length_le)
    have hhead : n'.head = n.head := by
      have := h.head?_eq i hi
      rw [head?_eq_some hn, head?_eq_some hn'] at this
      exact Option.some.inj this
    have hparent : n'.parent = n.parent := by
      rw [← Tree.parent?_eq hn, ← Tree.parent?_eq hn', h.parent?_eq i hi]
    rw [Tree.climb_eq ht hn, Tree.climb_eq ht' hn', hhead, hparent]
    cases hq : n.parent with
    | none => rfl
    | some q =>
      have hqi : t.parent? i = some q := by rw [Tree.parent?_eq hn, hq]
      rw [Option.bind_some, Option.bind_some, ih q (ht i q hqi) (ht.valid i q hqi)]

/-- The innermost statement around that is neither a style rule nor a `@media`. -/
def enclosure (t : Tree σ) (p : Option NodeId) : Option NodeId :=
  p.bind (t.climb fun a => a.isRule || a.isMedia)

theorem Sound.valid_enclosure (ht : t.Sound) (hp : t.Valid p) : t.Valid (t.enclosure p) :=
  ht.valid_climb hp _

theorem mem_around_of_enclosure (ht : t.Sound) (hp : t.Valid p) :
    ∀ x, t.enclosure p = some x → x ∈ t.around p :=
  fun _ hx => (exists_of_climb ht hp hx).1

theorem Extends.enclosure_eq (h : t.Extends t') (ht : t.Sound) (ht' : t'.Sound) (hp : t.Valid p) :
    t'.enclosure p = t.enclosure p := by
  cases p with
  | none => rfl
  | some i => exact h.climb_eq ht ht' (hp i rfl)

theorem enclosure_push (ht : t.Sound) (hn : t.Valid n.parent) :
    (t.push n).enclosure (some t.nodes.length) =
      if n.head.isRule || n.head.isMedia then t.enclosure n.parent else some t.nodes.length := by
  have hlast : (t.push n).nodes[t.nodes.length]? = some n := by simp [Tree.push]
  rw [enclosure, Option.bind_some, climb_eq (ht.push hn) hlast,
    ← (t.extends_push n).enclosure_eq ht (ht.push hn) hn]
  rfl

/-- A `@media` stands right in its enclosure. -/
theorem IsFlat.enclosure_of_isMedia (ht : t.IsFlat) (hk : t.nodes[k]? = some n)
    (hmedia : n.head.isMedia) : t.enclosure (some k) = n.parent := by
  rw [enclosure, Option.bind_some, climb_eq ht.sound hk, if_pos (by simp [hmedia])]
  cases hq : n.parent with
  | none => rfl
  | some q =>
    have hqk : t.parent? k = some q := by rw [parent?_eq hk, hq]
    obtain ⟨m, hm⟩ := exists_node (ht.sound.valid k q hqk)
    have hlast : (t.heads n.parent).getLast? = some m.head := by
      rw [hq, heads_some ht.sound (head?_eq_some hm), List.getLast?_concat]
    have hm' := (ht.flat _ (mem_occurrences hk)).media hmedia m.head hlast
    rw [Option.bind_some, climb_eq ht.sound hm, if_neg (by simp [hm'])]

/-- A block that leaves style rules, and maybe `@media` rules, comes to stand in the enclosure or in a
`@media` in the enclosure. -/
theorem IsFlat.stop_cases (ht : t.IsFlat) (hp : t.Valid p)
    (hthrough : ∀ b, through b = true → b.isRule = true ∨ b.isMedia = true)
    (hrule : ∀ b, ((t.heads p).rdropWhile through).getLast? = some b → b.isRule = false) :
    p.bind (t.climb through) = t.enclosure p ∨
      ∃ k n, p.bind (t.climb through) = some k ∧ t.nodes[k]? = some n ∧ n.head.isMedia = true ∧
        n.parent = t.enclosure p := by
  have henclosure : t.enclosure (p.bind (t.climb through)) = t.enclosure p :=
    climb_climb ht.sound hp fun b hb => by simpa using hthrough b hb
  rw [← heads_climb ht.sound hp] at hrule
  rw [← henclosure]
  cases hk : p.bind (t.climb through) with
  | none => exact .inl rfl
  | some k =>
    obtain ⟨-, n, hn, -⟩ := exists_of_climb ht.sound hp hk
    have hnrule : n.head.isRule = false := by
      apply hrule
      rw [hk, heads_some ht.sound (head?_eq_some hn), List.getLast?_concat]
    by_cases hmedia : n.head.isMedia = true
    · exact .inr ⟨k, n, rfl, hn, hmedia, (ht.enclosure_of_isMedia hn hmedia).symm⟩
    · left
      rw [enclosure, Option.bind_some, climb_eq ht.sound hn, if_neg (by simp [hnrule, hmedia])]

/-! ## Adding blocks -/

/-- From place `p` in `t` to place `p'` in `t'`: the tree stays orderly, grows only within the enclosure
of `p`, and the enclosure of `p'` is within that and at the right edge. -/
structure Advances (t : Tree σ) (p : Option NodeId) (t' : Tree σ) (p' : Option NodeId) : Prop where
  orderly : t'.Orderly
  grows : t.GrowsWithin (t.enclosure p) t'
  rightmost : t'.Rightmost (t'.enclosure p')
  encloses : ∀ x, t.enclosure p = some x → x ∈ t'.around (t'.enclosure p')

/-- Blocks may be added below the place. -/
structure Ordered (t : Tree σ) (p : Option NodeId) : Prop where
  orderly : t.Orderly
  rightmost : t.Rightmost (t.enclosure p)

theorem Ordered.advances (h : t.Ordered p) (ht : t.Sound) : t.Advances p t p :=
  ⟨h.orderly, .refl ht _, h.rightmost, mem_around_self ht _⟩

namespace Advances

theorem ordered (h : t.Advances p t' p') : t'.Ordered p' := ⟨h.orderly, h.rightmost⟩

theorem trans (h : t.Advances p t' p') (h' : t'.Advances p' t'' p'') (hp' : t'.Valid p') :
    t.Advances p t'' p'' := by
  have hsound := h.grows.sound
  have hvalid := hsound.valid_enclosure hp'
  refine ⟨h'.orderly, h.grows.trans (h'.grows.outer hsound hvalid h.encloses), h'.rightmost,
    fun x hx => ?_⟩
  have hx := h.encloses x hx
  cases hy : t'.enclosure p' with
  | none => simp [hy, around] at hx
  | some y =>
    refine mem_around_trans h'.grows.sound ?_ (h'.encloses y hy)
    rw [h'.grows.path_eq hsound h'.grows.sound (hvalid y hy)]
    rwa [hy] at hx

end Advances

/-- One stays at a place when the tree grows within its enclosure. -/
theorem Ordered.stays (h : t.Ordered p) (ht : t.Sound) (hp : t.Valid p) (ho : t'.Orderly)
    (hgrows : t.GrowsWithin (t.enclosure p) t') : t.Advances p t' p := by
  have hvalid := ht.valid_enclosure hp
  have henclosure := hgrows.enclosure_eq ht hgrows.sound hp
  refine ⟨ho, hgrows, ?_, ?_⟩
  · rw [henclosure]
    exact h.rightmost.mono ht hvalid hgrows
  · rw [henclosure]
    exact mem_around_self hgrows.sound _

theorem Ordered.addLeaf (h : t.Ordered p) (ht : t.Sound) (hp : t.Valid p)
    (hblock : head.isBlock = false) : t.Advances p (t.add head p).2 p := by
  have horderly : (t.push ⟨head, false, p⟩).Orderly := h.orderly.push ht hp (by simp [hblock])
  have hgrows : t.GrowsWithin (t.enclosure p) (t.push ⟨head, false, p⟩) :=
    growsWithin_push ht hp (mem_around_of_enclosure ht hp)
  exact h.stays ht hp horderly hgrows

/-- A block goes to the right edge. -/
theorem Ordered.push (h : t.Ordered p) (ht : t.Sound) (hp : t.Valid p) (hn : t.Valid n.parent)
    (hright : t.Rightmost n.parent) (henclosure : t.enclosure n.parent = t.enclosure p) :
    t.Advances p (t.push n) (some t.nodes.length) := by
  have hgrows : t.GrowsWithin (t.enclosure p) (t.push n) :=
    growsWithin_push ht hn (henclosure ▸ mem_around_of_enclosure ht hn)
  have hvalid := ht.valid_enclosure hp
  refine ⟨h.orderly.push ht hn fun _ => hright, hgrows, ?_, ?_⟩
  all_goals rw [enclosure_push ht hn, henclosure]
  · split
    · exact h.rightmost.mono ht hvalid hgrows
    · exact hright.push ht hn
  · intro x hx
    split
    · exact mem_around_self hgrows.sound _ x hx
    · rw [around_some hgrows.sound, parent?_push_length, hgrows.around_eq ht hgrows.sound hn]
      exact List.mem_append_left _ (mem_around_of_enclosure ht hn x (henclosure ▸ hx))

theorem enclosure_enclosure (ht : t.Sound) (hp : t.Valid p) :
    t.enclosure (t.enclosure p) = t.enclosure p :=
  climb_climb ht hp fun _ h => h

theorem rightmost_some (ht : t.Sound) (hk : k < t.nodes.length) (h : t.Rightmost (t.parent? k))
    (hlast : t.hasFollowingSibling k = false) : t.Rightmost (some k) := by
  intro i hi
  rw [around_some ht] at hi
  rcases List.mem_append.mp hi with hi | hi
  · exact h i hi
  · rw [List.mem_singleton.mp hi]
    exact (hasFollowingSibling_eq_false hk).mp hlast

/-- **Adding a block** below a place keeps the tree orderly, whatever style rules and `@media` rules it
leaves. -/
theorem Ordered.addBlock (h : t.Ordered p) (ht : t.IsFlat) (hp : t.Valid p)
    (hthrough : ∀ b, through b = true → b.isRule = true ∨ b.isMedia = true)
    (hrule : ∀ b, ((t.heads p).rdropWhile through).getLast? = some b → b.isRule = false) :
    t.Advances p (t.addBlock head p through).2 (some (t.addBlock head p through).1) := by
  have hsound := ht.sound
  have hadded := blockAdded_addBlock hsound hp head through
  have hvalid := hsound.valid_enclosure hp
  generalize t.addBlock head p through = r at hadded ⊢
  rcases ht.stop_cases hp hthrough hrule with hstop | ⟨k, n, hstop, hn, hmedia, hparent⟩
  · rw [hstop] at hadded
    generalize hq : t.enclosure p = q at hadded
    cases hadded with
    | within =>
      subst hq
      exact h.push (n := ⟨head, false, t.enclosure p⟩) hsound hp hvalid h.rightmost
        (enclosure_enclosure hsound hp)
    | @copied k n hfollowing _ =>
      -- the enclosure is the last of its siblings
      have hk : k < t.nodes.length := hvalid k hq
      have hlast := (hasFollowingSibling_eq_false hk).mpr
        (h.rightmost k (mem_around_self hsound _ k hq))
      simp [hlast] at hfollowing
  · rw [hstop] at hadded
    have hk : k < t.nodes.length := (List.getElem?_eq_some_iff.mp hn).1
    have henclosure : t.enclosure (some k) = t.enclosure p := by
      rw [ht.enclosure_of_isMedia hn hmedia, hparent]
    have hright : t.Rightmost n.parent := hparent ▸ h.rightmost
    have hnvalid : t.Valid n.parent := hparent ▸ hvalid
    cases hadded with
    | within hlast =>
      have hkright := rightmost_some hsound hk (by rwa [parent?_eq hn]) (hlast k rfl)
      refine h.push (n := ⟨head, false, some k⟩) hsound hp ?_ hkright henclosure
      rintro _ ⟨⟩
      exact hk
    | @copied _ n' _ hn' =>
      obtain rfl : n' = n := Option.some.inj (hn'.symm.trans hn)
      have hcopy : t.Advances p (t.push n') (some t.nodes.length) :=
        h.push hsound hp hnvalid hright (by rw [hparent, enclosure_enclosure hsound hp])
      have hlastvalid : (t.push n').Valid (some t.nodes.length) := by
        rintro _ ⟨⟩
        simp
      refine hcopy.trans ?_ hlastvalid
      have hsound' := hsound.push hnvalid
      have hblock := hcopy.ordered.push (n := ⟨head, false, some t.nodes.length⟩) hsound' hlastvalid
        hlastvalid (hright.push hsound hnvalid) rfl
      exact hblock

theorem Ordered.endGroup (h : t.Ordered p) (ht : t.Sound) (hp : t.Valid p) (q : Option NodeId) :
    t.Advances p (t.endGroup q) p := by
  have hext := t.extends_endGroup q
  have hsound := ht.endGroup q
  refine h.stays ht hp (h.orderly.of_extends hext ht hsound length_endGroup) ⟨hext, hsound, ?_⟩
  intro j hj hj'
  rw [length_endGroup] at hj
  omega

end NestedCss.Css.Tree
