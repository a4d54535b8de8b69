import Mathlib.Data.List.DropRight
import NestedCss.Css.Tree

/-!
# The statements around a statement

A tree only ever grows at its end, and a statement stands in one that was added before it. So what is
around a statement is settled when it is added.

* `Tree.path`: a statement and those around it, `Tree.heads`: what stands in front of their blocks;
* `Tree.Extends`: a tree with more statements;
* `Tree.heads_climb`: climbing leaves the innermost statements around;
* **`Tree.entered_addBlock`**: what `Tree.addBlock` adds.
-/

namespace NestedCss.Css

/-- A statement with what is around it, outermost first. -/
structure Occurrence (σ : Type) where
  around : List (Head σ)
  head : Head σ
  deriving DecidableEq

/-- The statement with other selector lists. -/
def Occurrence.map {σ τ : Type} (f : σ → τ) (x : Occurrence σ) : Occurrence τ :=
  ⟨x.around.map (Head.map f), x.head.map f⟩

namespace Tree

variable {σ τ : Type} {t t' t'' : Tree σ} {i j k : ℕ} {p : Option NodeId} {n : Node σ}
  {through : Head σ → Bool}

/-! ## Looking up -/

/-- What stands in front of the block of a statement. -/
def head? (t : Tree σ) (i : NodeId) : Option (Head σ) := t.nodes[i]?.map Node.head

theorem head?_eq_some (h : t.nodes[i]? = some n) : t.head? i = some n.head := by
  simp [head?, h]

theorem parent?_eq (h : t.nodes[i]? = some n) : t.parent? i = n.parent := by
  simp [parent?, h]

theorem exists_node (h : i < t.nodes.length) : ∃ n, t.nodes[i]? = some n :=
  ⟨_, List.getElem?_eq_getElem h⟩

theorem lt_of_parent? (h : t.parent? i = some j) : i < t.nodes.length := by
  by_contra hc
  simp [parent?, List.getElem?_eq_none (Nat.le_of_not_lt hc)] at h

/-- Every statement was added after the one that it stands in. -/
def Sound (t : Tree σ) : Prop := ∀ i p : ℕ, t.parent? i = some p → p < i

/-- The parent is a statement of the tree, or the top. -/
def Valid (t : Tree σ) (p : Option NodeId) : Prop := ∀ i : ℕ, p = some i → i < t.nodes.length

theorem Sound.valid (ht : t.Sound) (i : NodeId) : t.Valid (t.parent? i) := by
  intro j hj
  exact Nat.lt_trans (ht i j hj) (lt_of_parent? hj)

/-! ## Paths -/

/-- A statement and the statements around it, outermost first. -/
def path (t : Tree σ) (i : NodeId) : List NodeId :=
  match t.parent? i with
  | some p => if p < i then t.path p ++ [i] else [i]
  | none => [i]
termination_by i

/-- The statements around what stands in a parent. -/
def around (t : Tree σ) : Option NodeId → List NodeId
  | none => []
  | some i => t.path i

/-- What stands in front of the blocks around what stands in a parent, outermost first. -/
def heads (t : Tree σ) (p : Option NodeId) : List (Head σ) := (t.around p).filterMap t.head?

theorem path_eq (ht : t.Sound) (i : NodeId) : t.path i = t.around (t.parent? i) ++ [i] := by
  rw [path]
  cases h : t.parent? i with
  | none => rfl
  | some p => simp [around, ht i p h]

theorem around_some (ht : t.Sound) (i : NodeId) :
    t.around (some i) = t.around (t.parent? i) ++ [i] :=
  path_eq ht i

@[simp] theorem heads_none : t.heads none = [] := rfl

theorem heads_some (ht : t.Sound) {h : Head σ} (hi : t.head? i = some h) :
    t.heads (some i) = t.heads (t.parent? i) ++ [h] := by
  simp [heads, around_some ht, hi]

theorem mem_path_self (ht : t.Sound) (i : NodeId) : i ∈ t.path i := by
  simp [path_eq ht i]

/-- The path of a statement around another one is the beginning of the path of that. -/
theorem path_isPrefix (ht : t.Sound) (h : j ∈ t.path i) : t.path j <+: t.path i := by
  induction i using Nat.strong_induction_on with
  | _ i ih =>
    rw [path_eq ht i] at h
    rcases List.mem_append.mp h with h | h
    · rw [path_eq ht i]
      cases hp : t.parent? i with
      | none => simp [hp, around] at h
      | some p =>
        rw [hp] at h
        exact (ih p (ht i p hp) h).trans (List.prefix_append _ _)
    · cases List.mem_singleton.mp h
      exact List.prefix_rfl

theorem le_of_mem_path (ht : t.Sound) (h : j ∈ t.path i) : j ≤ i := by
  induction i using Nat.strong_induction_on with
  | _ i ih =>
    rw [path_eq ht i] at h
    rcases List.mem_append.mp h with h | h
    · cases hp : t.parent? i with
      | none => simp [hp, around] at h
      | some p =>
        rw [hp] at h
        have := ih p (ht i p hp) h
        have := ht i p hp
        omega
    · exact (List.mem_singleton.mp h).le

theorem mem_path_trans (ht : t.Sound) (hij : i ∈ t.path j) (hjk : j ∈ t.path k) : i ∈ t.path k :=
  (path_isPrefix ht hjk).subset hij

theorem mem_around_trans (ht : t.Sound) (hij : i ∈ t.path j) (hj : j ∈ t.around p) :
    i ∈ t.around p := by
  cases p with
  | none => cases hj
  | some k => exact mem_path_trans ht hij hj

theorem lt_of_mem_around_parent? (ht : t.Sound) (h : j ∈ t.around (t.parent? i)) : j < i := by
  cases hp : t.parent? i with
  | none => simp [hp, around] at h
  | some p =>
    rw [hp] at h
    have := le_of_mem_path ht h
    have := ht i p hp
    omega

/-! ## Growing at the end -/

/-- The tree with one more statement. -/
def push (t : Tree σ) (n : Node σ) : Tree σ := ⟨t.nodes ++ [n]⟩

/-- `t'` has the statements of `t`, in the same places, and maybe more. -/
structure Extends (t t' : Tree σ) : Prop where
  length_le : t.nodes.length ≤ t'.nodes.length
  head?_eq : ∀ i < t.nodes.length, t'.head? i = t.head? i
  parent?_eq : ∀ i < t.nodes.length, t'.parent? i = t.parent? i

namespace Extends

theorem refl (t : Tree σ) : t.Extends t := ⟨le_rfl, fun _ _ => rfl, fun _ _ => rfl⟩

theorem trans (h : t.Extends t') (h' : t'.Extends t'') : t.Extends t'' where
  length_le := h.length_le.trans h'.length_le
  head?_eq i hi := (h'.head?_eq i (hi.trans_le h.length_le)).trans (h.head?_eq i hi)
  parent?_eq i hi := (h'.parent?_eq i (hi.trans_le h.length_le)).trans (h.parent?_eq i hi)

theorem valid (h : t.Extends t') (hp : t.Valid p) : t'.Valid p :=
  fun i hi => (hp i hi).trans_le h.length_le

theorem path_eq (h : t.Extends t') (ht : t.Sound) (ht' : t'.Sound) (hi : i < t.nodes.length) :
    t'.path i = t.path i := by
  induction i using Nat.strong_induction_on with
  | _ i ih =>
    rw [Tree.path_eq ht', Tree.path_eq ht, h.parent?_eq i hi]
    cases hp : t.parent? i with
    | none => rfl
    | some p =>
      have hlt := ht i p hp
      rw [around, around, ih p hlt (hlt.trans hi)]

theorem around_eq (h : t.Extends t') (ht : t.Sound) (ht' : t'.Sound) (hp : t.Valid p) :
    t'.around p = t.around p := by
  cases p with
  | none => rfl
  | some i => exact h.path_eq ht ht' (hp i rfl)

theorem heads_eq (h : t.Extends t') (ht : t.Sound) (ht' : t'.Sound) (hp : t.Valid p) :
    t'.heads p = t.heads p := by
  rw [heads, heads, h.around_eq ht ht' hp]
  refine List.filterMap_congr fun j hj => h.head?_eq j ?_
  cases p with
  | none => cases hj
  | some i => exact (le_of_mem_path ht hj).trans_lt (hp i rfl)

end Extends

theorem extends_push (t : Tree σ) (n : Node σ) : t.Extends (t.push n) where
  length_le := by simp [push]
  head?_eq i hi := by simp [push, head?, List.getElem?_append_left hi]
  parent?_eq i hi := by simp [push, parent?, List.getElem?_append_left hi]

@[simp] theorem length_push : (t.push n).nodes.length = t.nodes.length + 1 := by simp [push]

theorem head?_push_length : (t.push n).head? t.nodes.length = some n.head := by
  simp [push, head?]

theorem parent?_push_length : (t.push n).parent? t.nodes.length = n.parent := by
  simp [push, parent?]

theorem Sound.push (ht : t.Sound) (hn : t.Valid n.parent) : (t.push n).Sound := by
  intro i p hp
  by_cases hi : i < t.nodes.length
  · rw [(extends_push t n).parent?_eq i hi] at hp
    exact ht i p hp
  · have hlt := lt_of_parent? hp
    rw [length_push] at hlt
    obtain rfl : i = t.nodes.length := by omega
    rw [parent?_push_length] at hp
    exact hn p hp

/-! ## Climbing -/

theorem climb_eq (ht : t.Sound) (hi : t.nodes[i]? = some n) :
    t.climb through i = if through n.head then n.parent.bind (t.climb through) else some i := by
  rw [climb, hi]
  obtain ⟨head, groupEnd, _ | p⟩ := n
  · rfl
  · have hlt : p < i := ht i p (parent?_eq hi)
    simp [hlt]

/-- Climbing leaves the innermost statements around. -/
theorem heads_climb (ht : t.Sound) (hp : t.Valid p) (through : Head σ → Bool) :
    t.heads (p.bind (t.climb through)) = (t.heads p).rdropWhile through := by
  cases p with
  | none => rfl
  | some i =>
    rw [Option.bind_some]
    induction i using Nat.strong_induction_on with
    | _ i ih =>
      obtain ⟨n, hn⟩ := exists_node (hp i rfl)
      rw [climb_eq ht hn, heads_some ht (head?_eq_some hn), List.rdropWhile_concat]
      split
      · cases hq : n.parent with
        | none => simp [parent?_eq hn, hq]
        | some q =>
          have hqi : t.parent? i = some q := by rw [parent?_eq hn, hq]
          rw [Option.bind_some, ih q (ht i q hqi) (hqi ▸ ht.valid i), hqi]
      · rw [heads_some ht (head?_eq_some hn)]

/-- Climbing ends at one of the statements around, the first that is not left. -/
theorem exists_of_climb (ht : t.Sound) (hp : t.Valid p) (hk : p.bind (t.climb through) = some k) :
    k ∈ t.around p ∧ ∃ n, t.nodes[k]? = some n ∧ through n.head = false := by
  cases p with
  | none => cases hk
  | some i =>
    rw [Option.bind_some] at hk
    induction i using Nat.strong_induction_on with
    | _ i ih =>
      obtain ⟨n, hn⟩ := exists_node (hp i rfl)
      rw [climb_eq ht hn] at hk
      by_cases hthrough : through n.head = true
      · rw [if_pos hthrough] at hk
        cases hq : n.parent with
        | none => simp [hq] at hk
        | some q =>
          have hqi : t.parent? i = some q := by rw [parent?_eq hn, hq]
          rw [hq, Option.bind_some] at hk
          obtain ⟨hmem, hrest⟩ := ih q (ht i q hqi) (hqi ▸ ht.valid i) hk
          refine ⟨?_, hrest⟩
          rw [around_some ht, hqi]
          exact List.mem_append_left _ hmem
      · rw [if_neg hthrough] at hk
        cases hk
        exact ⟨mem_path_self ht k, n, hn, by simpa using hthrough⟩

/-- One may stop on the way. -/
theorem climb_climb (ht : t.Sound) (hp : t.Valid p) {through' : Head σ → Bool}
    (h : ∀ a, through a → through' a) :
    (p.bind (t.climb through)).bind (t.climb through') = p.bind (t.climb through') := by
  cases p with
  | none => rfl
  | some i =>
    rw [Option.bind_some, Option.bind_some]
    induction i using Nat.strong_induction_on with
    | _ i ih =>
      obtain ⟨n, hn⟩ := exists_node (hp i rfl)
      rw [climb_eq ht hn]
      split
      · next hthrough =>
        rw [climb_eq ht hn, if_pos (h _ hthrough)]
        cases hq : n.parent with
        | none => rfl
        | some q =>
          have hqi : t.parent? i = some q := by rw [parent?_eq hn, hq]
          exact ih q (ht i q hqi) (hqi ▸ ht.valid i)
      · rfl

/-! ## Blocks -/

/-- How a block is added under a parent: in the parent itself if nothing follows it, and otherwise in a
copy of it. -/
inductive BlockAdded (t : Tree σ) (head : Head σ) : Option NodeId → NodeId × Tree σ → Prop
  | within {p : Option NodeId} (h : ∀ k, p = some k → t.hasFollowingSibling k = false) :
      BlockAdded t head p (t.add head p)
  | copied {k : NodeId} {n : Node σ} (h : t.hasFollowingSibling k = true)
      (hk : t.nodes[k]? = some n) :
      BlockAdded t head (some k) ((t.push n).add head (some t.nodes.length))

theorem blockAdded_addBlock (ht : t.Sound) (hp : t.Valid p) (head : Head σ)
    (through : Head σ → Bool) :
    BlockAdded t head (p.bind (t.climb through)) (t.addBlock head p through) := by
  rw [addBlock]
  cases hk : p.bind (t.climb through) with
  | none => exact .within (by simp)
  | some k =>
    obtain ⟨-, n, hn, -⟩ := exists_of_climb ht hp hk
    dsimp only
    split
    · next hfollowing =>
      have hcopy : t.addCopy k = (t.nodes.length, t.push n) := by simp [addCopy, push, hn]
      rw [hcopy]
      exact .copied hfollowing hn
    · next hlast => exact .within fun k' hk' => by cases hk'; simpa using hlast

theorem Sound.valid_climb (ht : t.Sound) (hp : t.Valid p) (through : Head σ → Bool) :
    t.Valid (p.bind (t.climb through)) := by
  intro k hk
  obtain ⟨-, n, hn, -⟩ := exists_of_climb ht hp hk
  exact (List.getElem?_eq_some_iff.mp hn).1

/-! ## Occurrences -/

/-- A statement of the tree with what is around it. -/
def occurrence? (t : Tree σ) (i : NodeId) : Option (Occurrence σ) :=
  (t.head? i).map (⟨t.heads (t.parent? i), ·⟩)

/-- The statements of the tree in the order of addition. -/
def occurrences (t : Tree σ) : List (Occurrence σ) :=
  (List.range t.nodes.length).filterMap t.occurrence?

theorem mem_occurrences (hi : t.nodes[i]? = some n) :
    ⟨t.heads n.parent, n.head⟩ ∈ t.occurrences := by
  refine List.mem_filterMap.mpr ⟨i, ?_, ?_⟩
  · exact List.mem_range.mpr (List.getElem?_eq_some_iff.mp hi).1
  · rw [occurrence?, head?_eq_some hi, parent?_eq hi, Option.map_some]

theorem Extends.occurrence?_eq (h : t.Extends t') (ht : t.Sound) (ht' : t'.Sound)
    (hi : i < t.nodes.length) : t'.occurrence? i = t.occurrence? i := by
  rw [occurrence?, occurrence?, h.head?_eq i hi, h.parent?_eq i hi, h.heads_eq ht ht' (ht.valid i)]

theorem heads_push (ht : t.Sound) (hn : t.Valid n.parent) :
    (t.push n).heads (some t.nodes.length) = t.heads n.parent ++ [n.head] := by
  rw [heads_some (ht.push hn) head?_push_length, parent?_push_length,
    (extends_push t n).heads_eq ht (ht.push hn) hn]

theorem occurrences_push (ht : t.Sound) (hn : t.Valid n.parent) :
    (t.push n).occurrences = t.occurrences ++ [⟨t.heads n.parent, n.head⟩] := by
  have hext := extends_push t n
  have hlast : (t.push n).occurrence? t.nodes.length = some ⟨t.heads n.parent, n.head⟩ := by
    rw [occurrence?, head?_push_length, parent?_push_length, hext.heads_eq ht (ht.push hn) hn,
      Option.map_some]
  rw [occurrences, length_push, List.range_succ, List.filterMap_append, List.filterMap_cons,
    hlast, List.filterMap_nil]
  congr 1
  exact List.filterMap_congr fun i hi => hext.occurrence?_eq ht (ht.push hn) (List.mem_range.mp hi)

namespace BlockAdded

variable {head : Head σ} {r : NodeId × Tree σ}

theorem sound (h : BlockAdded t head p r) (ht : t.Sound) (hp : t.Valid p) : r.2.Sound := by
  cases h with
  | within => exact ht.push (n := ⟨head, false, p⟩) hp
  | copied _ hk =>
    have hcopy := ht.push (parent?_eq hk ▸ ht.valid _)
    exact hcopy.push (n := ⟨head, false, _⟩) fun i hi => by cases hi; simp

theorem extension (h : BlockAdded t head p r) : t.Extends r.2 := by
  cases h with
  | within => exact extends_push t ⟨head, false, p⟩
  | copied => exact (extends_push t _).trans (extends_push (t.push _) ⟨head, false, _⟩)

theorem occurrences (h : BlockAdded t head p r) (ht : t.Sound) (hp : t.Valid p) :
    ∃ copies, r.2.occurrences = t.occurrences ++ copies ++ [⟨t.heads p, head⟩] ∧
      ∀ x ∈ copies, x ∈ t.occurrences ∧ x.around ++ [x.head] = t.heads p := by
  cases h with
  | within =>
    refine ⟨[], ?_, by simp⟩
    rw [List.append_nil]
    exact occurrences_push (n := ⟨head, false, p⟩) ht hp
  | @copied k n _ hk =>
    have hn : t.Valid n.parent := parent?_eq hk ▸ ht.valid k
    have hcopy : (t.push n).heads (some t.nodes.length) = t.heads (some k) := by
      rw [heads_push ht hn, heads_some ht (head?_eq_some hk), parent?_eq hk]
    refine ⟨[⟨t.heads n.parent, n.head⟩], ?_, fun x hx => ?_⟩
    · rw [← hcopy, ← occurrences_push ht hn]
      exact occurrences_push (n := ⟨head, false, _⟩) (ht.push hn) fun i hi => by cases hi; simp
    · rw [List.mem_singleton.mp hx, heads_some ht (head?_eq_some hk), parent?_eq hk]
      exact ⟨mem_occurrences hk, rfl⟩

theorem heads (h : BlockAdded t head p r) (ht : t.Sound) (hp : t.Valid p) :
    r.2.heads (some r.1) = t.heads p ++ [head] := by
  cases h with
  | within => exact heads_push (n := ⟨head, false, p⟩) ht hp
  | @copied k n _ hk =>
    have hn : t.Valid n.parent := parent?_eq hk ▸ ht.valid k
    have hlast := heads_push (n := ⟨head, false, some t.nodes.length⟩) (ht.push hn)
      fun i hi => by cases hi; simp
    rw [heads_push ht hn] at hlast
    rw [heads_some ht (head?_eq_some hk), parent?_eq hk]
    exact hlast

theorem fst_eq (h : BlockAdded t head p r) : r.1 + 1 = r.2.nodes.length := by
  cases h <;> simp [add, push]

end BlockAdded

/-- **What is there after a block was added** in what remains of the statements around: the block, and
maybe a copy of the innermost statement around it. -/
structure Entered (t : Tree σ) (around : List (Head σ)) (head : Head σ) (r : NodeId × Tree σ) :
    Prop where
  sound : r.2.Sound
  extension : t.Extends r.2
  valid : r.2.Valid (some r.1)
  heads : r.2.heads (some r.1) = around ++ [head]
  occurrences : ∃ copies, r.2.occurrences = t.occurrences ++ copies ++ [⟨around, head⟩] ∧
    ∀ x ∈ copies, x ∈ t.occurrences ∧ x.around ++ [x.head] = around

/-- **A block is added inside of those around its parent**, less the innermost ones that it may be moved out of. -/
theorem entered_addBlock (ht : t.Sound) (hp : t.Valid p) (head : Head σ)
    (through : Head σ → Bool) :
    Entered t ((t.heads p).rdropWhile through) head (t.addBlock head p through) := by
  have hadded := blockAdded_addBlock ht hp head through
  have hvalid := ht.valid_climb hp through
  rw [← heads_climb ht hp]
  refine ⟨hadded.sound ht hvalid, hadded.extension, fun i hi => ?_, hadded.heads ht hvalid,
    hadded.occurrences ht hvalid⟩
  cases hi
  exact Nat.lt_of_succ_le hadded.fst_eq.le

/-! ## Marking the ends of groups -/

theorem extends_endGroup (t : Tree σ) (p : Option NodeId) : t.Extends (t.endGroup p) := by
  rw [endGroup]
  split
  · exact .refl t
  · next i _ =>
    refine ⟨by simp, fun j _ => ?_, fun j _ => ?_⟩
    · by_cases hij : i = j <;> simp [head?, hij, Function.comp_def]
    · rw [parent?, parent?, List.getElem?_modify, Option.map_eq_map, Option.bind_map]
      congr 1
      funext n
      by_cases hij : i = j <;> simp [hij]

@[simp] theorem length_endGroup : (t.endGroup p).nodes.length = t.nodes.length := by
  rw [endGroup]
  split <;> simp

theorem Sound.endGroup (ht : t.Sound) (p : Option NodeId) : (t.endGroup p).Sound := by
  intro i j h
  have hi := lt_of_parent? h
  rw [length_endGroup] at hi
  rw [(extends_endGroup t p).parent?_eq i hi] at h
  exact ht i j h

theorem occurrences_endGroup (ht : t.Sound) (p : Option NodeId) :
    (t.endGroup p).occurrences = t.occurrences := by
  rw [occurrences, occurrences, length_endGroup]
  refine List.filterMap_congr fun i hi => ?_
  exact (extends_endGroup t p).occurrence?_eq ht (ht.endGroup p) (List.mem_range.mp hi)

end Tree

end NestedCss.Css
