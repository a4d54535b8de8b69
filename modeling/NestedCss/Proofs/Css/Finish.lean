import Mathlib.Data.List.Perm.Basic
import Mathlib.Data.List.Range
import NestedCss.Proofs.Css.Ancestors

/-!
# The finished tree

Statements are closed from the last one to the first, and each takes up what is left of its children by
then. In the end every statement has its children in the order in which they were added.

* `Css.occurrences`: the statements of a forest, in preorder;
* `Tree.branch`: a statement with all that stands in it, `Tree.preorder`: the numbers of these;
* `Tree.finish_eq`: the finished tree from its children;
* **`Tree.occurrences_finish`**: nothing is lost, doubled or moved.
-/

namespace NestedCss.Css

variable {σ τ : Type}

/-! ## Forests -/

mutual

/-- A statement and those in its block, in the order in which they are written. -/
def occurrencesIn (around : List (Head σ)) : Css σ → List (Occurrence σ)
  | .node head _ body => ⟨around, head⟩ :: occurrencesInAll (around ++ [head]) body

def occurrencesInAll (around : List (Head σ)) : List (Css σ) → List (Occurrence σ)
  | [] => []
  | css :: rest => css.occurrencesIn around ++ occurrencesInAll around rest

end

/-- The statements of a forest, in the order in which they are written. -/
def occurrences (forest : List (Css σ)) : List (Occurrence σ) := occurrencesInAll [] forest

theorem occurrencesInAll_append (around : List (Head σ)) (a b : List (Css σ)) :
    occurrencesInAll around (a ++ b) =
      occurrencesInAll around a ++ occurrencesInAll around b := by
  induction a with
  | nil => rfl
  | cons css a ih => rw [List.cons_append, occurrencesInAll, occurrencesInAll, ih, List.append_assoc]

theorem occurrencesInAll_flatMap {α : Type} (around : List (Head σ)) (l : List α)
    (f : α → List (Css σ)) :
    occurrencesInAll around (l.flatMap f) = l.flatMap fun a => occurrencesInAll around (f a) := by
  induction l with
  | nil => rfl
  | cons a l ih => rw [List.flatMap_cons, List.flatMap_cons, occurrencesInAll_append, ih]

namespace Tree

variable {t : Tree σ} {i j : ℕ} {p : Option NodeId} {n : Node σ}

/-! ## Children -/

theorem children_eq (t : Tree σ) (p : Option NodeId) :
    t.children p = (List.range t.nodes.length).filter fun i => t.parent? i = p := by
  have hrange : List.range t.nodes.length = t.nodes.zipIdx.map Prod.snd := by
    rw [List.zipIdx_map_snd, List.range_eq_range']
  rw [hrange, List.filter_map, children, ← List.filterMap_eq_map, ← List.filterMap_eq_filter,
    List.filterMap_filterMap]
  refine List.filterMap_congr fun x hx => ?_
  have hn : t.parent? x.2 = x.1.parent := parent?_eq (List.mem_zipIdx_iff_getElem?.mp hx)
  by_cases h : x.1.parent = p <;> simp [Option.guard, hn, h]

theorem mem_children : i ∈ t.children p ↔ i < t.nodes.length ∧ t.parent? i = p := by
  simp [children_eq]

theorem Sound.lt_of_mem_children (ht : t.Sound) (h : j ∈ t.children (some i)) : i < j :=
  ht j i (mem_children.mp h).2

/-- What holds of a statement if it holds of its children holds of all. -/
theorem Sound.descend (ht : t.Sound) {P : ℕ → Prop}
    (h : ∀ i, (∀ j ∈ t.children (some i), P j) → P i) (i : ℕ) : P i := by
  induction hd : t.nodes.length - i using Nat.strong_induction_on generalizing i with
  | _ d ih =>
    refine h i fun j hj => ih (t.nodes.length - j) ?_ j rfl
    have := ht.lt_of_mem_children hj
    have := (mem_children.mp hj).1
    omega

/-! ## Branches -/

theorem lt_sub_of_mem_later {i j : ℕ} (h : j ∈ (t.children (some i)).filter (i < ·)) :
    t.nodes.length - j < t.nodes.length - i := by
  obtain ⟨hj, hij⟩ := List.mem_filter.mp h
  have hlt := (mem_children.mp hj).1
  have hij : i < j := by simpa using hij
  omega

/-- A statement of the tree with all that stands in it. -/
def branch (t : Tree σ) (i : NodeId) : List (Css σ) :=
  match t.nodes[i]? with
  | none => []
  | some n => [.node n.head n.groupEnd
      (((t.children (some i)).filter (i < ·)).attach.flatMap fun j => t.branch j.1)]
termination_by t.nodes.length - i
decreasing_by exact lt_sub_of_mem_later j.2

/-- The numbers of a statement and of all that stands in it, in preorder. -/
def preorder (t : Tree σ) (i : NodeId) : List NodeId :=
  i :: ((t.children (some i)).filter (i < ·)).attach.flatMap fun j => t.preorder j.1
termination_by t.nodes.length - i
decreasing_by exact lt_sub_of_mem_later j.2

/-- The numbers of all statements, in preorder. -/
def order (t : Tree σ) : List NodeId := (t.children none).flatMap t.preorder

theorem Sound.later_children (ht : t.Sound) (i : ℕ) :
    (t.children (some i)).filter (i < ·) = t.children (some i) :=
  List.filter_eq_self.mpr fun j hj => by simpa using ht.lt_of_mem_children hj

theorem branch_eq (ht : t.Sound) (hn : t.nodes[i]? = some n) :
    t.branch i = [.node n.head n.groupEnd ((t.children (some i)).flatMap t.branch)] := by
  rw [branch, hn]
  simp [List.flatMap_subtype, ht.later_children]

theorem preorder_eq (ht : t.Sound) (i : ℕ) :
    t.preorder i = i :: (t.children (some i)).flatMap t.preorder := by
  rw [preorder]
  simp [List.flatMap_subtype, ht.later_children]

/-- The statements of a branch are those with the numbers of its preorder. -/
theorem occurrencesInAll_branch (ht : t.Sound) (i : ℕ) :
    occurrencesInAll (t.heads (t.parent? i)) (t.branch i) =
      (t.preorder i).filterMap t.occurrence? := by
  induction i using ht.descend with
  | _ i ih =>
    rw [preorder_eq ht, List.filterMap_cons, List.filterMap_flatMap]
    cases hn : t.nodes[i]? with
    | none =>
      have hchildren : t.children (some i) = [] := by
        refine List.eq_nil_iff_forall_not_mem.mpr fun j hj => ?_
        have hij := ht.lt_of_mem_children hj
        have hj := (mem_children.mp hj).1
        have hi := List.getElem?_eq_none_iff.mp hn
        omega
      simp [branch, hn, occurrence?, head?, hchildren, occurrencesInAll]
    | some n =>
      have hhead := head?_eq_some hn
      rw [branch_eq ht hn, occurrence?, hhead, Option.map_some, occurrencesInAll, occurrencesIn,
        occurrencesInAll, List.append_nil, occurrencesInAll_flatMap, ← heads_some ht hhead]
      refine congrArg _ (List.flatMap_congr fun j hj => ?_)
      rw [← ih j hj, (mem_children.mp hj).2]

/-! ## Closing the statements -/

/-- The statements from `i` on that stand in none of these. -/
def rootsFrom (t : Tree σ) (i : ℕ) : List ℕ :=
  (List.range' i (t.nodes.length - i)).filter fun j => (t.parent? j).all (· < i)

theorem rootsFrom_zero (t : Tree σ) : t.rootsFrom 0 = t.children none := by
  rw [children_eq, rootsFrom, Nat.sub_zero, ← List.range_eq_range']
  refine List.filter_congr fun j _ => ?_
  cases t.parent? j <;> simp

theorem range'_eq_cons (hi : i < t.nodes.length) :
    List.range' i (t.nodes.length - i) = i :: List.range' (i + 1) (t.nodes.length - (i + 1)) := by
  rw [show t.nodes.length - i = t.nodes.length - (i + 1) + 1 by omega, List.range'_succ]

/-- One step down, the children of the statement are no longer roots. -/
theorem rootsFrom_eq_cons (ht : t.Sound) (hi : i < t.nodes.length) :
    t.rootsFrom i = i :: (t.rootsFrom (i + 1)).filter (t.parent? · ≠ some i) := by
  rw [rootsFrom, range'_eq_cons hi, List.filter_cons_of_pos, rootsFrom, List.filter_filter]
  · refine congrArg _ (List.filter_congr fun j _ => ?_)
    cases t.parent? j with
    | none => simp
    | some p =>
      have hlt (p i : ℕ) : p < i ↔ ¬ p = i ∧ p < i + 1 := by omega
      rw [Bool.eq_iff_iff]
      simpa using hlt p i
  · simpa [Option.all_eq_true] using fun p hp => ht i p hp

theorem children_eq_filter_rootsFrom (ht : t.Sound) (hi : i < t.nodes.length) :
    t.children (some i) = (t.rootsFrom (i + 1)).filter (t.parent? · = some i) := by
  have hrange : List.range t.nodes.length =
      List.range' 0 (i + 1) ++ List.range' (i + 1) (t.nodes.length - (i + 1)) := by
    have hlength : t.nodes.length = i + 1 + (t.nodes.length - (i + 1)) := by omega
    rw [hlength, List.range_eq_range', ← List.range'_append_1, Nat.zero_add, ← hlength]
  rw [children_eq, hrange, List.filter_append, List.filter_eq_nil_iff.mpr, List.nil_append, rootsFrom,
    List.filter_filter]
  · refine List.filter_congr fun j _ => ?_
    by_cases hj : t.parent? j = some i <;> simp [hj]
  · intro j hj hp
    have hlt := ht j i (by simpa using hp)
    have := (List.mem_range'_1.mp hj).2
    omega

theorem under_flatMap_branch (l : List ℕ) :
    under p (l.flatMap fun j => (t.branch j).map (t.parent? j, ·)) =
      (l.filter (t.parent? · = p)).flatMap t.branch := by
  induction l with
  | nil => rfl
  | cons j l ih =>
    rw [under] at ih ⊢
    rw [List.flatMap_cons, List.filterMap_append, ih, List.filter_cons]
    by_cases h : t.parent? j = p <;> simp [h]

theorem filter_flatMap_branch (l : List ℕ) :
    (l.flatMap fun j => (t.branch j).map (t.parent? j, ·)).filter (fun (q, _) => q ≠ p) =
      (l.filter (t.parent? · ≠ p)).flatMap fun j => (t.branch j).map (t.parent? j, ·) := by
  induction l with
  | nil => rfl
  | cons j l ih =>
    rw [List.flatMap_cons, List.filter_append, ih, List.filter_cons]
    by_cases h : t.parent? j = p <;> simp [h]

/-- What is closed from `i` on: the roots, each with its branch. -/
theorem closeFrom_drop (ht : t.Sound) (hi : i ≤ t.nodes.length) :
    closeFrom i (t.nodes.drop i) =
      (t.rootsFrom i).flatMap fun j => (t.branch j).map (t.parent? j, ·) := by
  induction hd : t.nodes.length - i generalizing i with
  | zero =>
    have hroots : t.rootsFrom i = [] := by rw [rootsFrom, hd]; rfl
    rw [List.drop_of_length_le (by omega), hroots]
    rfl
  | succ d ih =>
    have hlt : i < t.nodes.length := by omega
    have hn := List.getElem?_eq_getElem hlt
    rw [List.drop_eq_getElem_cons hlt, closeFrom, ih (by omega) (by omega), under_flatMap_branch,
      filter_flatMap_branch, ← children_eq_filter_rootsFrom ht hlt, rootsFrom_eq_cons ht hlt,
      List.flatMap_cons, branch_eq ht hn, parent?_eq hn]
    rfl

/-- **The finished tree** has the statements at the top, each with its children in turn. -/
theorem finish_eq (ht : t.Sound) : t.finish = (t.children none).flatMap t.branch := by
  rw [finish, ← List.drop_zero (l := t.nodes), closeFrom_drop ht (Nat.zero_le _), under_flatMap_branch,
    rootsFrom_zero]
  congr 1
  exact List.filter_eq_self.mpr fun j hj => by simpa using (mem_children.mp hj).2

theorem flatMap_preorder_rootsFrom (ht : t.Sound) (hi : i ≤ t.nodes.length) :
    ((t.rootsFrom i).flatMap t.preorder).Perm (List.range' i (t.nodes.length - i)) := by
  induction hd : t.nodes.length - i generalizing i with
  | zero => simp [rootsFrom, hd]
  | succ d ih =>
    have hlt : i < t.nodes.length := by omega
    have hroots := List.filter_append_perm (t.parent? · = some i) (t.rootsFrom (i + 1))
    rw [rootsFrom_eq_cons ht hlt, List.flatMap_cons, preorder_eq ht,
      children_eq_filter_rootsFrom ht hlt, List.cons_append, ← List.flatMap_append, List.range'_succ]
    refine List.Perm.cons _ (List.Perm.trans ?_ (ih (by omega) (by omega)))
    refine List.Perm.flatMap_right _ ?_
    simpa using hroots

/-- Every statement comes once. -/
theorem order_perm (ht : t.Sound) : t.order.Perm (List.range t.nodes.length) := by
  have h := flatMap_preorder_rootsFrom ht (Nat.zero_le _)
  rwa [rootsFrom_zero, Nat.sub_zero, ← List.range_eq_range'] at h

/-- **Nothing is lost, doubled or moved** when the tree is finished. -/
theorem occurrences_finish (ht : t.Sound) :
    Css.occurrences t.finish = t.order.filterMap t.occurrence? := by
  rw [Css.occurrences, finish_eq ht, occurrencesInAll_flatMap, order, List.filterMap_flatMap]
  refine List.flatMap_congr fun i hi => ?_
  rw [← occurrencesInAll_branch ht, (mem_children.mp hi).2, heads_none]

theorem occurrences_finish_perm (ht : t.Sound) :
    (Css.occurrences t.finish).Perm t.occurrences := by
  rw [occurrences_finish ht]
  exact (order_perm ht).filterMap _

/-! ## Other selector lists -/

variable (f : σ → τ)

@[simp] theorem length_map : (t.map f).nodes.length = t.nodes.length := List.length_map _

@[simp] theorem parent?_map (i : ℕ) : (t.map f).parent? i = t.parent? i := by
  rw [parent?, map, List.getElem?_map, Option.bind_map]
  rfl

@[simp] theorem head?_map (i : ℕ) : (t.map f).head? i = (t.head? i).map (Head.map f) := by
  simp [map, head?, Function.comp_def]

@[simp] theorem children_map (p : Option NodeId) : (t.map f).children p = t.children p := by
  simp [children_eq]

theorem Sound.map (ht : t.Sound) : (t.map f).Sound := by
  simpa [Sound] using ht

theorem path_map (ht : t.Sound) (i : ℕ) : (t.map f).path i = t.path i := by
  induction i using Nat.strong_induction_on with
  | _ i ih =>
    rw [path_eq ht, path_eq (ht.map f), parent?_map]
    cases hp : t.parent? i with
    | none => rfl
    | some p => rw [around, around, ih p (ht i p hp)]

theorem heads_map (ht : t.Sound) (p : Option NodeId) :
    (t.map f).heads p = (t.heads p).map (Head.map f) := by
  have haround : (t.map f).around p = t.around p := by
    cases p with
    | none => rfl
    | some i => exact path_map f ht i
  rw [heads, heads, haround, List.map_filterMap]
  simp

theorem preorder_map (ht : t.Sound) (i : ℕ) : (t.map f).preorder i = t.preorder i := by
  induction i using ht.descend with
  | _ i ih =>
    rw [preorder_eq ht, preorder_eq (ht.map f), children_map]
    exact congrArg _ (List.flatMap_congr ih)

theorem order_map (ht : t.Sound) : (t.map f).order = t.order := by
  rw [order, order, children_map]
  exact List.flatMap_congr fun i _ => preorder_map f ht i

theorem occurrence?_map (ht : t.Sound) (i : ℕ) :
    (t.map f).occurrence? i = (t.occurrence? i).map (Occurrence.map f) := by
  rw [occurrence?, occurrence?, head?_map, parent?_map, heads_map f ht]
  cases t.head? i <;> rfl

/-- Other selector lists change nothing but the selector lists. -/
theorem occurrences_finish_map (ht : t.Sound) : Css.occurrences (t.map f).finish =
    (Css.occurrences t.finish).map (Occurrence.map f) := by
  rw [occurrences_finish ht, occurrences_finish (ht.map f), order_map f ht, List.map_filterMap]
  simp [occurrence?_map f ht]

end Tree

end NestedCss.Css
