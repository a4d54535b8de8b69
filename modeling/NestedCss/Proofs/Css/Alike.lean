import NestedCss.Css.Tree
import NestedCss.Css.Writer
import NestedCss.Proofs.Corresponding

/-!
# Trees that differ in the columns of comments

A comment remembers the column of the source that it started in. Two trees that differ in these columns
only, as far as a relation allows, grow and finish alike.

* `Head.Alike`, `Tree.Alike`, `AllAlike`: what differs in the columns of comments;
* `Tree.Alike.add`, `Tree.Alike.addBlock`, `Tree.Alike.endGroup`: what happens to such trees;
* `Tree.Alike.finish`: the statements that they end up with;
* **`writeSheet_eq_of_allAlike`**: these are written alike if the comments are.
-/

namespace NestedCss.Css

variable {σ τ : Type} {R : Text → ℕ → ℕ → Prop}

/-- Statements that are the same but for the column of a comment, where `R` relates the two columns of a
text. -/
inductive Head.Alike (R : Text → ℕ → ℕ → Prop) : Head σ → Head σ → Prop
  | same (head : Head σ) : Alike R head head
  | comment {text : Text} {column column' : ℕ} : R text column column' →
      Alike R (.comment text column) (.comment text column')

/-- What does not look at the columns of comments. -/
def Head.Blind {β : Type} (f : Head σ → β) : Prop :=
  ∀ (text : Text) (column column' : ℕ), f (.comment text column) = f (.comment text column')

theorem Head.Alike.eq_of_blind {β : Type} {a b : Head σ} (h : a.Alike R b) {f : Head σ → β}
    (hf : Head.Blind f) : f a = f b := by
  cases h with
  | same => rfl
  | comment => exact hf _ _ _

theorem Head.Alike.map {a b : Head σ} (h : a.Alike R b) (f : σ → τ) : (a.map f).Alike R (b.map f) := by
  cases h with
  | same => exact .same _
  | comment h => exact .comment h

/-- Nodes that are the same but for the column of a comment. -/
structure Node.Alike (R : Text → ℕ → ℕ → Prop) (a b : Node σ) : Prop where
  head : a.head.Alike R b.head
  groupEnd : a.groupEnd = b.groupEnd
  parent : a.parent = b.parent

/-- Trees that are the same but for the columns of comments. -/
def Tree.Alike (R : Text → ℕ → ℕ → Prop) (t t' : Tree σ) : Prop :=
  List.Forall₂ (Node.Alike R) t.nodes t'.nodes

namespace Tree.Alike

variable {t t' : Tree σ} {parent : Option NodeId}

/-! ## Looking around -/

theorem parents (h : t.Alike R t') : t.nodes.map Node.parent = t'.nodes.map Node.parent :=
  forall₂_iff_map_eq.mp (h.imp fun _ _ hn => hn.parent)

theorem getElem? (h : t.Alike R t') (i : NodeId) :
    t.nodes[i]? = none ∧ t'.nodes[i]? = none ∨
      ∃ n n', t.nodes[i]? = some n ∧ t'.nodes[i]? = some n' ∧ n.Alike R n' :=
  getElem?_of_forall₂ h i

theorem children (h : t.Alike R t') (parent : Option NodeId) : t.children parent = t'.children parent := by
  have hchildren (t : Tree σ) : t.children parent = (t.nodes.map Node.parent).zipIdx.filterMap
      fun (p, i) => if p = parent then some i else none := by
    rw [List.zipIdx_map, List.filterMap_map]
    rfl
  rw [hchildren, hchildren, h.parents]

theorem lastChild? (h : t.Alike R t') (parent : Option NodeId) :
    t.lastChild? parent = t'.lastChild? parent := by
  rw [Tree.lastChild?, Tree.lastChild?, h.children]

theorem hasFollowingSibling (h : t.Alike R t') (i : NodeId) :
    t.hasFollowingSibling i = t'.hasFollowingSibling i := by
  have hparent : t.parent? i = t'.parent? i := by
    rw [parent?, parent?]
    obtain ⟨hn, hn'⟩ | ⟨n, n', hn, hn', halike⟩ := h.getElem? i
    · rw [hn, hn']
    · rw [hn, hn']
      exact halike.parent
  rw [Tree.hasFollowingSibling, Tree.hasFollowingSibling, hparent, h.lastChild?]

theorem climb (h : t.Alike R t') {through : Head σ → Bool} (hthrough : Head.Blind through) (i : NodeId) :
    t.climb through i = t'.climb through i := by
  induction i using Nat.strongRecOn with
  | ind i ih =>
    rw [Tree.climb, Tree.climb]
    obtain ⟨hn, hn'⟩ | ⟨n, n', hn, hn', hnode⟩ := h.getElem? i
    · rw [hn, hn']
    · rw [hn, hn']
      dsimp only
      rw [hnode.head.eq_of_blind hthrough, hnode.parent]
      split
      · split
        · rfl
        · split
          · next hlt => exact ih _ hlt
          · rfl
      · rfl

/-! ## Adding -/

theorem add (h : t.Alike R t') {head head' : Head σ} (hhead : head.Alike R head')
    (parent : Option NodeId) :
    (t.add head parent).1 = (t'.add head' parent).1 ∧
      (t.add head parent).2.Alike R (t'.add head' parent).2 :=
  ⟨h.length_eq, List.rel_append h (.cons ⟨hhead, rfl, rfl⟩ .nil)⟩

theorem addCopy (h : t.Alike R t') (i : NodeId) :
    (t.addCopy i).1 = (t'.addCopy i).1 ∧ (t.addCopy i).2.Alike R (t'.addCopy i).2 := by
  refine ⟨h.length_eq, List.rel_append h ?_⟩
  obtain ⟨hn, hn'⟩ | ⟨n, n', hn, hn', hnode⟩ := h.getElem? i
  · rw [hn, hn']
    exact .nil
  · rw [hn, hn']
    exact .cons hnode .nil

theorem addBlock (h : t.Alike R t') (head : Head σ) (parent : Option NodeId) {through : Head σ → Bool}
    (hthrough : Head.Blind through) :
    (t.addBlock head parent through).1 = (t'.addBlock head parent through).1 ∧
      (t.addBlock head parent through).2.Alike R (t'.addBlock head parent through).2 := by
  have hclimb : parent.bind (t.climb through) = parent.bind (t'.climb through) :=
    congrArg parent.bind (funext (h.climb hthrough))
  unfold Tree.addBlock
  rw [hclimb]
  split
  · exact h.add (.same head) none
  · next i _ =>
    rw [h.hasFollowingSibling i]
    obtain ⟨hcopy, hadded⟩ := h.addCopy i
    split
    · dsimp only
      rw [hcopy]
      exact hadded.add (.same head) _
    · exact h.add (.same head) _

theorem modify {f : Node σ → Node σ} (hf : ∀ n n' : Node σ, n.Alike R n' → (f n).Alike R (f n'))
    (h : t.Alike R t') (i : NodeId) :
    Tree.Alike R ⟨t.nodes.modify i f⟩ ⟨t'.nodes.modify i f⟩ :=
  forall₂_modify hf h i

theorem endGroup (h : t.Alike R t') (parent : Option NodeId) :
    (t.endGroup parent).Alike R (t'.endGroup parent) := by
  unfold Tree.endGroup
  rw [h.lastChild?]
  split
  · exact h
  · have hends : Head.Blind (σ := σ) Head.endsGroups := fun _ _ _ => rfl
    refine modify (f := fun n => { n with groupEnd := n.groupEnd || n.head.endsGroups })
      (fun n n' hn => ⟨hn.head, ?_, hn.parent⟩) h _
    rw [hn.groupEnd, hn.head.eq_of_blind hends]

theorem map (h : t.Alike R t') (f : σ → τ) : (t.map f).Alike R (t'.map f) := by
  refine List.rel_map ?_ h
  exact fun _ _ hn => ⟨hn.head.map f, hn.groupEnd, hn.parent⟩

end Tree.Alike

/-! ## Finishing -/

mutual

/-- Statements that are the same, with their blocks, but for the columns of comments. -/
def Alike (R : Text → ℕ → ℕ → Prop) : Css σ → Css σ → Prop
  | .node head groupEnd body, .node head' groupEnd' body' =>
    head.Alike R head' ∧ groupEnd = groupEnd' ∧ AllAlike R body body'

/-- Lists of such statements. -/
def AllAlike (R : Text → ℕ → ℕ → Prop) : List (Css σ) → List (Css σ) → Prop
  | [], [] => True
  | css :: rest, css' :: rest' => css.Alike R css' ∧ AllAlike R rest rest'
  | _, _ => False

end

/-- Pending statements that are the same but for the columns of comments. -/
def PendingAlike (R : Text → ℕ → ℕ → Prop) : (a b : List (Option NodeId × Css σ)) → Prop :=
  List.Forall₂ fun a b => a.1 = b.1 ∧ a.2.Alike R b.2

theorem PendingAlike.under {a b : List (Option NodeId × Css σ)} (h : PendingAlike R a b)
    (parent : Option NodeId) : AllAlike R (Tree.under parent a) (Tree.under parent b) := by
  unfold PendingAlike at h
  induction h with
  | nil => trivial
  | @cons x y a b hcss _ ih =>
    obtain ⟨p, css⟩ := x
    obtain ⟨p', css'⟩ := y
    obtain ⟨rfl, hcss⟩ := hcss
    by_cases hp : p = parent
    · simpa [Tree.under, hp, AllAlike] using ⟨hcss, ih⟩
    · simpa [Tree.under, hp] using ih

theorem PendingAlike.filter {a b : List (Option NodeId × Css σ)} (h : PendingAlike R a b)
    (i : NodeId) : PendingAlike R (a.filter fun (p, _) => p ≠ some i) (b.filter fun (p, _) => p ≠ some i) := by
  unfold PendingAlike at h ⊢
  induction h with
  | nil => exact .nil
  | @cons x y a b hcss _ ih =>
    obtain ⟨p, css⟩ := x
    obtain ⟨p', css'⟩ := y
    obtain ⟨rfl, hcss⟩ := hcss
    by_cases hp : p = some i
    · rw [List.filter_cons_of_neg (by simp [hp]), List.filter_cons_of_neg (by simp [hp])]
      exact ih
    · rw [List.filter_cons_of_pos (by simp [hp]), List.filter_cons_of_pos (by simp [hp])]
      exact .cons ⟨rfl, hcss⟩ ih

theorem pendingAlike_closeFrom {nodes nodes' : List (Node σ)} (h : List.Forall₂ (Node.Alike R) nodes nodes')
    (i : NodeId) : PendingAlike R (Tree.closeFrom i nodes) (Tree.closeFrom i nodes') := by
  induction h generalizing i with
  | nil => exact .nil
  | cons hn _ ih =>
    rw [Tree.closeFrom, Tree.closeFrom]
    exact .cons ⟨hn.parent, hn.head, hn.groupEnd, (ih (i + 1)).under (some i)⟩ ((ih (i + 1)).filter i)

/-- **Trees that are alike** finish as sheets that are alike. -/
theorem Tree.Alike.finish {t t' : Tree σ} (h : t.Alike R t') : AllAlike R t.finish t'.finish :=
  (pendingAlike_closeFrom h 0).under none

/-! ## Writing -/

/-- Whether a comment is written in the same way whichever of the two columns it started in. -/
def WrittenAlike (text : Text) (column column' : ℕ) : Prop :=
  writeComment text column = writeComment text column'

theorem isInvisible_eq_of_alike {head head' : Head (List Selector)} {groupEnd groupEnd' : Bool}
    {body body' : List Final} (hhead : head.Alike R head') (hbody : allInvisible body = allInvisible body') :
    isInvisible (.node head groupEnd body) = isInvisible (.node head' groupEnd' body') := by
  cases hhead with
  | same => cases head <;> simp [isInvisible, hbody]
  | comment => rfl

theorem allInvisible_eq_of_allAlike : ∀ {items items' : List Final}, AllAlike R items items' →
    allInvisible items = allInvisible items'
  | [], [], _ => rfl
  | .node head groupEnd body :: rest, .node head' groupEnd' body' :: rest', ⟨⟨hhead, _, hbody⟩, hrest⟩ => by
    rw [allInvisible, allInvisible, allInvisible_eq_of_allAlike hrest,
      isInvisible_eq_of_alike hhead (allInvisible_eq_of_allAlike hbody)]

theorem isDropped_eq_of_alike {style : Style} {head head' : Head (List Selector)}
    {groupEnd groupEnd' : Bool} {body body' : List Final} (h : head.Alike R head') :
    isDropped style (.node head groupEnd body) = isDropped style (.node head' groupEnd' body') := by
  cases h with
  | same => rfl
  | comment => cases style <;> rfl

theorem needsSemicolon_eq_of_alike {head head' : Head (List Selector)} {groupEnd groupEnd' : Bool}
    {body body' : List Final} (h : head.Alike R head') :
    (Css.node head groupEnd body).head.needsSemicolon =
      (Css.node head' groupEnd' body').head.needsSemicolon := by
  have hblind : Head.Blind (σ := List Selector) Head.needsSemicolon := fun _ _ _ => rfl
  exact h.eq_of_blind hblind

theorem all_isDropped_eq_of_allAlike {style : Style} : ∀ {items items' : List Final},
    AllAlike R items items' → items.all (isDropped style) = items'.all (isDropped style)
  | [], [], _ => rfl
  | .node head groupEnd body :: rest, .node head' groupEnd' body' :: rest', ⟨⟨hhead, _, _⟩, hrest⟩ => by
    rw [List.all_cons, List.all_cons, all_isDropped_eq_of_allAlike hrest, isDropped_eq_of_alike hhead]

theorem write_eq_of_alike {style : Style} {depth : ℕ} {head head' : Head (List Selector)}
    {groupEnd groupEnd' : Bool} {body body' : List Final} (hhead : head.Alike WrittenAlike head')
    (hinvisible : allInvisible body = allInvisible body')
    (hbody : writeItems style (depth + 2) body = writeItems style (depth + 2) body') :
    write style depth (.node head groupEnd body) = write style depth (.node head' groupEnd' body') := by
  cases hhead with
  | same => cases head <;> simp [write, hbody, hinvisible]
  | comment h => exact congrArg (indentation style depth ++ ·) h

theorem writeItems_eq_of_allAlike {style : Style} {depth : ℕ} : ∀ {items items' : List Final},
    AllAlike WrittenAlike items items' → writeItems style depth items = writeItems style depth items'
  | [], [], _ => rfl
  | .node head groupEnd body :: rest, .node head' groupEnd' body' :: rest', ⟨⟨hhead, _, hbody⟩, hrest⟩ => by
    have hinvisible := allInvisible_eq_of_allAlike hbody
    have hwrite : write style depth (.node head groupEnd body) =
        write style depth (.node head' groupEnd' body') :=
      write_eq_of_alike hhead hinvisible (writeItems_eq_of_allAlike hbody)
    have hwritten : isWritten style (.node head groupEnd body) =
        isWritten style (.node head' groupEnd' body') := by
      rw [isWritten, isWritten, isInvisible_eq_of_alike hhead hinvisible, isDropped_eq_of_alike hhead]
    rw [writeItems, writeItems, hwrite, hwritten, writeItems_eq_of_allAlike hrest,
      all_isDropped_eq_of_allAlike hrest, needsSemicolon_eq_of_alike hhead]

theorem writeTop_eq_of_allAlike {style : Style} : ∀ {sheet sheet' : List Final},
    AllAlike WrittenAlike sheet sheet' → writeTop style sheet = writeTop style sheet'
  | [], [], _ => rfl
  | .node head groupEnd body :: rest, .node head' groupEnd' body' :: rest', ⟨⟨hhead, hend, hbody⟩, hrest⟩ => by
    have hinvisible := allInvisible_eq_of_allAlike hbody
    have hwrite : write style 0 (.node head groupEnd body) = write style 0 (.node head' groupEnd' body') :=
      write_eq_of_alike hhead hinvisible (writeItems_eq_of_allAlike hbody)
    have hseen : isInvisible (.node head groupEnd body) = isInvisible (.node head' groupEnd' body') :=
      isInvisible_eq_of_alike hhead hinvisible
    have hdropped : isDropped style (.node head groupEnd body) =
        isDropped style (.node head' groupEnd' body') := isDropped_eq_of_alike hhead
    have hgroup : Css.groupEnd (.node head groupEnd body) = Css.groupEnd (.node head' groupEnd' body') := hend
    rw [writeTop, writeTop, hwrite, hseen, hdropped, hgroup, writeTop_eq_of_allAlike hrest,
      allInvisible_eq_of_allAlike hrest, needsSemicolon_eq_of_alike hhead]

/-- **Sheets are written alike** if the comments are, whichever columns they started in. -/
theorem writeSheet_eq_of_allAlike (style : Style) (charset : Bool) {sheet sheet' : List Final}
    (h : AllAlike WrittenAlike sheet sheet') :
    writeSheet style charset sheet = writeSheet style charset sheet' := by
  rw [writeSheet, writeSheet, writeTop_eq_of_allAlike h]

end NestedCss.Css
