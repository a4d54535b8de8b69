import NestedCss.Proofs.Css.Alike
import NestedCss.Proofs.Flatten.Scoping

/-!
# The same statements from different sources

Statements can come from sources of which only the characters are the same. Where they stand in the source
shows in messages, in faults and in the columns of comments, but in nothing else.

* `Stmt.comments`, `allComments`: the comments of statements;
* `State.Alike`: states that differ in messages and in the columns of comments;
* `Agree`: builders that keep such states so and fail together;
* **`agree_addStmts`**: the same statements do.
-/

namespace NestedCss

/-- A comment of a stylesheet and where it stands. -/
structure Comment where
  text : Text
  region : Region

mutual

/-- The comments in a statement that are statements themselves. -/
def Stmt.comments : Stmt → List Comment
  | .comment text region => [⟨text, region⟩]
  | .rule _ _ _ body | .media _ _ body | .blockAtRule _ _ _ body | .atRoot _ body => allComments body
  | .declaration .. | .plainAtRule .. | .extend .. | .message .. => []

/-- The comments in statements. -/
def allComments : List Stmt → List Comment
  | [] => []
  | stmt :: rest => stmt.comments ++ allComments rest

end

namespace Flatten

open Css (Head NodeId)
open Extend (ContainerId RuleId)

variable {α β : Type} {R : Text → ℕ → ℕ → Prop}

/-! ## States and builders -/

/-- States that differ at most in their messages and in the columns of comments. -/
structure State.Alike (R : Text → ℕ → ℕ → Prop) (s s' : State) : Prop where
  tree : s.tree.Alike R s'.tree
  store : s.store = s'.store

/-- Builders that take states which are alike to such states and give the same value, or fail both. -/
def Agree (R : Text → ℕ → ℕ → Prop) (x y : Builder α) : Prop :=
  ∀ ⦃s s' : State⦄, s.Alike R s' →
    (∃ a t t', x s = .ok a t ∧ y s' = .ok a t' ∧ t.Alike R t') ∨
      ∃ d d' t t', x s = .error d t ∧ y s' = .error d' t'

namespace Agree

variable {x y : Builder α} {f g : α → Builder β}

protected theorem pure (a : α) : Agree R (pure a : Builder α) (pure a) :=
  fun s s' h => .inl ⟨a, s, s', rfl, rfl, h⟩

theorem throw (d d' : Diagnosis) : Agree R (throw d : Builder α) (throw d') :=
  fun s s' _ => .inr ⟨d, d', s, s', rfl, rfl⟩

theorem bind (hx : Agree R x y) (hf : ∀ a, Agree R (f a) (g a)) : Agree R (x >>= f) (y >>= g) := by
  intro s s' h
  change (∃ a t t', EStateM.bind x f s = .ok a t ∧ EStateM.bind y g s' = .ok a t' ∧ t.Alike R t') ∨
    ∃ d d' t t', EStateM.bind x f s = .error d t ∧ EStateM.bind y g s' = .error d' t'
  unfold EStateM.bind
  obtain ⟨a, t, t', hxs, hys, ht⟩ | ⟨d, d', t, t', hxs, hys⟩ := hx h
  · rw [hxs, hys]
    exact hf a ht
  · rw [hxs, hys]
    exact .inr ⟨d, d', t, t', rfl, rfl⟩

theorem throw_bind (d d' : Diagnosis) (f g : α → Builder β) :
    Agree R ((MonadExcept.throw d : Builder α) >>= f) (MonadExcept.throw d' >>= g) :=
  fun s s' _ => .inr ⟨d, d', s, s', rfl, rfl⟩

theorem ite {p : Prop} [Decidable p] {x' y' : Builder α} (hx : Agree R x y) (hx' : Agree R x' y') :
    Agree R (if p then x else x') (if p then y else y') := by
  split
  · exact hx
  · exact hx'

theorem addLeaf {head head' : Head RuleId} (h : head.Alike R head') (parent : Option NodeId) :
    Agree R (Builder.addLeaf head parent) (Builder.addLeaf head' parent) :=
  fun _ _ hs => .inl ⟨(), _, _, rfl, rfl, (hs.tree.add h parent).2, hs.store⟩

theorem addBlock (head : Head RuleId) (parent : Option NodeId) {through : Head RuleId → Bool}
    (hthrough : Head.Blind through) :
    Agree R (Builder.addBlock head parent through) (Builder.addBlock head parent through) := by
  intro s s' h
  obtain ⟨hi, htree⟩ := h.tree.addBlock head parent hthrough
  exact .inl ⟨(s.tree.addBlock head parent through).1,
    { s with tree := (s.tree.addBlock head parent through).2 },
    { s' with tree := (s'.tree.addBlock head parent through).2 }, rfl, by rw [hi]; rfl, htree, h.store⟩

theorem addRule (selectors : List Selector) (containers : List ContainerId) :
    Agree R (Builder.addRule selectors containers) (Builder.addRule selectors containers) := by
  rintro ⟨tree, store, log⟩ ⟨tree', _, log'⟩ ⟨htree, rfl⟩
  exact .inl ⟨_, _, _, rfl, rfl, htree, rfl⟩

theorem addContainer : Agree R Builder.addContainer Builder.addContainer := by
  rintro ⟨tree, store, log⟩ ⟨tree', _, log'⟩ ⟨htree, rfl⟩
  exact .inl ⟨_, _, _, rfl, rfl, htree, rfl⟩

theorem addMarker (id : RuleId) (marker : Extend.Marker) :
    Agree R (Builder.addMarker id marker) (Builder.addMarker id marker) := by
  rintro ⟨tree, store, log⟩ ⟨tree', _, log'⟩ ⟨htree, rfl⟩
  exact .inl ⟨_, _, _, rfl, rfl, htree, rfl⟩

theorem log (entry entry' : LogEntry) : Agree R (Builder.log entry) (Builder.log entry') :=
  fun _ _ h => .inl ⟨(), _, _, rfl, rfl, h.tree, h.store⟩

theorem endGroup (c : Context) : Agree R (Builder.endGroup c) (Builder.endGroup c) :=
  ite (.pure ()) fun _ _ h => .inl ⟨(), _, _, rfl, rfl, h.tree.endGroup c.parent, h.store⟩

end Agree

/-! ## Statements -/

variable {o o' : Origin} {body body' : Context → Builder Unit}

theorem agree_addCopied (c : Context) (hbody : ∀ c, Agree R (body c) (body' c)) :
    Agree R (addCopied c body) (addCopied c body') := by
  unfold addCopied
  generalize (if c.hasRule then c.rule else none) = rule
  cases rule with
  | none => exact hbody c
  | some rule =>
    exact (Agree.addRule _ _).bind fun _ => (Agree.addBlock _ _ fun _ _ _ => rfl).bind fun _ => hbody _

theorem agree_addRule (ho : o'.dialect = o.dialect) (c : Context) (selector : Text) (prelude : Region)
    (hbody : ∀ c, Agree R (body c) (body' c)) :
    Agree R (addRule o c selector prelude body) (addRule o' c selector prelude body') := by
  unfold addRule
  refine .ite ((Agree.addBlock _ _ fun _ _ _ => rfl).bind fun _ => hbody _) ?_
  rw [ho]
  dsimp only
  cases hread : Selector.readList ⟨true, o.dialect = .scss⟩ (.ofSnippet selector (o.spanOf prelude)) with
  | ok list =>
    rw [readList_ofSnippet hread]
    exact (Agree.pure list).bind fun _ => (Agree.addRule _ _).bind fun _ =>
      (Agree.addBlock _ _ fun _ _ _ => rfl).bind fun _ => (hbody _).bind fun _ => .endGroup c
  | error d =>
    cases hread' : Selector.readList ⟨true, o.dialect = .scss⟩ (.ofSnippet selector (o'.spanOf prelude)) with
    | ok list => cases hread.symm.trans (readList_ofSnippet hread')
    | error d' => exact .throw_bind d d' _ _

theorem agree_addMedia (c : Context) (query : Text) (hbody : ∀ c, Agree R (body c) (body' c)) :
    Agree R (addMedia c query body) (addMedia c query body') :=
  Agree.addContainer.bind fun _ => (Agree.addBlock _ _ fun _ _ _ => rfl).bind fun _ =>
    (agree_addCopied _ hbody).bind fun _ => .endGroup c

theorem agree_addAtRule (c : Context) (name params : Text) (hbody : ∀ c, Agree R (body c) (body' c)) :
    Agree R (addAtRule c name params body) (addAtRule c name params body') := by
  unfold addAtRule
  refine .ite (.pure ()) (Agree.addContainer.bind fun _ =>
    (Agree.addBlock _ _ fun _ _ _ => rfl).bind fun _ => ?_)
  dsimp only
  exact .ite ((hbody _).bind fun _ => .endGroup c) ((agree_addCopied _ hbody).bind fun _ => .endGroup c)

theorem agree_addAtRoot (c : Context) (hbody : ∀ c, Agree R (body c) (body' c)) :
    Agree R (addAtRoot c body) (addAtRoot c body') := by
  intro s s' h
  have hclimb : c.parent.bind (s.tree.climb Head.isRule) = c.parent.bind (s'.tree.climb Head.isRule) :=
    congrArg c.parent.bind (funext (h.tree.climb fun _ _ _ => rfl))
  have hrun (body : Context → Builder Unit) (s : State) : addAtRoot c body s =
      body { c with parent := c.parent.bind (s.tree.climb Head.isRule), atRoot := true } s := rfl
  rw [hrun, hrun, hclimb]
  exact hbody _ h

/-- A statement, once this is known of its block. -/
theorem agree_addStmt (ho : o'.dialect = o.dialect) {stmt : Stmt}
    (hcomments : ∀ m ∈ stmt.comments, R m.text (o.columnOf m.region) (o'.columnOf m.region))
    (hbody : ∀ c, Agree R (addStmts o stmt.body c) (addStmts o' stmt.body c)) (c : Context) :
    Agree R (addStmt o stmt c) (addStmt o' stmt c) := by
  cases stmt with
  | rule => exact agree_addRule ho c _ _ hbody
  | media => exact agree_addMedia c _ hbody
  | blockAtRule => exact agree_addAtRule c _ _ hbody
  | atRoot => exact agree_addAtRoot c hbody
  | comment text region => exact .addLeaf (.comment (hcomments ⟨text, region⟩ List.mem_cons_self)) _
  | plainAtRule =>
    change Agree R (addPlainAtRule c _ _) (addPlainAtRule c _ _)
    exact .ite (.addLeaf (.same _) _) (.pure ())
  | declaration =>
    change Agree R (addDeclaration o c _ _ _) (addDeclaration o' c _ _ _)
    unfold addDeclaration
    rw [ho]
    refine .ite (.addLeaf (.same _) _) ?_
    cases o.dialect with
    | scss => exact .throw _ _
    | less => exact .pure ()
  | extend dialect =>
    change Agree R (addExtend o c _ _ _) (addExtend o' c _ _ _)
    unfold addExtend
    split
    · exact .addMarker _ _
    · cases dialect with
      | scss => exact .throw _ _
      | less => exact .log _ _
  | message severity =>
    change Agree R (addMessage o _ _ _) (addMessage o' _ _ _)
    cases severity with
    | error => exact .throw _ _
    | debug | warning => exact .log _ _

theorem comments_body (stmt : Stmt) : allComments stmt.body ⊆ stmt.comments := by
  cases stmt <;> simp [Stmt.body, Stmt.comments, allComments]

/-- **The same statements from different sources** make states that differ at most in messages and in
the columns of comments, or fail with both. -/
theorem agree_addStmts (ho : o'.dialect = o.dialect) : ∀ {stmts : List Stmt},
    (∀ m ∈ allComments stmts, R m.text (o.columnOf m.region) (o'.columnOf m.region)) →
    ∀ c, Agree R (addStmts o stmts c) (addStmts o' stmts c)
  | [], _, c => by
    rw [addStmts, addStmts]
    exact .pure ()
  | stmt :: rest, h, c => by
    rw [allComments, List.forall_mem_append] at h
    rw [addStmts, addStmts]
    exact (agree_addStmt ho h.1 (fun c => agree_addStmts ho (fun m hm =>
      h.1 m (comments_body stmt hm)) c) c).bind fun _ => agree_addStmts ho h.2 c
termination_by stmts => sizeOf stmts
decreasing_by
  all_goals
    have := sizeOf_body_le stmt
    simp only [List.cons.sizeOf_spec]
    omega

theorem State.Alike.finish {s s' : State} (h : s.Alike R s') : Css.AllAlike R s.finish s'.finish := by
  rw [State.finish, State.finish, ← h.store]
  exact (h.tree.map _).finish

theorem alike_initial (dialect : Dialect) : (State.initial dialect).Alike R (.initial dialect) :=
  ⟨.nil, rfl⟩

end Flatten

end NestedCss
