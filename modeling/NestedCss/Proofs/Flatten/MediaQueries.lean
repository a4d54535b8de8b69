import NestedCss.Proofs.Css.Finish
import NestedCss.Proofs.Flatten.Flat
import NestedCss.Proofs.Text.TopLevel

/-!
# The queries of `@media` rules within each other

Merging query lists gives a list that is split into the pairs that it was made of, so it may be merged
again. Down a chain of `@media` rules within each other this gives all ways to take one query of each list.

* `MediaQuery.parts_merge`, `MediaQuery.merge_merge`: merging as an operation on parts;
* `MediaQuery.product`: the queries that a chain of lists comes to, `MediaQuery.mergeAll`: the list in
  which they are written, **`MediaQuery.parts_mergeAll`**;
* `mediaChains`: the chains of a stylesheet;
* `Run.hasMedia`: the `@media` rules of the output are those of the chains;
* **`parts_merge_product`**: so their queries are the full product.
-/

namespace NestedCss

namespace MediaQuery

open Text (ClosesAll IsItem IsPart)

variable {list outer inner a b c : Text} {lists : List Text} {q : Text}

/-! ## Merging -/

theorem isItem_both {o i : Text} (ho : IsItem ',' o) (hi : IsItem ',' i) : IsItem ',' (both o i) :=
  ho.append (IsPart.of_isInert (by decide) (by decide)) hi

theorem isItem_of_mem_parts (h : ClosesAll list) (hq : q ∈ parts list) : IsItem ',' q :=
  Text.isItem_of_mem_splitTopLevel h hq

theorem isItem_of_mem_pairs (ho : ClosesAll outer) (hi : ClosesAll inner) :
    ∀ q ∈ (parts outer).flatMap fun o => (parts inner).map (both o), IsItem ',' q := by
  intro q hq
  obtain ⟨o, ho', hq⟩ := List.mem_flatMap.mp hq
  obtain ⟨i, hi', rfl⟩ := List.mem_map.mp hq
  exact isItem_both (isItem_of_mem_parts ho ho') (isItem_of_mem_parts hi hi')

/-- **The merged list is split into the pairs** that it was made of. -/
theorem parts_merge (ho : ClosesAll outer) (hi : ClosesAll inner) :
    parts (merge outer inner) = (parts outer).flatMap fun o => (parts inner).map (both o) :=
  Text.splitTopLevel_intercalate (by decide) (by decide) (isItem_of_mem_pairs ho hi)

theorem closesAll_merge (ho : ClosesAll outer) (hi : ClosesAll inner) : ClosesAll (merge outer inner) :=
  Text.closesAll_intercalate (by decide) fun q hq => (isItem_of_mem_pairs ho hi q hq).closesAll

theorem both_both (a b c : Text) : both (both a b) c = both a (both b c) := by
  simp [both]

/-- **Merging is associative.** -/
theorem merge_merge (ha : ClosesAll a) (hb : ClosesAll b) (hc : ClosesAll c) :
    merge (merge a b) c = merge a (merge b c) := by
  rw [merge, parts_merge ha hb, merge, parts_merge hb hc, List.flatMap_assoc]
  congr 1
  refine List.flatMap_congr fun o _ => ?_
  rw [List.flatMap_map, List.map_flatMap]
  refine List.flatMap_congr fun i _ => ?_
  rw [List.map_map]
  exact List.map_congr_left fun k _ => both_both o i k

/-! ## Chains -/

/-- The ways to take one query of each list. The query of the first list varies slowest. -/
def choices : List Text → List (List Text)
  | [] => [[]]
  | list :: inner => (parts list).flatMap fun q => (choices inner).map (q :: ·)

/-- The queries that lists within each other come to: one of each list has to hold. -/
def product (lists : List Text) : List Text := (choices lists).map (" and ".toList).intercalate

/-- The list of the innermost of `@media` rules within each other, outermost first, once each list is
merged onto the one around it. -/
def mergeAll : List Text → Option Text
  | [] => none
  | list :: inner => some (inner.foldl merge list)

theorem intercalate_both (o i : Text) (queries : List Text) :
    (" and ".toList).intercalate (both o i :: queries) =
      (" and ".toList).intercalate (o :: i :: queries) := by
  cases queries with
  | nil => simp [both]
  | cons q queries => simp [both]

theorem parts_foldl_merge (hlist : ClosesAll list) (h : ∀ l ∈ lists, ClosesAll l) :
    parts (lists.foldl merge list) = product (list :: lists) := by
  induction lists generalizing list with
  | nil => simp [product, choices, List.map_flatMap]
  | cons l lists ih =>
    obtain ⟨hl, hlists⟩ := List.forall_mem_cons.mp h
    -- the two outer lists become one, each query of which stands for a choice from both
    rw [List.foldl_cons, ih (closesAll_merge hlist hl) hlists, product, choices, parts_merge hlist hl,
      product, choices, choices, List.flatMap_assoc, List.map_flatMap, List.map_flatMap]
    refine List.flatMap_congr fun o _ => ?_
    rw [List.flatMap_map, List.map_flatMap, List.map_map, List.map_flatMap]
    refine List.flatMap_congr fun i _ => ?_
    rw [List.map_map, List.map_map]
    exact List.map_congr_left fun queries _ => intercalate_both o i queries

/-- **Merging down a chain gives the full product.** -/
theorem parts_mergeAll (h : ∀ l ∈ lists, ClosesAll l) (hq : mergeAll lists = some q) :
    parts q = product lists := by
  cases lists with
  | nil => cases hq
  | cons list inner =>
    obtain ⟨hlist, hinner⟩ := List.forall_mem_cons.mp h
    cases hq
    exact parts_foldl_merge hlist hinner

theorem mergeAll_concat (lists : List Text) (q : Text) : mergeAll (lists ++ [q]) =
    some (match mergeAll lists with
      | some outer => merge outer q
      | none => q) := by
  cases lists with
  | nil => rfl
  | cons list inner => simp [mergeAll]

end MediaQuery

/-! ## The `@media` rules of a tree -/

namespace Css.Tree

variable {σ τ : Type} {t : Tree σ} {head : Head σ} {p : Option NodeId} {query : Text}

/-- Whether the tree has a `@media` with the query. -/
def HasMedia (t : Tree σ) (query : Text) : Prop := .media query ∈ t.nodes.map Node.head

theorem hasMedia_add (t : Tree σ) (head : Head σ) (p : Option NodeId) (query : Text) :
    (t.add head p).2.HasMedia query ↔ t.HasMedia query ∨ head = .media query := by
  simp [HasMedia, add, eq_comm]

/-- A copy is of a statement that the tree has anyway. -/
theorem hasMedia_addCopy (t : Tree σ) (i : NodeId) (query : Text) :
    (t.addCopy i).2.HasMedia query ↔ t.HasMedia query := by
  have hcopy : ∀ n ∈ (t.nodes[i]?).toList, n ∈ t.nodes := fun n hn =>
    List.mem_of_getElem? (Option.mem_toList.mp hn)
  rw [HasMedia, addCopy, List.map_append, List.mem_append, HasMedia, or_iff_left_iff_imp]
  exact fun h => List.map_subset _ hcopy h

theorem hasMedia_addBlock (t : Tree σ) (head : Head σ) (p : Option NodeId) (through : Head σ → Bool)
    (query : Text) :
    (t.addBlock head p through).2.HasMedia query ↔ t.HasMedia query ∨ head = .media query := by
  rw [addBlock]
  split
  · exact hasMedia_add t head none query
  · next parent _ =>
    split
    · exact (hasMedia_add _ head _ query).trans (or_congr_left (hasMedia_addCopy t parent query))
    · exact hasMedia_add t head _ query

theorem hasMedia_endGroup (t : Tree σ) (p : Option NodeId) (query : Text) :
    (t.endGroup p).HasMedia query ↔ t.HasMedia query := by
  rw [endGroup]
  split
  · rfl
  · next i _ =>
    have hheads : (t.nodes.modify i fun n => { n with groupEnd := n.groupEnd || n.head.endsGroups }).map
        Node.head = t.nodes.map Node.head := by
      refine List.ext_getElem? fun j => ?_
      by_cases hij : i = j <;> simp [hij, Function.comp_def]
    rw [HasMedia, HasMedia, hheads]

theorem hasMedia_iff : t.HasMedia query ↔ ∃ x ∈ t.occurrences, x.head = .media query := by
  rw [HasMedia, List.mem_map]
  constructor
  · rintro ⟨n, hn, hhead⟩
    obtain ⟨i, hi⟩ := List.mem_iff_getElem?.mp hn
    exact ⟨_, mem_occurrences hi, hhead⟩
  · rintro ⟨x, hx, hhead⟩
    obtain ⟨i, -, hi⟩ := List.mem_filterMap.mp hx
    obtain ⟨head, hhead', rfl⟩ := Option.map_eq_some_iff.mp hi
    obtain ⟨n, hn, rfl⟩ := Option.map_eq_some_iff.mp hhead'
    exact ⟨n, List.mem_of_getElem? hn, hhead⟩

/-- The output has the `@media` rules of the tree. -/
theorem exists_media_finish_map (ht : t.Sound) (f : σ → τ) (query : Text) :
    (∃ x ∈ Css.occurrences (t.map f).finish, x.head = .media query) ↔ t.HasMedia query := by
  have hmap (a : Head σ) : a.map f = .media query ↔ a = .media query := by
    cases a <;> simp [Head.map]
  rw [occurrences_finish_map f ht, hasMedia_iff]
  simp only [List.mem_map, exists_exists_and_eq_and, Occurrence.map, hmap,
    (occurrences_finish_perm ht).mem_iff]

end Css.Tree

/-! ## The chains of a stylesheet -/

namespace Flatten

open Css (Head)
open Extend (RuleId)
open MediaQuery (mergeAll merge parts both product)
open Text (ClosesAll)

mutual

/-- The query lists of the `@media` rules in a statement, each with those of the `@media` rules around it,
outermost first. What stands in a `@charset` is passed over. -/
def mediaChains (around : List Text) : Stmt → List (List Text)
  | .media query _ body => (around ++ [query]) :: allMediaChains (around ++ [query]) body
  | .rule _ _ _ body | .atRoot _ body => allMediaChains around body
  | .blockAtRule name _ _ body => if AtRule.isCharset name then [] else allMediaChains around body
  | .declaration .. | .plainAtRule .. | .extend .. | .comment .. | .message .. => []

/-- The query lists of the `@media` rules in statements. -/
def allMediaChains (around : List Text) : List Stmt → List (List Text)
  | [] => []
  | stmt :: rest => mediaChains around stmt ++ allMediaChains around rest

end

variable {o : Origin} {c : Context} {s s' : State} {stmt : Stmt} {stmts : List Stmt}
  {r : Context × State} {around : List Text} {query : Text}

mutual

theorem ne_nil_of_mem_mediaChains {chain : List Text} :
    ∀ {around : List Text} {stmt : Stmt}, chain ∈ mediaChains around stmt → chain ≠ []
  | around, .media query _ body, h => by
    rw [mediaChains] at h
    rcases List.mem_cons.mp h with rfl | h
    · simp
    · exact ne_nil_of_mem_allMediaChains h
  | _, .rule .., h | _, .atRoot .., h => by
    rw [mediaChains] at h
    exact ne_nil_of_mem_allMediaChains h
  | _, .blockAtRule .., h => by
    rw [mediaChains] at h
    split at h
    · cases h
    · exact ne_nil_of_mem_allMediaChains h
  | _, .declaration .., h | _, .plainAtRule .., h | _, .extend .., h | _, .comment .., h
  | _, .message .., h => by
    rw [mediaChains] at h
    cases h

/-- A chain has the list of the `@media` that it is for. -/
theorem ne_nil_of_mem_allMediaChains {chain : List Text} :
    ∀ {around : List Text} {stmts : List Stmt}, chain ∈ allMediaChains around stmts → chain ≠ []
  | _, [], h => by cases h
  | _, stmt :: rest, h => by
    rw [allMediaChains] at h
    rcases List.mem_append.mp h with h | h
    · exact ne_nil_of_mem_mediaChains h
    · exact ne_nil_of_mem_allMediaChains h

end

theorem mergeAll_mergedQuery (hc : c.query = mergeAll around) (query : Text) :
    mergeAll (around ++ [query]) = some (c.mergedQuery query) := by
  rw [MediaQuery.mergeAll_concat, ← hc]
  rfl

theorem Adds.hasMedia (h : Adds o c s stmt s') (around : List Text) (query : Text) :
    mediaChains around stmt = [] ∧ (s'.tree.HasMedia query ↔ s.tree.HasMedia query) := by
  cases h with
  | declaration | atRule | comment =>
    refine ⟨by rw [mediaChains], ?_⟩
    rw [State.addLeaf, Css.Tree.hasMedia_add]
    simp
  | charsetBlock h => exact ⟨by rw [mediaChains, if_pos h], Iff.rfl⟩
  | dropped | charset | extend | ignored | message => exact ⟨by rw [mediaChains], Iff.rfl⟩

theorem hasMedia_enterBlock (s : State) (c : Context) (head : Head RuleId)
    (through : Head RuleId → Bool) (query : Text) :
    (s.enterBlock c head through).2.tree.HasMedia query ↔
      s.tree.HasMedia query ∨ head = .media query :=
  Css.Tree.hasMedia_addBlock s.tree head c.parent through query

theorem query_enterCopy (c : Context) (s : State) : (enterCopy c s).1.query = c.query := by
  rw [enterCopy]
  split <;> rfl

theorem hasMedia_enterCopy (c : Context) (s : State) (query : Text) :
    (enterCopy c s).2.tree.HasMedia query ↔ s.tree.HasMedia query := by
  rw [enterCopy]
  split
  · rfl
  · rw [hasMedia_enterBlock]
    simp

/-- Entering a block adds the `@media` that it is, if it is one, and the context of the body tells the
chain that it stands in. -/
theorem Enters.hasMedia (h : Enters o c s stmt r) (hc : c.query = mergeAll around) :
    ∃ own inner, mediaChains around stmt = own ++ allMediaChains inner stmt.body ∧
      r.1.query = mergeAll inner ∧
      ∀ query, r.2.tree.HasMedia query ↔
        s.tree.HasMedia query ∨ ∃ chain ∈ own, mergeAll chain = some query := by
  cases h with
  | keyframe =>
    refine ⟨[], around, by rw [mediaChains]; rfl, hc, fun query => ?_⟩
    rw [hasMedia_enterBlock]
    simp
  | rule =>
    refine ⟨[], around, by rw [mediaChains]; rfl, hc, fun query => ?_⟩
    rw [enterRule, hasMedia_enterBlock]
    simp
  | @media q =>
    refine ⟨[around ++ [q]], around ++ [q], by rw [mediaChains]; rfl, ?_, fun query => ?_⟩
    · rw [enterMedia, query_enterCopy, mergeAll_mergedQuery hc]
      rfl
    · rw [enterMedia, hasMedia_enterCopy, openMedia, hasMedia_enterBlock]
      simp [mergeAll_mergedQuery hc]
  | @atRule name params _ _ hcharset =>
    refine ⟨[], around, by rw [mediaChains, if_neg (by simp [hcharset])]; rfl, ?_, fun query => ?_⟩
    · rw [enterAtRule]
      split
      · exact hc
      · exact (query_enterCopy _ _).trans hc
    · have hopen : (openAtRule c name params s).2.tree.HasMedia query ↔ s.tree.HasMedia query := by
        rw [openAtRule, hasMedia_enterBlock]
        simp
      rw [enterAtRule]
      split
      · simpa using hopen
      · simpa [hasMedia_enterCopy] using hopen
  | atRoot => exact ⟨[], around, by rw [mediaChains]; rfl, hc, by simp⟩

theorem leave_hasMedia (c : Context) (stmt : Stmt) (s : State) (query : Text) :
    (leave c stmt s).tree.HasMedia query ↔ s.tree.HasMedia query := by
  rcases leave_tree c stmt s with h | h
  · rw [h]
  · rw [h, Css.Tree.hasMedia_endGroup]

/-- **A run adds the `@media` rules of its chains.** -/
theorem Run.hasMedia (h : Run o c stmts s s') (hc : c.query = mergeAll around) (query : Text) :
    s'.tree.HasMedia query ↔
      s.tree.HasMedia query ∨ ∃ chain ∈ allMediaChains around stmts, mergeAll chain = some query := by
  induction h generalizing around with
  | nil => simp [allMediaChains]
  | plain hadds _ ih =>
    obtain ⟨hchains, hsame⟩ := hadds.hasMedia around query
    rw [ih hc, hsame, allMediaChains, hchains, List.nil_append]
  | block henters _ _ ihbody ih =>
    obtain ⟨own, inner, hchains, hquery, hown⟩ := henters.hasMedia hc
    rw [ih hc, leave_hasMedia, ihbody hquery, hown, allMediaChains, hchains]
    simp only [List.mem_append, or_and_right, exists_or, or_assoc]

/-- The `@media` rules of the output are those of the chains. -/
theorem exists_media_finish (h : addStmts o stmts {} (.initial o.dialect) = .ok () s) (query : Text) :
    (∃ x ∈ Css.occurrences s.finish, x.head = .media query) ↔
      ∃ chain ∈ allMediaChains [] stmts, mergeAll chain = some query := by
  have hrun := addStmts_eq_ok.mp h
  have hsound := (hrun.fits (fits_initial o.dialect)).1.isFlat.sound
  have hquery : ({} : Context).query = mergeAll [] := rfl
  have hnone : ¬ (State.initial o.dialect).tree.HasMedia query := by
    simp [Css.Tree.HasMedia, State.initial, Css.Tree.empty]
  rw [State.finish, Css.Tree.exists_media_finish_map hsound, hrun.hasMedia hquery, or_iff_right hnone]

/-- **Merging gives the full product.** A merged list is split into the pairs that it was made of, merging
is associative, and the `@media` rules of the output are those of the chains, each with the queries that
take one of every list of the chain. -/
theorem parts_merge_product :
    (∀ outer inner : Text, ClosesAll outer → ClosesAll inner →
      parts (merge outer inner) = (parts outer).flatMap fun o => (parts inner).map (both o)) ∧
    (∀ a b c : Text, ClosesAll a → ClosesAll b → ClosesAll c →
      merge (merge a b) c = merge a (merge b c)) ∧
    ∀ (o : Origin) (stmts : List Stmt) (s : State),
      addStmts o stmts {} (.initial o.dialect) = .ok () s →
      (∀ query, (∃ x ∈ Css.occurrences s.finish, x.head = .media query) ↔
        ∃ chain ∈ allMediaChains [] stmts, mergeAll chain = some query) ∧
      ∀ chain ∈ allMediaChains [] stmts, (∀ list ∈ chain, ClosesAll list) →
        ∃ query, mergeAll chain = some query ∧ parts query = product chain := by
  refine ⟨fun outer inner => MediaQuery.parts_merge, fun a b c => MediaQuery.merge_merge,
    fun o stmts s h => ⟨exists_media_finish h, fun chain hchain hlists => ?_⟩⟩
  cases chain with
  | nil => exact absurd rfl (ne_nil_of_mem_allMediaChains hchain)
  | cons list inner => exact ⟨_, rfl, MediaQuery.parts_mergeAll hlists rfl⟩

/-- `@media a, (b, c) { .x { @media d { @media not "e,)", f { } } } }`. -/
def deepSheet : List Stmt :=
  let r : Region := ⟨0, 0⟩
  [.media "a, (b, c)".toList r [.rule ".x".toList r r [.media ['d'] r
    [.media "not \"e,)\", f".toList r []]]]]

/-- The innermost `@media` of the example has four queries. -/
theorem parts_merge_product_deepSheet : ∃ s,
    addStmts (blank .scss) deepSheet {} (.initial .scss) = .ok () s ∧
      ∃ x ∈ Css.occurrences s.finish, ∃ query, x.head = .media query ∧ parts query =
        ["a and d and not \"e,)\"".toList, "a and d and f".toList,
          "(b, c) and d and not \"e,)\"".toList, "(b, c) and d and f".toList] := by
  obtain ⟨s, hs, -⟩ : ∃ s, addStmts (blank .scss) deepSheet {} (.initial .scss) = .ok () s ∧ True :=
    exists_ok_of_run (by decide +kernel)
  obtain ⟨hmedia, hproduct⟩ := parts_merge_product.2.2 (blank .scss) deepSheet s hs
  have hchain : ["a, (b, c)".toList, ['d'], "not \"e,)\", f".toList] ∈ allMediaChains [] deepSheet := by
    decide +kernel
  obtain ⟨query, hquery, hparts⟩ := hproduct _ hchain (by decide +kernel)
  obtain ⟨x, hx, hhead⟩ := (hmedia query).mpr ⟨_, hchain, hquery⟩
  exact ⟨s, hs, x, hx, query, hhead, hparts.trans (by decide +kernel)⟩

end Flatten

end NestedCss
