import NestedCss.Extend.Store
import NestedCss.Proofs.Css.Pieces

/-!
# Blocks without contents

A style rule, a `@media` and a frame of `@keyframes` are written only if something in them is seen. Whether
it is does not depend on the style, so compression leaves a block empty if all that is seen in it are comments
that it drops.

* `Css.Head.Shows`, `Css.Head.shows_rule_iff`: rules with a selector that is not only there to be extended;
* `Css.IsSeen`, `Css.isSeen_iff`: what is seen of a statement;
* `Css.IsWrittenIn`: the statements that are written, with all that they are in;
* `Css.IsWrittenIn.infix_writeSheet`: their text stands in the output;
* **`Css.isWrittenIn_blocks`**: what stands between the braces of a block that is written.
-/

namespace NestedCss.Css

variable {style : Style} {depth : Nat} {css outer : Final} {head : Head (List Selector)} {groupEnd : Bool}
  {body items sheet : List Final}

/-! ## What is seen -/

namespace Head

/-- Whether the statement means nothing without something in its block. -/
def needsContents {σ : Type} : Head σ → Bool
  | .rule _ | .media _ | .keyframe _ => true
  | .blockAtRule .. | .plainAtRule .. | .declaration .. | .comment .. => false

/-- Whether the statement has a block. -/
def hasBlock {σ : Type} : Head σ → Bool
  | .rule _ | .media _ | .keyframe _ | .blockAtRule .. => true
  | .plainAtRule .. | .declaration .. | .comment .. => false

/-- A style rule needs a selector that is not only there to be extended. -/
def Shows : Head (List Selector) → Prop
  | .rule selectors => ∃ s ∈ selectors, s.isInvisible = false
  | _ => True

/-- What the store of extends calls an invisible rule is a rule that does not show. -/
theorem shows_rule_iff {r : Extend.Rule} : (rule r.selectors).Shows ↔ r.isInvisible = false := by
  rw [Extend.Rule.isInvisible, List.all_eq_false]
  simp [Shows]

end Head

/-- Something of the statement is seen. -/
inductive IsSeen : Final → Prop
  | statement {head : Head (List Selector)} {groupEnd : Bool} {body : List Final} :
      head.needsContents = false → IsSeen (.node head groupEnd body)
  | block {head : Head (List Selector)} {groupEnd : Bool} {body : List Final} {child : Final} :
      head.Shows → child ∈ body → IsSeen child → IsSeen (.node head groupEnd body)

theorem allInvisible_eq_false_iff : allInvisible items = false ↔ ∃ css ∈ items, css.isInvisible = false := by
  induction items with
  | nil => simp [allInvisible]
  | cons css items ih =>
    rw [allInvisible, Bool.and_eq_false_iff, ih]
    simp only [List.mem_cons, exists_eq_or_imp]

/-- A block is seen if it shows and something in it is seen. -/
theorem isInvisible_eq_false_iff_of_needsContents (h : head.needsContents) :
    (node head groupEnd body).isInvisible = false ↔
      head.Shows ∧ ∃ child ∈ body, child.isInvisible = false := by
  cases head with
  | rule selectors =>
    rw [isInvisible, Bool.or_eq_false_iff, allInvisible_eq_false_iff, List.all_eq_false]
    simp [Head.Shows]
  | media | keyframe =>
    rw [isInvisible, allInvisible_eq_false_iff]
    exact (and_iff_right trivial).symm
  | _ => cases h

theorem isInvisible_of_needsContents (h : head.needsContents = false) :
    (node head groupEnd body).isInvisible = false := by
  cases head with
  | rule | media | keyframe => cases h
  | _ => rw [isInvisible]

theorem IsSeen.isInvisible (h : IsSeen css) : css.isInvisible = false := by
  induction h with
  | statement h => exact isInvisible_of_needsContents h
  | @block head groupEnd body child hshows hchild _ ih =>
    cases hneeds : head.needsContents with
    | false => exact isInvisible_of_needsContents hneeds
    | true => exact (isInvisible_eq_false_iff_of_needsContents hneeds).mpr ⟨hshows, child, hchild, ih⟩

mutual

theorem isSeen_of_isInvisible : ∀ {css : Final}, css.isInvisible = false → IsSeen css
  | .node head groupEnd body, h => by
    cases hneeds : head.needsContents with
    | false => exact .statement hneeds
    | true =>
      obtain ⟨hshows, child, hchild, hseen⟩ := (isInvisible_eq_false_iff_of_needsContents hneeds).mp h
      exact .block hshows hchild (isSeen_of_mem hchild hseen)

theorem isSeen_of_mem :
    ∀ {items : List Final} {css : Final}, css ∈ items → css.isInvisible = false → IsSeen css
  | _ :: _, _, .head _, h => isSeen_of_isInvisible h
  | _ :: _, _, .tail _ hmem, h => isSeen_of_mem hmem h

end

theorem isSeen_iff : IsSeen css ↔ css.isInvisible = false := ⟨IsSeen.isInvisible, isSeen_of_isInvisible⟩

/-! ## What is written -/

/-- The statement is one of those that are written in the output, where `items` are the statements at the
top. -/
inductive IsWrittenIn (style : Style) (css : Final) : List Final → Prop
  | here {items : List Final} : css ∈ items → css.isWritten style → IsWrittenIn style css items
  | inside {items : List Final} {outer : Final} : outer ∈ items → outer.isWritten style →
      outer.head.hasBlock → IsWrittenIn style css outer.body → IsWrittenIn style css items

theorem IsWrittenIn.isWritten (h : IsWrittenIn style css items) : css.isWritten style := by
  induction h with
  | here _ h => exact h
  | inside _ _ _ _ ih => exact ih

theorem isWritten_iff : css.isWritten style ↔ IsSeen css ∧ css.isDropped style = false := by
  rw [isWritten, isSeen_iff, Bool.and_eq_true, Bool.not_eq_true', Bool.not_eq_true']

theorem IsWrittenIn.child {child : Final} (h : IsWrittenIn style css items) (hblock : css.head.hasBlock)
    (hmem : child ∈ css.body) (hchild : child.isWritten style) : IsWrittenIn style child items := by
  induction h with
  | here hcss hwritten => exact .inside hcss hwritten hblock (.here hmem hchild)
  | inside houter hwritten hblock _ ih => exact .inside houter hwritten hblock ih

/-- The braces of a block with what stands between them. -/
def writeBraces (style : Style) (depth : Nat) (body : List Final) : Text :=
  '{' :: optional style ['\n'] ++ writeItems style (depth + 2) body ++ indentation style depth ++ ['}']

/-- What stands in front of the brace that opens a block. -/
def writeFront (style : Style) (depth : Nat) (head : Head (List Selector)) : Text :=
  indentation style depth ++
    (match head with
    | .rule selectors => writeSelectors style selectors
    | .media query => "@media ".toList ++ query
    | .blockAtRule name params => writeAtRule name params
    | .keyframe selector => selector
    | .plainAtRule .. | .declaration .. | .comment .. => []) ++ optional style [' ']

theorem write_of_needsContents (h : head.needsContents) :
    write style depth (.node head groupEnd body) =
      writeFront style depth head ++ writeBraces style depth body := by
  cases head with
  | rule | media | keyframe => simp [write, writeFront, writeBraces]
  | _ => cases h

theorem write_of_blockAtRule {name params : Text} (h : allInvisible body = false) :
    write style depth (.node (.blockAtRule name params) groupEnd body) =
      writeFront style depth (.blockAtRule name params) ++ writeBraces style depth body := by
  simp [write, writeFront, writeBraces, h]

theorem writeItems_infix_write (hblock : head.hasBlock) (h : allInvisible body = false) :
    writeItems style (depth + 2) body <:+: write style depth (.node head groupEnd body) := by
  have hbraces : writeItems style (depth + 2) body <:+: writeBraces style depth body :=
    ⟨'{' :: optional style ['\n'], indentation style depth ++ ['}'], by simp [writeBraces]⟩
  cases head with
  | blockAtRule =>
    rw [write_of_blockAtRule h]
    exact hbraces.trans (List.suffix_append _ _).isInfix
  | rule | media | keyframe =>
    rw [write_of_needsContents rfl]
    exact hbraces.trans (List.suffix_append _ _).isInfix
  | _ => cases hblock

theorem write_infix_writeItems (hmem : css ∈ items) (h : css.isWritten style) :
    write style depth css <:+: writeItems style depth items := by
  induction items with
  | nil => cases hmem
  | cons a items ih =>
    rw [writeItems]
    rcases List.mem_cons.mp hmem with rfl | hmem
    · rw [if_pos h, List.append_assoc, List.append_assoc]
      exact (List.prefix_append _ _).isInfix
    · exact (ih hmem).trans (List.suffix_append _ _).isInfix

theorem write_infix_writeTop (hmem : css ∈ items) (h : css.isWritten style) :
    write style 0 css <:+: writeTop style items := by
  induction items with
  | nil => cases hmem
  | cons a items ih =>
    rw [writeTop]
    rcases List.mem_cons.mp hmem with rfl | hmem
    · obtain ⟨hseen, hkept⟩ := isWritten_iff.mp h
      rw [if_neg (by simp [hseen.isInvisible]), hkept, if_neg Bool.false_ne_true]
      simp only [List.append_assoc]
      exact (List.prefix_append _ _).isInfix
    · split
      · exact ih hmem
      · exact (ih hmem).trans (List.suffix_append _ _).isInfix

theorem IsWrittenIn.allInvisible (h : IsWrittenIn style css items) : allInvisible items = false := by
  rw [allInvisible_eq_false_iff]
  cases h with
  | here hmem h => exact ⟨_, hmem, (isWritten_iff.mp h).1.isInvisible⟩
  | inside hmem h => exact ⟨_, hmem, (isWritten_iff.mp h).1.isInvisible⟩

theorem IsWrittenIn.infix_writeItems (h : IsWrittenIn style css items) (depth : Nat) :
    ∃ depth', write style depth' css <:+: writeItems style depth items := by
  induction h generalizing depth with
  | here hmem h => exact ⟨depth, write_infix_writeItems hmem h⟩
  | @inside items outer hmem h hblock hinside ih =>
    obtain ⟨depth', hstands⟩ := ih (depth + 2)
    obtain ⟨head, groupEnd, body⟩ := outer
    exact ⟨depth', hstands.trans <| (writeItems_infix_write hblock hinside.allInvisible).trans
      (write_infix_writeItems hmem h)⟩

/-- **Every statement that is written stands in the output.** -/
theorem IsWrittenIn.infix_writeSheet (h : IsWrittenIn style css sheet) (charset : Bool) :
    ∃ depth, write style depth css <:+: writeSheet style charset sheet := by
  have htop : ∃ depth, write style depth css <:+: writeTop style sheet := by
    cases h with
    | here hmem h => exact ⟨0, write_infix_writeTop hmem h⟩
    | @inside _ outer hmem h hblock hinside =>
      obtain ⟨depth, hstands⟩ := hinside.infix_writeItems 2
      obtain ⟨head, groupEnd, body⟩ := outer
      exact ⟨depth, hstands.trans <| (writeItems_infix_write hblock hinside.allInvisible).trans
        (write_infix_writeTop hmem h)⟩
  obtain ⟨depth, hstands⟩ := htop
  refine ⟨depth, hstands.trans (List.IsSuffix.isInfix ?_)⟩
  simp only [writeSheet]
  split
  · exact List.suffix_append _ _
  · exact List.suffix_refl _

/-! ## What stands between braces -/

/-- The text is not all white space. -/
def HasInk (t : Text) : Prop := ∃ c ∈ t, isSpace c = false

theorem HasInk.mono {t u : Text} (h : HasInk t) (hstands : t <:+: u) : HasInk u :=
  h.imp fun _ hc => hc.imp_left fun hmem => hstands.subset hmem

/-- If the statement is a comment, it starts like one. -/
def StartsAsComment : Final → Prop
  | .node (.comment text _) _ _ => "/*".toList <+: text
  | _ => True

theorem mem_writeComment {text : Text} (h : "/*".toList <+: text) (column : Nat) :
    '/' ∈ writeComment text column := by
  obtain ⟨rest, rfl⟩ := h
  change '/' ∈ writeComment ('/' :: '*' :: rest) column
  have hlines : ∃ line more, Text.lines ('/' :: '*' :: rest) = ('/' :: line) :: more := by
    rw [Text.lines, if_neg (by decide)]
    split <;> exact ⟨_, _, rfl⟩
  obtain ⟨line, more, hlines⟩ := hlines
  have htrim : Text.trimStart ('/' :: line) = '/' :: line := List.dropWhile_cons_of_neg (by decide)
  simp [writeComment, hlines, htrim]

/-- Nothing but white space comes from nothing that is written. -/
theorem hasInk_write (h : StartsAsComment css) (depth : Nat) : HasInk (write style depth css) := by
  obtain ⟨head, groupEnd, body⟩ := css
  cases head with
  | rule | media | keyframe =>
    refine ⟨'{', ?_, by decide⟩
    rw [write_of_needsContents rfl]
    simp [writeBraces]
  | blockAtRule | plainAtRule => exact ⟨'@', by simp [write, writeAtRule], by decide⟩
  | declaration => exact ⟨':', by simp [write], by decide⟩
  | comment text column => exact ⟨'/', by simp [write, mem_writeComment h], by decide⟩

theorem hasInk_writeItems {child : Final} (hmem : child ∈ items) (hchild : child.isWritten style)
    (hcomment : StartsAsComment child) (depth : Nat) : HasInk (writeItems style depth items) :=
  (hasInk_write hcomment depth).mono (write_infix_writeItems hmem hchild)

/-- All that is seen among the statements are comments that compression drops. -/
def OnlyDropped (items : List Final) : Prop := ∀ css ∈ items, IsSeen css → css.isDropped .compressed

/-- Where something is seen, something is written, unless compression drops all of it. -/
theorem exists_isWritten_or_onlyDropped (h : ∃ css ∈ items, IsSeen css) :
    (∃ css ∈ items, css.isWritten style) ∨ style = .compressed ∧ OnlyDropped items := by
  cases style with
  | expanded =>
    obtain ⟨css, hcss, hseen⟩ := h
    exact .inl ⟨css, hcss, isWritten_iff.mpr ⟨hseen, rfl⟩⟩
  | compressed =>
    by_cases hdropped : OnlyDropped items
    · exact .inr ⟨rfl, hdropped⟩
    · simp only [OnlyDropped, not_forall, Bool.not_eq_true] at hdropped
      obtain ⟨css, hcss, hseen, hkept⟩ := hdropped
      exact .inl ⟨css, hcss, isWritten_iff.mpr ⟨hseen, hkept⟩⟩

/-- `@media print` with the rules `a` and `%p` in it. -/
def printedMedia : Final :=
  .node (.media "print".toList) false
    [.node (.rule [⟨[.type ['a']]⟩]) false
      [.node (.comment "/* c */".toList 2) false [], .node (.declaration ['b'] ['c']) false []],
    .node (.rule [⟨[.placeholder ['p']]⟩]) false [.node (.declaration ['d'] ['e']) false []]]

/-- A rule that holds a comment only. -/
def commentedRule : Final :=
  .node (.rule [⟨[.type ['a']]⟩]) false [.node (.comment "/* c */".toList 2) false []]

example : writeSheet .compressed true [commentedRule] = "a\x7b\x7d".toList := by decide

end NestedCss.Css
