import NestedCss.Css.Writer
import NestedCss.Proofs.Css.Finish

/-!
# What the styles have in common

Written CSS is a sequence of pieces: what the author wrote, signs that CSS is spelled with, and separators.
Expanded style writes them all, compressed style leaves the separators out.

* `Separator`, `Sign`, `Piece`, `spell`: pieces and how they are written;
* `WellPlaced`: every separator stands where its kind may stand;
* `contents`: what the author wrote, as far as it is seen;
* `Css.pieces`, `itemPieces`, `sheetPieces`: the pieces of statements;
* **`writeSheet_eq_spell`**: either style spells the same pieces.
-/

namespace NestedCss.Css

/-! ## Pieces -/

/-- What the writer puts between other pieces to make them easier to read. -/
inductive Separator where
  | newline
  /-- The spaces that a line starts with. -/
  | indentation (width : Nat)
  /-- The space in front of the brace that opens a block. -/
  | braceSpace
  /-- The space behind the colon of a declaration. -/
  | colonSpace
  /-- The space behind a comma in a list of selectors. -/
  | commaSpace
  /-- The space on either side of an explicit combinator. -/
  | combinatorSpace
  /-- The semicolon of the last statement in a block. -/
  | lastSemicolon
  deriving DecidableEq, Repr

/-- The written form of a separator. -/
def Separator.text : Separator → Text
  | .newline => ['\n']
  | .indentation width => List.replicate width ' '
  | .braceSpace | .colonSpace | .commaSpace | .combinatorSpace => [' ']
  | .lastSemicolon => [';']

/-- What CSS needs around the contents. -/
inductive Sign where
  | openBrace
  | closeBrace
  /-- A block without contents. -/
  | emptyBlock
  | colon
  | semicolon
  | comma
  /-- The start of an at-rule. -/
  | at
  /-- The start of a `@media`, up to its query. -/
  | media
  /-- What stands between the name of an at-rule and its parameters. -/
  | gap
  /-- The end of a line within a comment. -/
  | lineEnd
  /-- The spaces that a line of a comment starts with. -/
  | margin (width : Nat)
  deriving DecidableEq, Repr

/-- The written form of a sign. -/
def Sign.text : Sign → Text
  | .openBrace => "\x7b".toList
  | .closeBrace => "\x7d".toList
  | .emptyBlock => " \x7b\x7d".toList
  | .colon => [':']
  | .semicolon => [';']
  | .comma => [',']
  | .at => ['@']
  | .media => '@' :: "media ".toList
  | .gap => [' ']
  | .lineEnd => ['\n']
  | .margin width => List.replicate width ' '

/-- A piece of written CSS. -/
inductive Piece where
  /-- Something that the author wrote. -/
  | content (t : Text)
  | sign (s : Sign)
  | separator (s : Separator)
  deriving DecidableEq, Repr

namespace Piece

/-- How a style writes a piece. -/
def text (style : Style) : Piece → Text
  | content t => t
  | sign s => s.text
  | separator s => optional style s.text

/-- What the author wrote of a piece. -/
def content? : Piece → Option Text
  | content t => some t
  | _ => none

end Piece

/-- How a style writes pieces. -/
def spell (style : Style) (pieces : List Piece) : Text := pieces.flatMap (Piece.text style)

/-- What the author wrote, piece by piece. -/
def contentsOf (pieces : List Piece) : List Text := pieces.filterMap Piece.content?

/-! ## Places of separators -/

/-- Whether the pieces, if any, start with what may stand at the start of a line. -/
def StartsLine : List Piece → Prop
  | [] | .separator .newline :: _ | .separator (.indentation _) :: _ => True
  | _ => False

/-- Whether a separator may stand behind the piece `before`, if any, and in front of the pieces
`after`. -/
def Separator.Fits (before : Option Piece) (after : List Piece) : Separator → Prop
  | .newline => StartsLine after
  | .indentation _ => before = none ∨ before = some (.separator .newline)
  | .braceSpace => after.head? = some (.sign .openBrace)
  | .colonSpace => before = some (.sign .colon)
  | .commaSpace => before = some (.sign .comma)
  | .combinatorSpace => ∃ c : Combinator,
      before = some (.content [c.char]) ∨ after.head? = some (.content [c.char])
  | .lastSemicolon => ∃ width rest,
      after = .separator .newline :: .separator (.indentation width) :: .sign .closeBrace :: rest

/-- Whether all separators among the pieces, which stand behind the piece `before`, are in their
places. -/
def WellPlaced (before : Option Piece) : List Piece → Prop
  | [] => True
  | p :: rest => (∀ s, p = .separator s → s.Fits before rest) ∧ WellPlaced (some p) rest

/-! ## What the author wrote -/

/-- What the author wrote of a comment: its lines, wherever they start. -/
def commentLines (text : Text) : List Text := (Text.lines text).map Text.trimStart

/-- What the author wrote of a list of selectors, as far as it is seen. -/
def selectorContents (selectors : List Selector) : List Text :=
  (selectors.filter (!·.isInvisible)).flatMap fun s => s.fragments.map Fragment.text

mutual

/-- What the author wrote of a statement and, as far as it is seen, of its block. -/
def contents : Final → List Text
  | .node head _ body =>
    match head with
    | .rule selectors => selectorContents selectors ++ allContents body
    | .media query => query :: allContents body
    | .blockAtRule name params => name :: params :: allContents body
    | .plainAtRule name params => [name, params]
    | .keyframe selector => selector :: allContents body
    | .declaration property value => [property, value]
    | .comment text _ => commentLines text

/-- What the author wrote of the statements that are seen. -/
def allContents : List Final → List Text
  | [] => []
  | css :: rest => (if css.isInvisible then [] else contents css) ++ allContents rest

end

/-! ## The pieces of statements -/

/-- The pieces of a fragment at a place in a selector. -/
def fragmentPieces (isFirst isLast : Bool) (f : Fragment) : List Piece :=
  if f.isCombinator then
    (if isFirst then [] else [.separator .combinatorSpace]) ++ .content f.text ::
      (if isLast then [] else [.separator .combinatorSpace])
  else [.content f.text]

/-- The pieces of fragments, where `isFirst` says whether they start the selector. -/
def piecesFrom (isFirst : Bool) : List Fragment → List Piece
  | [] => []
  | f :: rest => fragmentPieces isFirst rest.isEmpty f ++ piecesFrom false rest

/-- The pieces of a list of selectors. -/
def selectorPieces (selectors : List Selector) : List Piece :=
  [.sign .comma, .separator .commaSpace].intercalate
    ((selectors.filter (!·.isInvisible)).map fun s => piecesFrom true s.fragments)

/-- The pieces of a line of a comment that started in the given column. -/
def linePieces (column : Nat) (line : Text) : List Piece :=
  let rest := Text.trimStart line
  [.sign (.margin (Text.byteLength line - Text.byteLength rest - column)), .content rest]

/-- The pieces of a comment that started in the given column. -/
def commentPieces (text : Text) (column : Nat) : List Piece :=
  match Text.lines text with
  | [] => []
  | first :: lines =>
    let rest := [.sign .lineEnd].intercalate (lines.map (linePieces column))
    .content (Text.trimStart first) ::
      (if (spell .expanded rest).isEmpty then rest else .sign .lineEnd :: rest)

/-- The pieces of an at-rule up to its block. -/
def atRulePieces (name params : Text) : List Piece :=
  .sign .at :: .content name ::
    (if params.isEmpty then [.content params] else [.sign .gap, .content params])

/-- The semicolon between a statement and another, which a block may end without. -/
def semicolonPieces (isLast : Bool) (css : Final) : List Piece :=
  if css.head.needsSemicolon then
    [if isLast then .separator .lastSemicolon else .sign .semicolon]
  else []

/-- The pieces of a block behind a statement that is indented by `depth`. -/
def blockPieces (depth : Nat) (items : List Piece) : List Piece :=
  .separator .braceSpace :: .sign .openBrace :: .separator .newline :: items ++
    [.separator (.indentation depth), .sign .closeBrace]

mutual

/-- The pieces of a statement, indented by `depth`. -/
def pieces (depth : Nat) : Final → List Piece
  | .node head _ body =>
    let block := blockPieces depth (itemPieces (depth + 2) body)
    .separator (.indentation depth) ::
      match head with
      | .rule selectors => selectorPieces selectors ++ block
      | .media query => .sign .media :: .content query :: block
      | .blockAtRule name params =>
        atRulePieces name params ++ if allInvisible body then [.sign .emptyBlock] else block
      | .plainAtRule name params => atRulePieces name params
      | .keyframe selector => .content selector :: block
      | .declaration property value =>
        [.content property, .sign .colon, .separator .colonSpace, .content value]
      | .comment text column => commentPieces text column

/-- The pieces of what is seen in a block, indented by `depth`. -/
def itemPieces (depth : Nat) : List Final → List Piece
  | [] => []
  | css :: rest =>
    (if css.isInvisible then []
    else pieces depth css ++ semicolonPieces rest.isEmpty css ++ [.separator .newline]) ++
      itemPieces depth rest

end

/-- The pieces of what is seen at the top. -/
def sheetPieces : List Final → List Piece
  | [] => []
  | css :: rest =>
    if css.isInvisible then sheetPieces rest
    else pieces 0 css ++ semicolonPieces false css ++ [.separator .newline] ++
      (if css.groupEnd && !allInvisible rest then [.separator .newline] else []) ++ sheetPieces rest

/-! ## Their spelling -/

variable {style : Style}

@[simp] theorem spell_nil : spell style [] = [] := rfl

@[simp] theorem spell_cons (p : Piece) (rest : List Piece) :
    spell style (p :: rest) = p.text style ++ spell style rest := rfl

@[simp] theorem spell_append (a b : List Piece) : spell style (a ++ b) = spell style a ++ spell style b :=
  List.flatMap_append

theorem spell_intercalate (separator : List Piece) (lists : List (List Piece)) :
    spell style (separator.intercalate lists) =
      (spell style separator).intercalate (lists.map (spell style)) := by
  induction lists with
  | nil => rfl
  | cons a lists ih =>
    cases lists with
    | nil => simp
    | cons b lists =>
      rw [List.intercalate_cons_cons, spell_append, spell_append, ih]
      simp [List.intercalate_cons_cons]

theorem spell_fragmentPieces (isFirst isLast : Bool) (f : Fragment) :
    spell style (fragmentPieces isFirst isLast f) = Selector.fragmentText style isFirst isLast f := by
  unfold fragmentPieces Selector.fragmentText
  cases f.isCombinator <;> cases style <;> cases isFirst <;> cases isLast <;>
    simp [Piece.text, Separator.text, optional]

theorem spell_piecesFrom (isFirst : Bool) (fragments : List Fragment) :
    spell style (piecesFrom isFirst fragments) = Selector.textFrom style isFirst fragments := by
  induction fragments generalizing isFirst with
  | nil => rfl
  | cons f rest ih => rw [piecesFrom, spell_append, spell_fragmentPieces, ih, Selector.textFrom]

theorem spell_selectorPieces (selectors : List Selector) :
    spell style (selectorPieces selectors) = writeSelectors style selectors := by
  rw [selectorPieces, spell_intercalate, List.map_map, writeSelectors]
  congr 1
  · simp [Piece.text, Sign.text, Separator.text]
  · exact List.map_congr_left fun s _ => spell_piecesFrom true s.fragments

theorem spell_linePieces (column : Nat) (line : Text) :
    spell style (linePieces column line) = reindent column line := by
  simp [linePieces, reindent, Piece.text, Sign.text]

theorem spell_commentPieces (text : Text) (column : Nat) :
    spell style (commentPieces text column) = writeComment text column := by
  have hrest (style : Style) (lines : List Text) :
      spell style ([.sign .lineEnd].intercalate (lines.map (linePieces column))) =
        ['\n'].intercalate (lines.map (reindent column)) := by
    rw [spell_intercalate, List.map_map]
    congr 1
    exact List.map_congr_left fun line _ => spell_linePieces column line
  unfold commentPieces writeComment
  cases Text.lines text with
  | nil => rfl
  | cons first lines =>
    dsimp only
    rw [hrest, spell_cons]
    split
    · next hempty => rw [hrest, List.isEmpty_iff.mp hempty]; rfl
    · rw [spell_cons, hrest]; rfl

theorem spell_atRulePieces (name params : Text) :
    spell style (atRulePieces name params) = writeAtRule name params := by
  unfold atRulePieces writeAtRule
  cases params <;> simp [Piece.text, Sign.text]

/-- Whether a statement is written in both styles: compression drops other comments. -/
def Head.survives {σ : Type} : Head σ → Bool
  | .comment text _ => "/*!".toList.isPrefixOf text
  | _ => true

theorem isDropped_of_survives {css : Final} (h : css.head.survives = true) :
    css.isDropped style = false := by
  unfold isDropped
  cases style with
  | expanded => rfl
  | compressed =>
    revert h
    cases css.head <;> simp [Head.survives]

theorem head_mem_occurrencesInAll {around : List (Head (List Selector))} {items : List Final}
    {css : Final} (h : css ∈ items) : ⟨around, css.head⟩ ∈ occurrencesInAll around items := by
  induction items with
  | nil => cases h
  | cons a items ih =>
    rw [occurrencesInAll, List.mem_append]
    rcases List.mem_cons.mp h with rfl | h
    · obtain ⟨head, groupEnd, body⟩ := css
      exact .inl List.mem_cons_self
    · exact .inr (ih h)

/-- The statements, and all within their blocks, are written in both styles. -/
def AllSurvive (around : List (Head (List Selector))) (items : List Final) : Prop :=
  ∀ x ∈ occurrencesInAll around items, x.head.survives = true

theorem AllSurvive.cons {around : List (Head (List Selector))} {head : Head (List Selector)}
    {groupEnd : Bool} {body rest : List Final}
    (h : AllSurvive around (.node head groupEnd body :: rest)) :
    head.survives = true ∧ AllSurvive (around ++ [head]) body ∧ AllSurvive around rest := by
  simp only [AllSurvive, occurrencesInAll, occurrencesIn, List.mem_append, List.mem_cons] at h
  exact ⟨h ⟨around, head⟩ (.inl (.inl rfl)), fun x hx => h x (.inl (.inr hx)), fun x hx => h x (.inr hx)⟩

theorem AllSurvive.isDropped {around : List (Head (List Selector))} {items : List Final}
    (h : AllSurvive around items) : ∀ css ∈ items, css.isDropped style = false :=
  fun _ hcss => isDropped_of_survives (h _ (head_mem_occurrencesInAll hcss))

theorem AllSurvive.all_isDropped {around : List (Head (List Selector))} {items : List Final}
    (h : AllSurvive around items) : items.all (Css.isDropped style) = items.isEmpty := by
  cases items with
  | nil => rfl
  | cons css rest => rw [List.all_cons, h.isDropped css List.mem_cons_self]; rfl

theorem spell_semicolonPieces (isLast : Bool) (css : Final) :
    spell style (semicolonPieces isLast css) =
      if css.head.needsSemicolon && !(style = .compressed && isLast) then [';'] else [] := by
  unfold semicolonPieces
  cases css.head.needsSemicolon <;> cases style <;> cases isLast <;> rfl

theorem spell_pieces {depth : Nat} {head : Head (List Selector)} {groupEnd : Bool} {body : List Final}
    (hbody : spell style (itemPieces (depth + 2) body) = writeItems style (depth + 2) body) :
    spell style (pieces depth (.node head groupEnd body)) = write style depth (.node head groupEnd body) := by
  cases head with
  | rule | media | keyframe =>
    simp [pieces, blockPieces, write, spell_selectorPieces, hbody, Piece.text, Sign.text,
      Separator.text, indentation]
  | blockAtRule name params =>
    rw [pieces, write, spell_cons, spell_append, spell_atRulePieces]
    split <;> simp [blockPieces, hbody, Piece.text, Sign.text, Separator.text, indentation]
  | plainAtRule =>
    simp [pieces, write, spell_atRulePieces, Piece.text, Separator.text, indentation]
  | declaration => simp [pieces, write, Piece.text, Sign.text, Separator.text, indentation]
  | comment => simp [pieces, write, spell_commentPieces, Piece.text, Separator.text, indentation]

theorem spell_itemPieces {around : List (Head (List Selector))} {depth : Nat} :
    ∀ {items : List Final}, AllSurvive around items →
      spell style (itemPieces depth items) = writeItems style depth items
  | [], _ => rfl
  | .node head groupEnd body :: rest, h => by
    have hbody : spell style (itemPieces (depth + 2) body) = writeItems style (depth + 2) body :=
      spell_itemPieces h.cons.2.1
    have hrest : spell style (itemPieces depth rest) = writeItems style depth rest :=
      spell_itemPieces h.cons.2.2
    have hwritten : isWritten style (.node head groupEnd body) =
        !isInvisible (.node head groupEnd body) := by
      rw [isWritten, h.isDropped _ List.mem_cons_self, Bool.not_false, Bool.and_true]
    rw [itemPieces, writeItems, spell_append, hrest, h.cons.2.2.all_isDropped, hwritten]
    cases isInvisible (.node head groupEnd body) with
    | true => rfl
    | false => simp [spell_pieces hbody, spell_semicolonPieces, Piece.text, Separator.text]

theorem spell_sheetPieces {around : List (Head (List Selector))} {sheet : List Final}
    (h : AllSurvive around sheet) : spell style (sheetPieces sheet) = writeTop style sheet := by
  induction sheet with
  | nil => rfl
  | cons css rest ih =>
    obtain ⟨head, groupEnd, body⟩ := css
    have hbody : spell style (itemPieces 2 body) = writeItems style 2 body :=
      spell_itemPieces h.cons.2.1
    rw [sheetPieces, writeTop, h.isDropped _ List.mem_cons_self]
    split
    · exact ih h.cons.2.2
    · rw [spell_append, spell_append, spell_append, spell_append, ih h.cons.2.2, spell_pieces hbody,
        spell_semicolonPieces, Bool.and_false, Bool.not_false, Bool.and_true]
      cases Css.groupEnd (.node head groupEnd body) && !allInvisible rest <;>
        simp [Piece.text, Separator.text]

/-! ## Their contents -/

@[simp] theorem contentsOf_append (a b : List Piece) :
    contentsOf (a ++ b) = contentsOf a ++ contentsOf b :=
  List.filterMap_append

@[simp] theorem contentsOf_cons (p : Piece) (rest : List Piece) :
    contentsOf (p :: rest) = p.content?.toList ++ contentsOf rest := by
  rw [contentsOf, List.filterMap_cons]
  cases p.content? <;> rfl

@[simp] theorem contentsOf_nil : contentsOf [] = [] := rfl

theorem contentsOf_intercalate {separator : List Piece} (h : contentsOf separator = [])
    (lists : List (List Piece)) :
    contentsOf (separator.intercalate lists) = lists.flatMap contentsOf := by
  induction lists with
  | nil => rfl
  | cons a lists ih =>
    cases lists with
    | nil => simp
    | cons b lists =>
      rw [List.intercalate_cons_cons, contentsOf_append, contentsOf_append, ih, h, List.append_nil]
      rfl

theorem contentsOf_piecesFrom (isFirst : Bool) (fragments : List Fragment) :
    contentsOf (piecesFrom isFirst fragments) = fragments.map Fragment.text := by
  induction fragments generalizing isFirst with
  | nil => rfl
  | cons f rest ih =>
    rw [piecesFrom, contentsOf_append, ih, fragmentPieces]
    cases f.isCombinator <;> cases isFirst <;> cases rest.isEmpty <;> simp [Piece.content?]

theorem contentsOf_selectorPieces (selectors : List Selector) :
    contentsOf (selectorPieces selectors) = selectorContents selectors := by
  rw [selectorPieces, contentsOf_intercalate rfl, List.flatMap_map, selectorContents]
  simp only [contentsOf_piecesFrom]

theorem contentsOf_commentPieces (text : Text) (column : Nat) :
    contentsOf (commentPieces text column) = commentLines text := by
  have hlines (lines : List Text) :
      contentsOf ([.sign .lineEnd].intercalate (lines.map (linePieces column))) =
        lines.map Text.trimStart := by
    rw [contentsOf_intercalate rfl, List.flatMap_map]
    exact List.map_eq_flatMap.symm
  unfold commentPieces commentLines
  cases Text.lines text with
  | nil => rfl
  | cons first lines =>
    dsimp only
    split <;> simp [hlines, Piece.content?]

theorem contentsOf_atRulePieces (name params : Text) :
    contentsOf (atRulePieces name params) = [name, params] := by
  unfold atRulePieces
  split <;> simp [Piece.content?]

theorem contentsOf_semicolonPieces (isLast : Bool) (css : Final) :
    contentsOf (semicolonPieces isLast css) = [] := by
  unfold semicolonPieces
  split
  · cases isLast <;> rfl
  · rfl

theorem allContents_of_allInvisible {items : List Final} (h : allInvisible items = true) :
    allContents items = [] := by
  induction items with
  | nil => rfl
  | cons css rest ih =>
    rw [allInvisible, Bool.and_eq_true] at h
    rw [allContents, if_pos h.1, ih h.2, List.append_nil]

theorem contentsOf_pieces {depth : Nat} {head : Head (List Selector)} {groupEnd : Bool}
    {body : List Final} (hbody : contentsOf (itemPieces (depth + 2) body) = allContents body) :
    contentsOf (pieces depth (.node head groupEnd body)) = contents (.node head groupEnd body) := by
  cases head with
  | rule | media | keyframe =>
    simp [pieces, blockPieces, contents, contentsOf_selectorPieces, hbody, Piece.content?]
  | blockAtRule name params =>
    rw [pieces, contents, contentsOf_cons, contentsOf_append, contentsOf_atRulePieces]
    split
    · next hempty => simp [allContents_of_allInvisible hempty, Piece.content?]
    · simp [blockPieces, hbody, Piece.content?]
  | plainAtRule => simp [pieces, contents, contentsOf_atRulePieces, Piece.content?]
  | declaration => simp [pieces, contents, Piece.content?]
  | comment => simp [pieces, contents, contentsOf_commentPieces, Piece.content?]

theorem contentsOf_itemPieces : ∀ (depth : Nat) (items : List Final),
    contentsOf (itemPieces depth items) = allContents items
  | _, [] => rfl
  | depth, .node head groupEnd body :: rest => by
    have hbody := contentsOf_itemPieces (depth + 2) body
    rw [itemPieces, allContents, contentsOf_append, contentsOf_itemPieces depth rest]
    cases isInvisible (.node head groupEnd body) with
    | true => rfl
    | false => simp [contentsOf_pieces hbody, contentsOf_semicolonPieces, Piece.content?]

theorem contentsOf_sheetPieces (sheet : List Final) :
    contentsOf (sheetPieces sheet) = allContents sheet := by
  induction sheet with
  | nil => rfl
  | cons css rest ih =>
    obtain ⟨head, groupEnd, body⟩ := css
    rw [sheetPieces, allContents]
    split
    · exact ih
    · rw [contentsOf_append, contentsOf_append, contentsOf_append, contentsOf_append, ih,
        contentsOf_pieces (contentsOf_itemPieces 2 body), contentsOf_semicolonPieces]
      cases Css.groupEnd (.node head groupEnd body) && !allInvisible rest <;> simp [Piece.content?]

/-! ## The places of their separators -/

@[simp] theorem wellPlaced_nil (before : Option Piece) : WellPlaced before [] := trivial

@[simp] theorem wellPlaced_content {before : Option Piece} {t : Text} {rest : List Piece} :
    WellPlaced before (.content t :: rest) ↔ WellPlaced (some (.content t)) rest := by
  simp [WellPlaced]

@[simp] theorem wellPlaced_sign {before : Option Piece} {s : Sign} {rest : List Piece} :
    WellPlaced before (.sign s :: rest) ↔ WellPlaced (some (.sign s)) rest := by
  simp [WellPlaced]

@[simp] theorem wellPlaced_separator {before : Option Piece} {s : Separator} {rest : List Piece} :
    WellPlaced before (.separator s :: rest) ↔
      s.Fits before rest ∧ WellPlaced (some (.separator s)) rest := by
  simp [WellPlaced]

/-- Whether pieces keep separators in their places wherever they stand within a line. -/
def FitAnywhere (pieces : List Piece) : Prop :=
  ∀ (before : Option Piece) (rest : List Piece),
    (∀ p : Option Piece, WellPlaced p rest) → WellPlaced before (pieces ++ rest)

namespace FitAnywhere

theorem nil : FitAnywhere [] := fun _ _ h => h _

theorem append {a b : List Piece} (ha : FitAnywhere a) (hb : FitAnywhere b) : FitAnywhere (a ++ b) := by
  intro before rest h
  rw [List.append_assoc]
  exact ha before _ fun p => hb p rest h

theorem content (t : Text) : FitAnywhere [.content t] := fun _ _ h => wellPlaced_content.mpr (h _)

theorem sign (s : Sign) : FitAnywhere [.sign s] := fun _ _ h => wellPlaced_sign.mpr (h _)

theorem intercalate {separator : List Piece} (hseparator : FitAnywhere separator)
    {lists : List (List Piece)} (h : ∀ a ∈ lists, FitAnywhere a) :
    FitAnywhere (separator.intercalate lists) := by
  induction lists with
  | nil => exact nil
  | cons a lists ih =>
    have ha := h a List.mem_cons_self
    have hlists := ih fun b hb => h b (List.mem_cons_of_mem _ hb)
    cases lists with
    | nil => simpa using ha
    | cons b lists =>
      rw [List.intercalate_cons_cons]
      exact (ha.append hseparator).append hlists

end FitAnywhere

theorem fitAnywhere_fragmentPieces (isFirst isLast : Bool) (f : Fragment) :
    FitAnywhere (fragmentPieces isFirst isLast f) := by
  intro before rest h
  unfold fragmentPieces
  cases f with
  | combinator c =>
    cases isFirst <;> cases isLast <;>
      simp [Fragment.isCombinator, Fragment.text, Separator.Fits, h, exists_or]
  | _ => simp [Fragment.isCombinator, h]

theorem fitAnywhere_piecesFrom (isFirst : Bool) (fragments : List Fragment) :
    FitAnywhere (piecesFrom isFirst fragments) := by
  induction fragments generalizing isFirst with
  | nil => exact .nil
  | cons f rest ih => exact (fitAnywhere_fragmentPieces _ _ f).append (ih false)

theorem fitAnywhere_selectorPieces (selectors : List Selector) :
    FitAnywhere (selectorPieces selectors) := by
  refine FitAnywhere.intercalate ?_ ?_
  · intro before rest h
    simp [Separator.Fits, h]
  · simp only [List.mem_map, forall_exists_index, and_imp]
    rintro _ s - rfl
    exact fitAnywhere_piecesFrom true s.fragments

theorem fitAnywhere_linePieces (column : Nat) (line : Text) : FitAnywhere (linePieces column line) :=
  (FitAnywhere.sign _).append (.content _)

theorem fitAnywhere_commentPieces (text : Text) (column : Nat) :
    FitAnywhere (commentPieces text column) := by
  unfold commentPieces
  cases Text.lines text with
  | nil => exact .nil
  | cons first lines =>
    have hlines : FitAnywhere ([.sign .lineEnd].intercalate (lines.map (linePieces column))) := by
      refine FitAnywhere.intercalate (.sign _) ?_
      simp only [List.mem_map, forall_exists_index, and_imp]
      rintro _ line - rfl
      exact fitAnywhere_linePieces column line
    dsimp only
    split
    · exact (FitAnywhere.content _).append hlines
    · exact (FitAnywhere.content _).append ((FitAnywhere.sign _).append hlines)

theorem fitAnywhere_atRulePieces (name params : Text) : FitAnywhere (atRulePieces name params) := by
  intro before rest h
  unfold atRulePieces
  split <;> simp [h]

theorem fitAnywhere_semicolonPieces (css : Final) : FitAnywhere (semicolonPieces false css) := by
  unfold semicolonPieces
  split
  · exact .sign .semicolon
  · exact .nil

/-- Whether pieces start with their indentation and keep all other separators in their places. -/
def IsIndented (depth : Nat) (pieces : List Piece) : Prop :=
  ∃ inline, pieces = .separator (.indentation depth) :: inline ∧ FitAnywhere inline

theorem isIndented_pieces {depth : Nat} {head : Head (List Selector)} {groupEnd : Bool}
    {body : List Final} (hbody : FitAnywhere (blockPieces depth (itemPieces (depth + 2) body))) :
    IsIndented depth (pieces depth (.node head groupEnd body)) := by
  refine ⟨_, rfl, ?_⟩
  cases head with
  | rule selectors => exact (fitAnywhere_selectorPieces selectors).append hbody
  | media query => exact (FitAnywhere.sign .media).append ((FitAnywhere.content query).append hbody)
  | blockAtRule name params =>
    refine (fitAnywhere_atRulePieces name params).append ?_
    split
    · exact .sign .emptyBlock
    · exact hbody
  | plainAtRule name params => exact fitAnywhere_atRulePieces name params
  | keyframe selector => exact (FitAnywhere.content selector).append hbody
  | declaration property value =>
    intro before rest h
    simp [Separator.Fits, h]
  | comment text column => exact fitAnywhere_commentPieces text column

theorem startsLine_pieces (depth : Nat) (css : Final) (rest : List Piece) :
    StartsLine (pieces depth css ++ rest) := by
  obtain ⟨head, groupEnd, body⟩ := css
  trivial

theorem startsLine_itemPieces (depth : Nat) (items : List Final) {rest : List Piece}
    (h : StartsLine rest) : StartsLine (itemPieces depth items ++ rest) := by
  induction items with
  | nil => exact h
  | cons css items ih =>
    rw [itemPieces]
    split
    · exact ih
    · simp only [List.append_assoc]
      exact startsLine_pieces depth css _

theorem startsLine_sheetPieces (sheet : List Final) : StartsLine (sheetPieces sheet) := by
  induction sheet with
  | nil => trivial
  | cons css sheet ih =>
    rw [sheetPieces]
    split
    · exact ih
    · simp only [List.append_assoc]
      exact startsLine_pieces 0 css _

theorem IsIndented.wellPlaced_append {before : Option Piece} {depth : Nat} {line rest : List Piece}
    (h : IsIndented depth line) (hbefore : before = none ∨ before = some (.separator .newline))
    (hrest : ∀ p : Option Piece, WellPlaced p rest) : WellPlaced before (line ++ rest) := by
  obtain ⟨inline, rfl, hinline⟩ := h
  rw [List.cons_append, wellPlaced_separator]
  exact ⟨hbefore, hinline _ _ hrest⟩

theorem fitAnywhere_blockPieces {depth : Nat} {items : List Final}
    (h : ∀ rest : List Piece, WellPlaced (some (.sign .closeBrace)) rest →
      WellPlaced (some (.separator .newline))
        (itemPieces (depth + 2) items ++
          .separator (.indentation depth) :: .sign .closeBrace :: rest)) :
    FitAnywhere (blockPieces depth (itemPieces (depth + 2) items)) := by
  intro before rest hrest
  simp only [blockPieces, List.cons_append, List.append_assoc, List.nil_append, wellPlaced_separator,
    wellPlaced_sign]
  exact ⟨rfl, startsLine_itemPieces _ _ trivial, h rest (hrest _)⟩

/-- The statements in a block, up to its end, start at the start of a line. -/
theorem wellPlaced_itemPieces {depth width : Nat} : ∀ {items : List Final} {rest : List Piece},
    WellPlaced (some (.sign .closeBrace)) rest →
      WellPlaced (some (.separator .newline))
        (itemPieces depth items ++ .separator (.indentation width) :: .sign .closeBrace :: rest)
  | [], rest, h => by simpa [itemPieces, Separator.Fits] using h
  | .node head groupEnd body :: items, rest, h => by
    have hbody : FitAnywhere (blockPieces depth (itemPieces (depth + 2) body)) :=
      fitAnywhere_blockPieces fun _ => wellPlaced_itemPieces
    have hcss : IsIndented depth (pieces depth (.node head groupEnd body)) := isIndented_pieces hbody
    have hitems : WellPlaced (some (.separator .newline)) (itemPieces depth items ++
        .separator (.indentation width) :: .sign .closeBrace :: rest) := wellPlaced_itemPieces h
    have hline : StartsLine (itemPieces depth items ++
        .separator (.indentation width) :: .sign .closeBrace :: rest) :=
      startsLine_itemPieces _ _ trivial
    rw [itemPieces]
    split
    · exact hitems
    · simp only [List.append_assoc]
      refine hcss.wellPlaced_append (.inr rfl) fun p => ?_
      unfold semicolonPieces
      split
      · cases items with
        | nil => simpa [itemPieces, Separator.Fits, StartsLine] using h
        | cons => simpa [Separator.Fits, hline] using hitems
      · simpa [Separator.Fits, hline] using hitems

theorem wellPlaced_sheetPieces (sheet : List Final) :
    ∀ before : Option Piece, before = none ∨ before = some (.separator .newline) →
      WellPlaced before (sheetPieces sheet) := by
  induction sheet with
  | nil => exact fun _ _ => trivial
  | cons css sheet ih =>
    intro before hbefore
    obtain ⟨head, groupEnd, body⟩ := css
    have hbody : FitAnywhere (blockPieces 0 (itemPieces 2 body)) :=
      fitAnywhere_blockPieces fun _ => wellPlaced_itemPieces
    have hcss : IsIndented 0 (pieces 0 (.node head groupEnd body)) := isIndented_pieces hbody
    have hsheet := ih _ (.inr rfl)
    have hline := startsLine_sheetPieces sheet
    rw [sheetPieces]
    split
    · exact ih before hbefore
    · simp only [List.append_assoc]
      refine hcss.wellPlaced_append hbefore fun p => fitAnywhere_semicolonPieces _ p _ fun p => ?_
      split
      · exact wellPlaced_separator.mpr ⟨trivial, wellPlaced_separator.mpr ⟨hline, hsheet⟩⟩
      · exact wellPlaced_separator.mpr ⟨hline, hsheet⟩

/-! ## Both styles -/

/-- A rule for `a > b, c d` with a comment of two lines and a `@media` around a declaration and a rule
that is not seen, in front of an at-rule without a block. -/
def annotatedSheet : List Final :=
  [.node (.rule [⟨[.type ['a'], .combinator .child, .type ['b']]⟩, ⟨[.type ['c'], .space, .type ['d']]⟩])
      true
      [.node (.comment "/*! x\n   y */".toList 2) false [],
        .node (.media "print".toList) false
          [.node (.declaration ['e'] ['f']) false [],
            .node (.rule [⟨[.placeholder ['p']]⟩]) false [.node (.declaration ['g'] ['h']) false []]],
        .node (.declaration ['i'] ['j']) false []],
    .node (.plainAtRule "import".toList "k.css".toList) true []]

end NestedCss.Css
