import NestedCss.Css.Basic
import NestedCss.Selector.Basic

/-!
# Writing CSS

* `Css.isInvisible`: statements of which nothing would be seen are left out;
* `Css.write`, `Css.writeItems`: a statement and the contents of a block in either style;
* **`Css.writeSheet`**: the finished text.
-/

namespace NestedCss.Css

/-- A statement whose selector lists are known. -/
abbrev Final := Css (List Selector)

/-! ## What is written -/

mutual

/-- Whether nothing of a statement would be seen: no selector of a rule is written, or nothing in its
block. At-rules other than `@media` always mean something. -/
def isInvisible : Final → Bool
  | .node head _ body =>
    match head with
    | .rule selectors => selectors.all Selector.isInvisible || allInvisible body
    | .media _ | .keyframe _ => allInvisible body
    | .blockAtRule .. | .plainAtRule .. | .declaration .. | .comment .. => false

/-- Whether nothing of the statements would be seen. -/
def allInvisible : List Final → Bool
  | [] => true
  | css :: rest => isInvisible css && allInvisible rest

end

/-- Whether compression drops the statement. Only comments that start with `/*!` survive it. -/
def isDropped (style : Style) (css : Final) : Bool :=
  match style, css.head with
  | .compressed, .comment text _ => !("/*!".toList.isPrefixOf text)
  | _, _ => false

/-- Whether the statement is written at all. -/
def isWritten (style : Style) (css : Final) : Bool := !css.isInvisible && !css.isDropped style

/-- Whether a semicolon has to stand between the statement and another. -/
def Head.needsSemicolon {σ : Type} : Head σ → Bool
  | .declaration .. | .plainAtRule .. => true
  | .rule _ | .media _ | .blockAtRule .. | .keyframe _ | .comment .. => false

/-! ## Pieces -/

/-- White space that compression leaves out. -/
def optional (style : Style) (t : Text) : Text :=
  match style with
  | .expanded => t
  | .compressed => []

/-- The white space in front of a statement. -/
def indentation (style : Style) (depth : Nat) : Text := optional style (List.replicate depth ' ')

/-- The selectors of a rule, without those that are only there to be extended. -/
def writeSelectors (style : Style) (selectors : List Selector) : Text :=
  (',' :: optional style [' ']).intercalate
    ((selectors.filter (!·.isInvisible)).map (Selector.text style))

/-- A line of a comment, moved to the left by the column that the comment started in. -/
def reindent (column : Nat) (line : Text) : Text :=
  let rest := Text.trimStart line
  List.replicate (Text.byteLength line - Text.byteLength rest - column) ' ' ++ rest

/-- A comment that started in the given column. -/
def writeComment (text : Text) (column : Nat) : Text :=
  match Text.lines text with
  | [] => []
  | first :: lines =>
    let rest := ['\n'].intercalate (lines.map (reindent column))
    Text.trimStart first ++ if rest.isEmpty then [] else '\n' :: rest

/-- An at-rule up to its block. -/
def writeAtRule (name params : Text) : Text :=
  '@' :: name ++ if params.isEmpty then [] else ' ' :: params

/-! ## Statements -/

mutual

/-- A statement, indented by `depth`. -/
def write (style : Style) (depth : Nat) : Final → Text
  | .node head _ body =>
    let block := optional style [' '] ++ '{' :: optional style ['\n'] ++
      writeItems style (depth + 2) body ++ indentation style depth ++ ['}']
    indentation style depth ++
      match head with
      | .rule selectors => writeSelectors style selectors ++ block
      | .media query => "@media ".toList ++ query ++ block
      | .blockAtRule name params =>
        writeAtRule name params ++ if allInvisible body then " \x7b\x7d".toList else block
      | .plainAtRule name params => writeAtRule name params
      | .keyframe selector => selector ++ block
      | .declaration property value => property ++ ':' :: optional style [' '] ++ value
      | .comment text column => writeComment text column

/-- The contents of a block, indented by `depth`. Compression spares the semicolon of the last
statement. -/
def writeItems (style : Style) (depth : Nat) : List Final → Text
  | [] => []
  | css :: rest =>
    let isLast := rest.all (isDropped style)
    let semicolon := css.head.needsSemicolon && !(style = .compressed && isLast)
    (if css.isWritten style then
      write style depth css ++ (if semicolon then [';'] else []) ++ optional style ['\n']
    else []) ++ writeItems style depth rest

end

/-- The statements at the top. In expanded style an empty line stands between groups. -/
def writeTop (style : Style) : List Final → Text
  | [] => []
  | css :: rest =>
    if css.isInvisible then writeTop style rest
    else
      (if css.isDropped style then [] else write style 0 css) ++
      (if css.head.needsSemicolon then [';'] else []) ++ optional style ['\n'] ++
      (if css.groupEnd && !allInvisible rest then optional style ['\n'] else []) ++
      writeTop style rest

/-- What tells readers that a text is not plain ASCII. -/
def encodingMark (style : Style) : Text :=
  match style with
  | .expanded => "@charset \"UTF-8\";\n".toList
  | .compressed => ['\ufeff']

/-- **The text of the output.** If `charset` is set, a text that is not plain ASCII says so. -/
def writeSheet (style : Style) (charset : Bool) (sheet : List Final) : Text :=
  let text := writeTop style sheet
  if charset && text.any fun c => 0x80 ≤ c.toNat then encodingMark style ++ text else text

end NestedCss.Css
