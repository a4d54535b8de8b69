import NestedCss.Css.Writer
import NestedCss.Flatten
import NestedCss.Stylesheet.Reader

/-!
# Compiling stylesheets

* `Options`: what can be chosen;
* `flatten`: a stylesheet as flat statements, and the messages on the way;
* **`compile`**: a stylesheet as CSS.
-/

namespace NestedCss

/-- What can be chosen. Without a dialect, the name of the file decides. -/
structure Options where
  dialect : Option Dialect := none
  style : Style := .expanded
  /-- Whether output that is not plain ASCII says so. -/
  charset : Bool := true
  /-- Whether messages are kept back. -/
  quiet : Bool := false
  deriving DecidableEq, Repr

/-- The dialect of a file. -/
def Options.dialectFor (options : Options) (fileName : Text) : Dialect :=
  options.dialect.getD (.ofPath fileName)

/-- The messages of a stylesheet and its flat statements, or what is wrong with it. Messages sent
before a fault was found count. -/
def flatten (dialect : Dialect) (text : Text) :
    List Flatten.LogEntry × Except Diagnosis (List Css.Final) :=
  let source := Source.ofText text
  match Stylesheet.read dialect source with
  | .error diagnosis => ([], .error diagnosis)
  | .ok body =>
    match Flatten.addStmts ⟨dialect, text, source⟩ body {} (.initial dialect) with
    | .ok _ state => (state.log, .ok state.finish)
    | .error diagnosis state => (state.log, .error diagnosis)

/-- **The messages of a stylesheet and its CSS**, or what is wrong with it. -/
def compile (options : Options) (fileName text : Text) :
    List Flatten.LogEntry × Except Diagnosis Text :=
  let (log, result) := flatten (options.dialectFor fileName) text
  (if options.quiet then [] else log,
    result.map (Css.writeSheet options.style options.charset))

end NestedCss
