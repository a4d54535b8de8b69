import NestedCss.Text.Quoting

/-!
# The two dialects

* `Dialect`: SCSS and LESS;
* `Dialect.ofPath`: the dialect of a file by its extension.
-/

namespace NestedCss

/-- The language that a stylesheet is written in. -/
inductive Dialect where
  /-- With `@extend`, `%placeholder`, `@at-root`, `@debug` and `@warn`. -/
  | scss
  /-- With `:extend(...)` and `&:extend(...);`, which reach as far as the at-rule around them. -/
  | less
  deriving DecidableEq, Repr

namespace Dialect

/-- The parts of a path between slashes. Empty ones and `.` do not count. -/
def pathParts (path : Text) : List Text :=
  ((path.splitOn '/').filter fun part => part ≠ [] && part ≠ ['.'])

/-- The extension of the file that a path leads to. A name that starts with its only dot has none,
and neither has `..`. -/
def extension? (path : Text) : Option Text := do
  let name ← (pathParts path).getLast?
  if name = "..".toList then none
  let (before, after) ← Text.splitAtLast '.' name
  if before.isEmpty then none
  return after

/-- Files that end in `.less` are LESS, all others SCSS. -/
def ofPath (path : Text) : Dialect :=
  match extension? path with
  | some extension => if Text.sameIgnoringCase extension "less".toList then .less else .scss
  | none => .scss

end Dialect

end NestedCss
