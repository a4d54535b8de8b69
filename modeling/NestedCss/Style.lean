/-!
# Output styles

* `Style`: how freely white space is spent on the finished CSS.
-/

namespace NestedCss

/-- How the finished CSS is laid out. -/
inductive Style where
  /-- One declaration per line, nested blocks indented, groups separated by empty lines. -/
  | expanded
  /-- Nothing that can be left out. -/
  | compressed
  deriving DecidableEq, Repr

end NestedCss
