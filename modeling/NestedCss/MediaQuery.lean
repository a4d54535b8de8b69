import NestedCss.Text.Quoting

/-!
# Media queries

A media query list is text that is only ever split at its top-level commas. A `@media` inside of
another one applies when a query of both lists does.

* `MediaQuery.merge`: the list of all pairs, the outer query first.
-/

namespace NestedCss.MediaQuery

/-- The queries of a list. -/
def parts (list : Text) : List Text := Text.splitTopLevel list ','

/-- Both queries have to hold. -/
def both (outer inner : Text) : Text := outer ++ " and ".toList ++ inner

/-- The query list of a `@media` with list `inner` within one with list `outer`. -/
def merge (outer inner : Text) : Text :=
  (", ".toList).intercalate ((parts outer).flatMap fun o => (parts inner).map (both o))

end NestedCss.MediaQuery
