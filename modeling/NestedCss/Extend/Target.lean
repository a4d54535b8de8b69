import NestedCss.Dialect
import NestedCss.Selector.Reader

/-!
# Targets of extends

An extend lists the selectors whose rules it wants to join. It is written as a statement in a rule, or
in LESS as an `:extend(...)` at the end of a selector.

* `Extend.Target.readList`: the targets that a text lists;
* `Selector.takeExtends?`: the markers at the end of a selector and what is left of it;
* `Selector.stripExtends`: the selectors as children nest under them.
-/

namespace NestedCss

namespace Extend

/-- How a target is compared with the selectors of other rules. -/
inductive MatchMode where
  /-- The whole selector has to be the target. -/
  | strict
  /-- The target may occur anywhere in the selector. In LESS a trailing `all` asks for this. -/
  | anywhere
  deriving DecidableEq, Repr

/-- A selector to be extended. -/
structure Target where
  selector : Selector
  mode : MatchMode
  deriving DecidableEq, Repr

namespace Target

/-- Whether a selector satisfies a target. -/
def accepts (t : Target) (s : Selector) : Bool :=
  match t.mode with
  | .strict => s.same t.selector
  | .anywhere => s.contains t.selector

/-- The fragments in front of a trailing keyword `all`, which has to stand apart. -/
def beforeAll? : List Fragment → Option (List Fragment)
  | [f, .space, .type name] =>
    if Text.sameIgnoringCase name "all".toList then some [f] else none
  | f :: rest => (beforeAll? rest).map (f :: ·)
  | [] => none

/-- A selector as a target, where the keyword `all` counts only if it is allowed. -/
def ofSelector (allowsAll : Bool) (s : Selector) : Target :=
  match beforeAll? s.fragments with
  | some rest => if allowsAll then ⟨.ofFragments rest, .anywhere⟩ else ⟨s, .strict⟩
  | none => ⟨s, .strict⟩

/-- The targets that a text lists. A list with a member that is empty or no selector lists nothing. -/
def readList (allowsAll : Bool) (t : Text) : Option (List Target) :=
  match Selector.scanList ⟨false, true⟩ (Source.ofText t).chars with
  | .ok list _ => some (list.map (ofSelector allowsAll))
  | .error _ _ => none

end Target

end Extend

namespace Selector

open Extend (Target)

/-- Takes the markers off the end of a selector, given as its fragments in reverse. Gives what is
left, still in reverse, and the lists of the markers in the order of the source. -/
def takeMarkers : List Fragment → List Fragment × List Text
  | .pseudo p :: before =>
    match p.extendTargets? with
    | some targets =>
      let (rest, lists) := takeMarkers before
      (rest, lists ++ [targets])
    | none => (.pseudo p :: before, [])
  | fragments => (fragments, [])

/-- The selector without the `:extend(...)` markers at its end and their targets. There are none if
nothing would be left of the selector or if a marker lists nothing. -/
def takeExtends? (s : Selector) : Option (Selector × List Target) := do
  let (rest, lists) := takeMarkers s.fragments.reverse
  let stripped := ofFragments rest.reverse
  if lists.isEmpty || stripped.isEmpty then none
  let targets ← lists.mapM (Target.readList true)
  return (stripped, targets.flatten)

/-- The selectors that the children of a rule nest under: markers are not part of a rule's
identity. -/
def stripExtends (list : List Selector) : List Selector :=
  list.map fun s => (s.takeExtends?.map Prod.fst).getD s

end Selector

end NestedCss
