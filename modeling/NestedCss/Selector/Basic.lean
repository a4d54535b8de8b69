import NestedCss.Selector.Fragment
import NestedCss.Style

/-!
# Selectors

A `Selector` is one member of a selector list, as a sequence of fragments.

* `Selector.ofFragments`: white space is kept only where it is a descendant combinator, so `a>b`,
  `a > b` and `a  >b` are the same selector;
* `Selector.same`, `Selector.find?`, `Selector.replaceAll`: comparison, search and replacement, all
  blind to quoting;
* `Selector.text`: the written form in either style.
-/

namespace NestedCss

/-- One selector of a comma-separated list. -/
structure Selector where
  fragments : List Fragment
  deriving DecidableEq, Repr

namespace Selector

/-! ## Normal form -/

/-- Whether something other than a combinator follows, white space aside. -/
def startsCompound : List Fragment → Bool
  | [] => false
  | .space :: rest => startsCompound rest
  | f :: _ => !f.isCombinator

/-- The fragments without superfluous white space, where `joins` says that something other than
white space or a combinator came last. -/
def normalizeFrom (joins : Bool) : List Fragment → List Fragment
  | [] => []
  | .space :: rest =>
    if joins && startsCompound rest then .space :: normalizeFrom false rest
    else normalizeFrom false rest
  | f :: rest => f :: normalizeFrom (!f.isCombinator) rest

/-- The selector with the given fragments. Of its white space only what stands for a descendant
combinator is kept, once. -/
def ofFragments (fragments : List Fragment) : Selector := ⟨normalizeFrom false fragments⟩

/-- The selector without fragments. -/
def empty : Selector := ⟨[]⟩

/-- The number of fragments. -/
def size (s : Selector) : Nat := s.fragments.length

/-- Whether there are no fragments. -/
def isEmpty (s : Selector) : Bool := s.fragments.isEmpty

/-- The last fragment. -/
def last? (s : Selector) : Option Fragment := s.fragments.getLast?

/-! ## Cutting and joining -/

/-- The fragments from `start` up to `stop`, exactly as they are. -/
def slice (s : Selector) (start stop : Nat) : Selector := ⟨(s.fragments.take stop).drop start⟩

/-- Puts `replacement` in the place of the fragments from `start` up to `stop`. -/
def splice (s : Selector) (start stop : Nat) (replacement : Selector) : Selector :=
  ofFragments (s.fragments.take start ++ replacement.fragments ++ s.fragments.drop stop)

/-- One selector directly behind another. -/
def append (a b : Selector) : Selector := ofFragments (a.fragments ++ b.fragments)

/-- One selector as a descendant of another. -/
def descendant (ancestor s : Selector) : Selector :=
  ofFragments (ancestor.fragments ++ .space :: s.fragments)

/-- The selector with a suffix glued to the name of the fragment at an offset, if that has one. -/
def suffixAt? (s : Selector) (offset : Nat) (suffix : Text) : Option Selector := do
  let f ← s.fragments[offset]?
  let glued ← f.withSuffix? suffix
  return ofFragments (s.fragments.set offset glued)

/-- The offsets of the parent references, the first of which is `offset` further on. -/
def nestingOffsetsFrom (offset : Nat) : List Fragment → List Nat
  | [] => []
  | f :: rest =>
    if f.isNesting then offset :: nestingOffsetsFrom (offset + 1) rest
    else nestingOffsetsFrom (offset + 1) rest

/-- The offsets of the parent references. -/
def nestingOffsets (s : Selector) : List Nat := nestingOffsetsFrom 0 s.fragments

/-- Whether the selector is only there to be extended. -/
def isInvisible (s : Selector) : Bool := s.fragments.any Fragment.isPlaceholder

/-! ## Comparison, search and replacement -/

/-- The selector without what does not count when selectors are compared. -/
def key (s : Selector) : Selector := ⟨s.fragments.map Fragment.key⟩

/-- Whether two selectors count as equal. -/
def same (a b : Selector) : Bool := a.key == b.key

/-- Whether the fragments start with `target`. -/
def startsWith (target : List Fragment) (fragments : List Fragment) : Bool :=
  match target, fragments with
  | [], _ => true
  | _ :: _, [] => false
  | t :: target, f :: fragments => t.same f && startsWith target fragments

/-- The offset of the first place at which the fragments go on with `target`. -/
def findIn (target : List Fragment) : List Fragment → Option Nat
  | [] => none
  | f :: rest =>
    if startsWith target (f :: rest) then some 0 else (findIn target rest).map (· + 1)

/-- The offset of the first occurrence of `target` at or after `start`. The empty selector occurs
nowhere. -/
def find? (s target : Selector) (start : Nat) : Option Nat :=
  if target.isEmpty then none else (findIn target.fragments (s.fragments.drop start)).map (· + start)

/-- Whether `target` occurs in `s`. -/
def contains (s target : Selector) : Bool := (s.find? target 0).isSome

/-- Replaces the occurrences of `target` from left to right. Each search starts behind the
occurrence before it. -/
def replaceIn (target replacement : List Fragment) : List Fragment → List Fragment
  | [] => []
  | f :: rest =>
    if !target.isEmpty && startsWith target (f :: rest) then
      replacement ++ replaceIn target replacement (rest.drop (target.length - 1))
    else f :: replaceIn target replacement rest
termination_by fragments => fragments.length
decreasing_by
  · simp only [List.length_drop, List.length_cons]; omega
  · simp

/-- The selector with every occurrence of `target` replaced. -/
def replaceAll (s target replacement : Selector) : Selector :=
  ofFragments (replaceIn target.fragments replacement.fragments s.fragments)

/-! ## Written form -/

/-- The written form of a fragment at a place in a selector. In expanded style a combinator has a
space on either side, but none at an end of the selector. -/
def fragmentText (style : Style) (isFirst isLast : Bool) (f : Fragment) : Text :=
  if f.isCombinator && style == .expanded then
    (if isFirst then [] else [' ']) ++ f.text ++ (if isLast then [] else [' '])
  else f.text

/-- The written form of the fragments, where `isFirst` says whether they start the selector. -/
def textFrom (style : Style) (isFirst : Bool) : List Fragment → Text
  | [] => []
  | f :: rest => fragmentText style isFirst rest.isEmpty f ++ textFrom style false rest

/-- The written form of a selector. -/
def text (style : Style) (s : Selector) : Text := textFrom style true s.fragments

end Selector

end NestedCss
