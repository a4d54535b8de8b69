import NestedCss.Text.Basic

/-!
# Fragments of selectors

A `Fragment` is an atom of a selector: a name, an attribute test, a combinator, the reference `&`
to the parent. Each keeps what the author wrote.

* `Fragment.text`: the written form;
* `Fragment.key`, `Fragment.same`: fragments that differ only in quoting match each other;
* `Fragment.withSuffix?`: what a suffix of `&` does to the last name of the parent.
-/

namespace NestedCss

/-! ## Parts of fragments -/

/-- How a string or an attribute value is quoted. -/
inductive Quote where
  | double
  | single
  | bare
  deriving DecidableEq, Repr

/-- The quote that a character is. -/
def Quote.ofChar (c : Char) : Quote :=
  if c = '"' then .double else if c = '\'' then .single else .bare

/-- The written form of a quote, which stands on both sides of the value. -/
def Quote.text : Quote → Text
  | .double => ['"']
  | .single => ['\'']
  | .bare => []

/-- An explicit combinator between two compound selectors. -/
inductive Combinator where
  | child
  | nextSibling
  | followingSibling
  deriving DecidableEq, Repr

/-- The character that stands for a combinator. -/
def Combinator.char : Combinator → Char
  | .child => '>'
  | .nextSibling => '+'
  | .followingSibling => '~'

/-- How the value of an attribute is compared. -/
inductive AttributeOperator where
  | equals
  | includes
  | dash
  | startsWith
  | endsWith
  | contains
  deriving DecidableEq, Repr

/-- The written form of an operator. -/
def AttributeOperator.text : AttributeOperator → Text
  | .equals => "=".toList
  | .includes => "~=".toList
  | .dash => "|=".toList
  | .startsWith => "^=".toList
  | .endsWith => "$=".toList
  | .contains => "*=".toList

/-- What the value of an attribute is compared with. -/
structure AttributeTest where
  operator : AttributeOperator
  value : Text
  quote : Quote
  modifier : Option Char
  deriving DecidableEq, Repr

/-- The written form of a test, behind the name of the attribute. -/
def AttributeTest.text (t : AttributeTest) : Text :=
  t.operator.text ++ t.quote.text ++ t.value ++ t.quote.text ++
    match t.modifier with
    | some modifier => [' ', modifier]
    | none => []

/-- An attribute selector such as `[lang|="en" i]`. Without a test the attribute only has to be
there. -/
structure Attribute where
  name : Text
  test : Option AttributeTest
  deriving DecidableEq, Repr

/-- The written form of an attribute selector. -/
def Attribute.text (a : Attribute) : Text :=
  '[' :: a.name ++ (a.test.map AttributeTest.text).getD [] ++ [']']

/-- A pseudo-class or pseudo-element. The argument is text with collapsed white space. -/
structure Pseudo where
  name : Text
  isElement : Bool
  argument : Option Text
  deriving DecidableEq, Repr

namespace Pseudo

/-- The written form of a pseudo-class or pseudo-element. -/
def text (p : Pseudo) : Text :=
  (if p.isElement then "::".toList else ":".toList) ++ p.name ++
    match p.argument with
    | some argument => '(' :: argument ++ [')']
    | none => []

/-- The targets that an `:extend(...)` lists. Any other pseudo has none. -/
def extendTargets? (p : Pseudo) : Option Text :=
  if !p.isElement && Text.sameIgnoringCase p.name "extend".toList then p.argument else none

/-- Whether the pseudo is an `:extend(...)`. -/
def isExtend (p : Pseudo) : Bool := p.extendTargets?.isSome

end Pseudo

/-! ## Fragments -/

/-- One atom of a selector. -/
inductive Fragment where
  /-- The name of an element, `*`, or a name in a namespace such as `svg|rect`. -/
  | type (name : Text)
  | id (name : Text)
  | className (name : Text)
  /-- A selector that is only there to be extended. -/
  | placeholder (name : Text)
  | attribute (a : Attribute)
  | pseudo (p : Pseudo)
  | combinator (c : Combinator)
  /-- The parent reference `&`, with what is glued to the last name of the parent. -/
  | nesting (suffix : Option Text)
  | quoted (contents : Text) (quote : Quote)
  /-- White space, which is the descendant combinator. -/
  | space
  /-- An interpolation as it was written. -/
  | interpolation (raw : Text)
  deriving DecidableEq, Repr

namespace Fragment

/-- Whether the fragment is white space. -/
def isSpace : Fragment → Bool
  | .space => true
  | _ => false

/-- Whether the fragment is an explicit combinator. -/
def isCombinator : Fragment → Bool
  | .combinator _ => true
  | _ => false

/-- Whether the fragment is a parent reference. -/
def isNesting : Fragment → Bool
  | .nesting _ => true
  | _ => false

/-- Whether the fragment keeps its selector out of the output. -/
def isPlaceholder : Fragment → Bool
  | .placeholder _ => true
  | _ => false

/-- The written form of a fragment, without the white space around combinators. -/
def text : Fragment → Text
  | .type name => name
  | .id name => '#' :: name
  | .className name => '.' :: name
  | .placeholder name => '%' :: name
  | .attribute a => a.text
  | .pseudo p => p.text
  | .combinator c => [c.char]
  | .nesting suffix => '&' :: suffix.getD []
  | .quoted contents quote => quote.text ++ contents ++ quote.text
  | .space => [' ']
  | .interpolation raw => raw

/-- The fragment without what does not count when fragments are compared: how strings and attribute
values are quoted, and the modifiers of attribute values. -/
def key : Fragment → Fragment
  | .attribute ⟨name, some t⟩ => .attribute ⟨name, some ⟨t.operator, t.value, .bare, none⟩⟩
  | .quoted contents _ => .quoted contents .bare
  | f => f

/-- Whether two fragments count as equal. -/
def same (a b : Fragment) : Bool := a.key == b.key

/-- The fragment with a suffix glued to its name, if it has one. -/
def withSuffix? (suffix : Text) : Fragment → Option Fragment
  | .type name => some (.type (name ++ suffix))
  | .id name => some (.id (name ++ suffix))
  | .className name => some (.className (name ++ suffix))
  | .placeholder name => some (.placeholder (name ++ suffix))
  | _ => none

end Fragment

end NestedCss
