import NestedCss.Source.Basic

/-!
# What can be wrong with a stylesheet

* `Fault`: the causes, and `Fault.message`, their wording;
* `Place`, `Problem`: where in a source a fault was found;
* `Diagnosis`: the bytes that it is reported for, `Diagnosis.isPlaced`: whether it can be.
-/

namespace NestedCss

/-- Why a stylesheet or a selector was refused. -/
inductive Fault where
  /-- A certain character has to come next. -/
  | expected (c : Char)
  /-- A comment goes on to the end. -/
  | unclosedComment
  /-- A string goes on to the end of its line. -/
  | unclosedString (quote : Char)
  | expectedString
  | expectedIdentifier
  | expectedExpression
  /-- A backslash stands at the end of a line. -/
  | expectedEscape
  /-- A selector is missing or goes on with a character that no selector holds. -/
  | expectedSelector
  /-- An `@extend` names nothing. -/
  | expectedTarget
  /-- An attribute selector goes on with neither an operator nor its end. -/
  | expectedOperator
  | placeholderNotAllowed
  | parentNotAllowed
  /-- A block ends that was never opened. -/
  | unmatchedBrace
  | mixinCall
  /-- An at-rule that would have to be evaluated. -/
  | unsupportedRule (name : Text)
  | atRootQuery
  | declarationOutsideRule
  | extendOutsideRule
  /-- The stylesheet itself asks to be refused. -/
  | custom (message : Text)
  deriving DecidableEq, Repr

/-- The wording of a fault. -/
def Fault.message : Fault → Text
  | .expected c => "expected \"".toList ++ c :: "\".".toList
  | .unclosedComment => "expected more input.".toList
  | .unclosedString quote => "Expected ".toList ++ quote :: ".".toList
  | .expectedString => "Expected string.".toList
  | .expectedIdentifier => "Expected identifier.".toList
  | .expectedExpression => "Expected expression.".toList
  | .expectedEscape => "Expected escape sequence.".toList
  | .expectedSelector => "expected selector.".toList
  | .expectedTarget => "Expected selector.".toList
  | .expectedOperator => "Expected \"]\".".toList
  | .placeholderNotAllowed => "Placeholder selectors aren't allowed here.".toList
  | .parentNotAllowed => "Parent selectors aren't allowed here.".toList
  | .unmatchedBrace => "unmatched \"\x7d\".".toList
  | .mixinCall => "mixin calls are not supported.".toList
  | .unsupportedRule name => '@' :: name ++ " rules are not supported.".toList
  | .atRootQuery => "@at-root queries are not supported.".toList
  | .declarationOutsideRule => "Declarations may only be used within style rules.".toList
  | .extendOutsideRule => "@extend may only be used within style rules.".toList
  | .custom message => message

/-- A place in a source. -/
inductive Place where
  /-- All of the source. -/
  | whole
  | region (r : Region)
  deriving DecidableEq, Repr

/-- A fault and where it was found. -/
structure Problem where
  fault : Fault
  place : Place
  deriving DecidableEq, Repr

/-- A fault and the bytes of the file that it is reported for. -/
structure Diagnosis where
  fault : Fault
  span : Span
  deriving DecidableEq, Repr

/-- Whether both ends of the span lie between characters of the text, as they must for their lines and
columns to be found. -/
def Diagnosis.isPlaced (d : Diagnosis) (text : Text) : Bool :=
  text.isBoundary d.span.start && text.isBoundary d.span.stop

/-- The report of a problem that was found in a source. -/
def Source.diagnose (s : Source) (p : Problem) : Diagnosis :=
  match p.place with
  | .whole => ⟨p.fault, s.span⟩
  | .region r => ⟨p.fault, s.spanOf r⟩

end NestedCss
