import NestedCss.Text.Basic

/-!
# Names of at-rules

* `AtRule.unvendor`: the name without the prefix of a browser vendor;
* `AtRule.isPlainCss`: the at-rules of CSS itself, which LESS tells apart from variables;
* `AtRule.needsEvaluation`: the at-rules of SCSS that compute something, which are refused.
-/

namespace NestedCss.AtRule

/-- The name without a vendor's mark: `keyframes` for `-webkit-keyframes`. A name that starts with
two hyphens has none. -/
def unvendor (name : Text) : Text :=
  match name with
  | '-' :: c :: rest =>
    if c = '-' then name else ((Text.splitAtFirst '-' (c :: rest)).map Prod.snd).getD name
  | _ => name

/-- Whether the rule is `@keyframes`, with or without a vendor's mark. -/
def isKeyframes (name : Text) : Bool :=
  Text.sameIgnoringCase (unvendor name) "keyframes".toList

/-- Whether the rule is `@charset`. -/
def isCharset (name : Text) : Bool := Text.sameIgnoringCase name "charset".toList

/-- The at-rules of CSS. Any other `@name:` starts a variable in LESS, which is what tells
`@page :first` apart from a variable `@page`. -/
def plainCss : List String :=
  ["charset", "container", "counter-style", "document", "font-face", "font-feature-values",
   "import", "keyframes", "layer", "media", "namespace", "page", "property", "supports", "viewport"]

/-- Whether CSS has an at-rule of that name. -/
def isPlainCss (name : Text) : Bool := plainCss.any fun known => Text.toLower name == known.toList

/-- The at-rules of SCSS for control flow, mixins, functions and modules. -/
def evaluated : List String :=
  ["content", "each", "else", "for", "forward", "function", "if", "include", "mixin", "return",
   "use", "while"]

/-- Whether the at-rule would have to be evaluated. -/
def needsEvaluation (name : Text) : Bool :=
  evaluated.any fun known => Text.toLower name == known.toList

end NestedCss.AtRule
