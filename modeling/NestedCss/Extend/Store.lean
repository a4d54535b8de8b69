import NestedCss.Extend.Target

/-!
# The store of style rules

Every style rule of a stylesheet with the extends written in it. A rule may extend one that comes
after it, so nothing is applied before the store is complete.

* `Extend.Store`: the rules in order, each with its selectors, the at-rules around it and its markers;
* `Extend.Rule.requests`: what the extends of a rule ask for;
* `Extend.Request.produce?`: the selector that a request makes of another;
* `Extend.applyRounds`: requests applied to a worklist of selectors, round by round;
* **`Extend.Store.resolve`**: all extends applied to all rules.
-/

namespace NestedCss.Extend

/-! ## Rules -/

/-- The number of a rule, in the order of registration. -/
abbrev RuleId := Nat

/-- The number of an at-rule with a block. -/
abbrev ContainerId := Nat

/-- A selector of a rule. -/
structure Entry where
  selector : Selector
  /-- The rules whose requests produced the selector. The author's own selectors have none. -/
  origins : List RuleId
  deriving DecidableEq, Repr

/-- An extend written as a statement in a rule. -/
structure Marker where
  dialect : Dialect
  targets : Text
  deriving DecidableEq, Repr

namespace Marker

/-- Whether targets may end with the keyword `all`, which `@extend` does not know. -/
def allowsAll (m : Marker) : Bool :=
  match m.dialect with
  | .scss => false
  | .less => true

/-- The at-rules that have to be around a rule for an extend within `containers` to reach it. An
`@extend` reaches all rules. -/
def scope (m : Marker) (containers : List ContainerId) : List ContainerId :=
  match m.dialect with
  | .scss => []
  | .less => containers

end Marker

/-- A style rule. -/
structure Rule where
  entries : List Entry
  /-- The at-rules around the rule, outermost first. -/
  containers : List ContainerId
  markers : List Marker
  deriving DecidableEq, Repr

namespace Rule

/-- A rule with the selectors that its author wrote. -/
def ofSelectors (selectors : List Selector) (containers : List ContainerId) : Rule :=
  ⟨selectors.map (⟨·, []⟩), containers, []⟩

/-- The selectors of a rule. -/
def selectors (r : Rule) : List Selector := r.entries.map Entry.selector

/-- Whether no selector of the rule is ever written. -/
def isInvisible (r : Rule) : Bool := r.selectors.all Selector.isInvisible

/-- Whether a selector of the rule counts as equal to `s`. -/
def has (r : Rule) (s : Selector) : Bool := r.entries.any (·.selector.same s)

theorem has_iff {r : Rule} {s : Selector} : r.has s ↔ ∃ e ∈ r.entries, e.selector.same s :=
  List.any_eq_true

end Rule

/-! ## Requests -/

/-- One target of one extend: rules with a selector that satisfies the target are to be joined by
`extender`. -/
structure Request where
  requester : RuleId
  extender : Selector
  target : Target
  /-- The at-rules that have to be around a rule for the request to reach it. -/
  scope : List ContainerId
  deriving DecidableEq, Repr

namespace Request

/-- Whether the request reaches a rule within the given at-rules. -/
def reaches (q : Request) (containers : List ContainerId) : Bool := q.scope.isPrefixOf containers

/-- Whether a selector of a rule within the given at-rules is to be joined by the extender. -/
def isSatisfiedBy (q : Request) (containers : List ContainerId) (s : Selector) : Bool :=
  q.reaches containers && q.target.accepts s

/-- What the request makes of a selector that satisfies its target. -/
def replacement (q : Request) (s : Selector) : Selector :=
  match q.target.mode with
  | .strict => q.extender
  | .anywhere => s.replaceAll q.target.selector q.extender

/-- The entry that the request adds to rule `id` on account of an entry that satisfies it. A request
is not applied to what its rule had a part in, and a rule does not extend the selector that it extends
with. -/
def produce? (q : Request) (id : RuleId) (e : Entry) : Option Entry :=
  if e.origins.contains q.requester || (id == q.requester && e.selector.same q.extender) then none
  else
    let produced := q.replacement e.selector
    if produced.isEmpty then none else some ⟨produced, q.requester :: e.origins⟩

end Request

namespace Rule

/-- The rule without the markers at the ends of its selectors, which only LESS knows. -/
def stripped (dialect : Dialect) (r : Rule) : Rule :=
  match dialect with
  | .scss => r
  | .less =>
    { r with entries := r.entries.map fun e =>
        { e with selector := (e.selector.takeExtends?.map Prod.fst).getD e.selector } }

@[simp] theorem containers_stripped (r : Rule) (dialect : Dialect) :
    (r.stripped dialect).containers = r.containers := by
  cases dialect <;> rfl

@[simp] theorem markers_stripped (r : Rule) (dialect : Dialect) :
    (r.stripped dialect).markers = r.markers := by
  cases dialect <;> rfl

@[simp] theorem length_stripped (r : Rule) (dialect : Dialect) :
    (r.stripped dialect).entries.length = r.entries.length := by
  cases dialect
  · rfl
  · exact List.length_map _

/-- What the markers at the ends of the selectors of rule `id` ask for. -/
def trailingRequests (dialect : Dialect) (id : RuleId) (r : Rule) : List Request :=
  match dialect with
  | .scss => []
  | .less => r.selectors.flatMap fun s =>
    match s.takeExtends? with
    | some (extender, targets) => targets.map fun target => ⟨id, extender, target, r.containers⟩
    | none => []

/-- What a marker in rule `id` asks for: every selector of the rule is to extend every target. -/
def markerRequests (id : RuleId) (r : Rule) (m : Marker) : List Request :=
  match Target.readList m.allowsAll m.targets with
  | some targets =>
    r.selectors.flatMap fun extender => targets.map (⟨id, extender, ·, m.scope r.containers⟩)
  | none => []

/-- What the extends of rule `id` ask for. -/
def requests (dialect : Dialect) (id : RuleId) (r : Rule) : List Request :=
  let stripped := r.stripped dialect
  r.trailingRequests dialect id ++ r.markers.flatMap (stripped.markerRequests id)

end Rule

/-! ## Application -/

/-- A selector that waits to be extended, by its place, with the requests that it satisfies. -/
structure Node where
  rule : RuleId
  index : Nat
  requests : List Request
  deriving DecidableEq, Repr

/-- The node of a selector, unless it satisfies no request. -/
def Node.of? (requests : List Request) (id : RuleId) (containers : List ContainerId) (index : Nat)
    (s : Selector) : Option Node :=
  let satisfied := requests.filter (·.isSatisfiedBy containers s)
  if satisfied.isEmpty then none else some ⟨id, index, satisfied⟩

/-- The nodes of the entries of a rule, the first of which is at `index`. -/
def nodesFrom (requests : List Request) (id : RuleId) (containers : List ContainerId)
    (index : Nat) : List Entry → List Node
  | [] => []
  | e :: rest =>
    (Node.of? requests id containers index e.selector).toList ++
      nodesFrom requests id containers (index + 1) rest

/-- The nodes of all selectors, in the order of the rules. -/
def allNodes (requests : List Request) (rules : List Rule) : List Node :=
  (rules.mapIdx fun id r => nodesFrom requests id r.containers 0 r.entries).flatten

/-- The rules in the midst of a round, with the nodes that wait for the next one. -/
structure Round where
  rules : List Rule
  waiting : List Node
  deriving DecidableEq, Repr

namespace Round

/-- Applies a request to the selector of a node. What it makes of the selector joins the rule, unless
the rule has it already, and waits in turn. -/
def apply (requests : List Request) (n : Node) (round : Round) (q : Request) : Round :=
  match round.rules[n.rule]? with
  | none => round
  | some r =>
    match r.entries[n.index]?.bind (q.produce? n.rule) with
    | none => round
    | some e =>
      if r.has e.selector then round
      else
        ⟨round.rules.set n.rule { r with entries := r.entries ++ [e] }, round.waiting ++
          (Node.of? requests n.rule r.containers r.entries.length e.selector).toList⟩

/-- Applies the requests that the selector of a node satisfies, in order. -/
def visit (requests : List Request) (round : Round) (n : Node) : Round :=
  n.requests.foldl (apply requests n) round

/-- Visits the nodes of a worklist, in order. -/
def run (requests : List Request) (rules : List Rule) (worklist : List Node) : Round :=
  worklist.foldl (visit requests) ⟨rules, []⟩

end Round

/-- Visits the nodes of the worklist and then, round by round, those of the selectors that the last
round produced, for at most `limit` rounds. -/
def applyRounds (requests : List Request) :
    (limit : Nat) → List Rule → (worklist : List Node) → List Rule
  | 0, rules, _ => rules
  | limit + 1, rules, worklist =>
    if worklist.isEmpty then rules
    else
      let round := Round.run requests rules worklist
      applyRounds requests limit round.rules round.waiting

/-- Application stops after this many rounds, even if more selectors would be produced. -/
def maxRounds : Nat := 100

/-! ## Stores -/

/-- The style rules of a stylesheet. -/
structure Store where
  dialect : Dialect
  rules : List Rule
  /-- The number of at-rules with a block so far. -/
  containers : Nat
  deriving DecidableEq, Repr

namespace Store

/-- The store of a stylesheet of which nothing is known yet. -/
def empty (dialect : Dialect) : Store := ⟨dialect, [], 0⟩

/-- Registers an at-rule with a block. -/
def addContainer (s : Store) : ContainerId × Store :=
  (s.containers, { s with containers := s.containers + 1 })

/-- Registers a rule. -/
def addRule (s : Store) (selectors : List Selector) (containers : List ContainerId) :
    RuleId × Store :=
  (s.rules.length, { s with rules := s.rules ++ [.ofSelectors selectors containers] })

/-- Registers an extend that is written in a rule. -/
def addMarker (s : Store) (id : RuleId) (m : Marker) : Store :=
  { s with rules := s.rules.modify id fun r => { r with markers := r.markers ++ [m] } }

/-- The selectors of a rule. -/
def selectors (s : Store) (id : RuleId) : List Selector := (s.rules[id]?.map Rule.selectors).getD []

/-- What all extends ask for, in the order of the rules. -/
def requests (s : Store) : List Request :=
  (s.rules.mapIdx fun id r => r.requests s.dialect id).flatten

/-- **All extends applied to all rules.** Markers at the ends of selectors are gone afterwards. -/
def resolve (s : Store) : Store :=
  let requests := s.requests
  let rules := s.rules.map (·.stripped s.dialect)
  { s with rules := applyRounds requests maxRounds rules (allNodes requests rules) }

end Store

end NestedCss.Extend
