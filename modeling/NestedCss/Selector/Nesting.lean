import NestedCss.Selector.Basic
import Std.Data.TreeSet.Lemmas

/-!
# Nesting

What the selectors of a rule stand for inside of the rules around it. A selector without `&` is a
descendant of every parent; each `&` stands for every parent on its own.

* `choices`: all choices of one of `n` alternatives at each of `k` places, counted through;
* `Selector.expansions`: what one selector stands for, all choices of parents in order;
* `Selector.substitute`: the parents chosen for the references are put in their places;
* **`Selector.combine`**: what a selector list stands for.
-/

namespace NestedCss

variable {α κ : Type}

/-! ## Lists -/

/-- The number of choices of one of `n` alternatives at each place that come behind the given one. -/
def choicesBehind (n : Nat) : List Nat → Nat
  | [] => 0
  | i :: rest => (n - 1 - i) * Nat.pow n rest.length + choicesBehind n rest

/-- The choice of one of `n` alternatives at each place that comes next. The last place moves on; where
a place is through, it starts over and the one before it moves on. -/
def nextChoice? (n : Nat) : List Nat → Option (List Nat)
  | [] => none
  | i :: rest =>
    match nextChoice? n rest with
    | some rest => some (i :: rest)
    | none => if i + 1 < n then some ((i + 1) :: List.replicate rest.length 0) else none

theorem length_of_nextChoice? {n : Nat} {choice next : List Nat} (h : nextChoice? n choice = some next) :
    next.length = choice.length := by
  induction choice generalizing next with
  | nil => cases h
  | cons i rest ih =>
    rw [nextChoice?] at h
    split at h
    · next rest' hrest =>
      cases h
      rw [List.length_cons, ih hrest, List.length_cons]
    · split at h
      · cases h
        rw [List.length_cons, List.length_replicate, List.length_cons]
      · cases h

theorem choicesBehind_of_none {n : Nat} {choice : List Nat} (h : nextChoice? n choice = none) :
    choicesBehind n choice = 0 := by
  induction choice with
  | nil => rfl
  | cons i rest ih =>
    rw [nextChoice?] at h
    split at h
    · cases h
    · next hrest =>
      split at h
      · cases h
      · next hthrough =>
        rw [choicesBehind, ih hrest, show n - 1 - i = 0 by omega, Nat.zero_mul]

theorem choicesBehind_replicate {n : Nat} (hn : 0 < n) (k : Nat) :
    choicesBehind n (List.replicate k 0) + 1 = Nat.pow n k := by
  induction k with
  | zero => rfl
  | succ k ih =>
    have hpow : Nat.pow n k * n = (n - 1) * Nat.pow n k + Nat.pow n k := by
      rw [Nat.mul_comm, ← Nat.succ_mul, Nat.succ_eq_add_one, Nat.sub_add_cancel hn]
    rw [List.replicate_succ, choicesBehind, List.length_replicate, Nat.sub_zero, Nat.add_assoc, ih, ← hpow]
    rfl

/-- Each choice leaves one less behind it than the one before. -/
theorem choicesBehind_of_some {n : Nat} {choice next : List Nat} (h : nextChoice? n choice = some next) :
    choicesBehind n choice = choicesBehind n next + 1 := by
  induction choice generalizing next with
  | nil => cases h
  | cons i rest ih =>
    rw [nextChoice?] at h
    split at h
    · next rest' hrest =>
      cases h
      have hlength := length_of_nextChoice? hrest
      rw [choicesBehind, choicesBehind, ih hrest, hlength, Nat.add_assoc]
    · next hrest =>
      split at h
      · next hi =>
        cases h
        have hi' : n - 1 - i = n - 1 - (i + 1) + 1 := by omega
        have hzeros := choicesBehind_replicate (Nat.zero_lt_of_lt hi) rest.length
        rw [choicesBehind, choicesBehind, choicesBehind_of_none hrest, List.length_replicate, hi',
          Nat.succ_mul, ← hzeros, Nat.add_zero, Nat.add_assoc]
      · cases h

/-- The given choice of one of `n` alternatives at each place, and all that come behind it. -/
def choicesFrom (n : Nat) (choice : List Nat) : List (List Nat) :=
  match _ : nextChoice? n choice with
  | some next => choice :: choicesFrom n next
  | none => [choice]
termination_by choicesBehind n choice
decreasing_by
  rw [choicesBehind_of_some ‹nextChoice? n choice = some next›]
  exact Nat.lt_succ_self _

/-- All choices of one of `n` alternatives at each of `k` places, the first alternatives first. -/
def choices (n k : Nat) : List (List Nat) := choicesFrom n (List.replicate k 0)

/-- The first `n` rounds of taking a member of each list in turn. -/
def takeTurns : (n : Nat) → List (List α) → List α
  | 0, _ => []
  | n + 1, lists => lists.filterMap List.head? ++ takeTurns n (lists.map List.tail)

/-- The first member of each list, then the second of each, and so on. Lists that are exhausted are
passed over. -/
def roundRobin (lists : List (List α)) : List α :=
  takeTurns ((lists.map List.length).max?.getD 0) lists

/-- The list without the members whose key was seen before. -/
def distinctFrom [Ord κ] (key : α → κ) (seen : Std.TreeSet κ) : List α → List α
  | [] => []
  | a :: rest =>
    if seen.contains (key a) then distinctFrom key seen rest
    else a :: distinctFrom key (seen.insert (key a)) rest

/-- The list without the members whose key an earlier one has. -/
def distinctOn [Ord κ] (key : α → κ) (l : List α) : List α := distinctFrom key ∅ l

namespace Selector

/-! ## References to the parent -/

/-- The parent with a suffix glued to its last name. A suffix that finds no name there becomes a
type selector of its own. -/
def withSuffix (parent : List Fragment) (suffix : Text) : List Fragment :=
  match parent.getLast?.bind (Fragment.withSuffix? suffix) with
  | some last => parent.dropLast ++ [last]
  | none => parent ++ [.type suffix]

/-- What stands in the place of a reference for which a parent was chosen. -/
def resolveNesting (suffix : Option Text) (parent : Selector) : List Fragment :=
  match suffix with
  | none => parent.fragments
  | some suffix => withSuffix parent.fragments suffix

/-- Puts the parents in the places of the references, in order. -/
def substituteIn : List Fragment → List Selector → List Fragment
  | .nesting suffix :: rest, parent :: parents =>
    resolveNesting suffix parent ++ substituteIn rest parents
  | f :: rest, parents => f :: substituteIn rest parents
  | [], _ => []

/-- The selector with its references replaced by the parents chosen for them. -/
def substitute (s : Selector) (parents : List Selector) : Selector :=
  ofFragments (substituteIn s.fragments parents)

/-- What a selector stands for within the given parents. One without `&` is their descendant, or
stands for itself if there is no `implicitParent`. -/
def expansions (parents : List Selector) (implicitParent : Bool) (s : Selector) : List Selector :=
  let references := s.fragments.countP Fragment.isNesting
  if references = 0 then
    if implicitParent then (parents.map (descendant · s)).filter (!·.isEmpty) else [s]
  else
    ((choices parents.length references).map fun choice =>
      s.substitute (choice.map (parents.getD · empty))).filter (!·.isEmpty)

/-! ## Selector lists -/

/-- **What a list of selectors stands for** within the given parents. The expansions of its members
are taken in turns, and of those that look the same only the first is kept. -/
def combine (parents list : List Selector) (implicitParent : Bool) : List Selector :=
  let parents := if parents.isEmpty then [empty] else parents
  distinctOn (text .expanded) (roundRobin (list.map (expansions parents implicitParent)))

end Selector

end NestedCss
