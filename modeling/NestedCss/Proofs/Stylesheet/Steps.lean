import NestedCss.Proofs.Stylesheet.Blocks

/-!
# The steps of reading a stylesheet

All texts are read in steps that start one behind the other, statement by statement and block by block, and there
are no more of them than characters. That LESS goes back to the start of what is no extend does not matter.

* `Stylesheet.Steps`: the steps that the statements of a text take, with those in its blocks;
* `Stylesheet.Steps.eq`, `Stylesheet.exists_steps`: they give what is read, and come to an end in front of every
  text;
* `Stylesheet.Steps.descends`, `Stylesheet.Steps.length_le`: where they start, and how many there are;
* **`Stylesheet.scan_progress`**: every statement takes a character, and stylesheets are read in as many steps as
  they have tokens or fewer.
-/

namespace NestedCss.Stylesheet

open Scanner

variable {α : Type} {s rest : Text} {dialect : Dialect} {inBlock : Bool} {places : List Nat}
  {outcome : Outcome (List Stmt)} {high low : Nat}

/-! ## Outcomes -/

/-- The outcome with more statements in front. -/
def prepend (stmts : List Stmt) : Outcome (List Stmt) → Outcome (List Stmt)
  | .ok more rest => .ok (stmts ++ more) rest
  | .error problem rest => .error problem rest

theorem apply_prepend (stmts : List Stmt) (x : Scanner (List Stmt)) (s : Text) :
    (do return stmts ++ (← x) : Scanner (List Stmt)) s = prepend stmts (x s) := by
  rw [bind_apply]
  cases x s <;> rfl

/-- What was read with this outcome has no step that started with fewer characters left. -/
def floor : Outcome α → Nat
  | .ok _ rest => rest.length + 1
  | .error _ _ => 0

@[simp] theorem floor_ok (a : α) (rest : Text) : floor (.ok a rest) = rest.length + 1 := rfl

@[simp] theorem floor_error (problem : Problem) (rest : Text) : floor (.error problem rest : Outcome α) = 0 := rfl

@[simp] theorem floor_prepend (stmts : List Stmt) (outcome : Outcome (List Stmt)) :
    floor (prepend stmts outcome) = floor outcome := by
  cases outcome <;> rfl

/-! ## Steps -/

/-- The steps in which a body is read from `s` on, each by how many characters were left when it started, with
those of the blocks in it. Nothing bounds how many steps follow each other or how deep blocks are. -/
inductive Steps (dialect : Dialect) : Bool → Text → List Nat → Outcome (List Stmt) → Prop
  /-- That nothing is left of a stylesheet takes no step. -/
  | finish {s rest : Text} : Settled (scanItem dialect · false s) (.ok none rest) →
      Steps dialect false s [] (.ok [] rest)
  /-- A brace closes the block. -/
  | close {s rest : Text} : Settled (scanItem dialect · true s) (.ok none rest) →
      Steps dialect true s [s.length] (.ok [] rest)
  /-- A semicolon, a comment, or a statement without a block. -/
  | next {inBlock : Bool} {s s' : Text} {stmts : List Stmt} {places : List Nat} {outcome : Outcome (List Stmt)} :
      Settled (scanItem dialect · inBlock s) (.ok (some stmts) s') →
      Steps dialect inBlock s' places outcome →
      Steps dialect inBlock s (s.length :: places) (prepend stmts outcome)
  /-- A statement with a block. -/
  | block {inBlock : Bool} {s s' t : Text} {make : List Stmt → Text → List Stmt} {body : List Stmt}
      {inner places : List Nat} {outcome : Outcome (List Stmt)} :
      Opened (scanItem dialect · inBlock s) ('{' :: t) (fun body rest => some (make body rest)) →
      Steps dialect true t inner (.ok body s') → Steps dialect inBlock s' places outcome →
      Steps dialect inBlock s (s.length :: (inner ++ places)) (prepend (make body s') outcome)
  /-- A fault that is no matter of blocks further in, such as a brace too many or the end of the text in a block. -/
  | fault {inBlock : Bool} {s rest : Text} {problem : Problem} :
      Settled (scanItem dialect · inBlock s) (.error problem rest) →
      Steps dialect inBlock s [s.length] (.error problem rest)
  /-- A fault where the block of a statement has to start. -/
  | unopened {inBlock : Bool} {s t rest : Text} {make : List Stmt → Text → List Stmt} {problem : Problem} :
      Opened (scanItem dialect · inBlock s) t (fun body rest => some (make body rest)) →
      expectChar '{' t = .error problem rest → Steps dialect inBlock s [s.length] (.error problem rest)
  /-- A fault in the block of a statement. -/
  | within {inBlock : Bool} {s t rest : Text} {make : List Stmt → Text → List Stmt} {inner : List Nat}
      {problem : Problem} :
      Opened (scanItem dialect · inBlock s) ('{' :: t) (fun body rest => some (make body rest)) →
      Steps dialect true t inner (.error problem rest) →
      Steps dialect inBlock s (s.length :: inner) (.error problem rest)

/-- **Steps give what is read.** -/
theorem Steps.eq (h : Steps dialect inBlock s places outcome) : scanBody dialect inBlock s = outcome := by
  have hnext {inBlock : Bool} {s s' : Text} {stmts : List Stmt}
      (h : scanItem dialect (scanBlock dialect) inBlock s = .ok (some stmts) s') :
      scanBody dialect inBlock s = prepend stmts (scanBody dialect inBlock s') := by
    have hlt : s'.length < s.length := length_lt_of_scanItem (consumes_scanBlock dialect) h
    rw [scanBody, gatherAll_apply_of_some h hlt, apply_prepend]
  induction h with
  | finish h | close h => exact gatherAll_of_none (h _)
  | next h _ ih => rw [hnext (h _), ih]
  | block h _ _ ihinner ih => rw [hnext (h.of_ok ((scanBlock_cons _ _).trans ihinner)), ih]
  | fault h => exact gatherAll_of_error (h _)
  | unopened h hbrace =>
    refine gatherAll_of_error (h.of_error ?_)
    rw [scanBlock_eq, bind_of_error hbrace]
  | within h _ ih => exact gatherAll_of_error (h.of_error ((scanBlock_cons _ _).trans ih))

/-- **There is an end to the steps**, whatever the text. -/
theorem exists_steps (dialect : Dialect) (inBlock : Bool) (s : Text) :
    ∃ places outcome, Steps dialect inBlock s places outcome := by
  induction hn : s.length using Nat.strongRecOn generalizing s inBlock with
  | ind n ih =>
    subst hn
    have hshorter (inBlock : Bool) (t : Text) (ht : t.length < s.length) := ih t.length ht inBlock t rfl
    obtain ⟨outcome, h⟩ | ⟨t, make, hlt, h⟩ := exists_of_scanItem dialect inBlock s
    · match outcome with
      | .error problem rest => exact ⟨_, _, .fault h⟩
      | .ok none rest =>
        cases inBlock with
        | false => exact ⟨_, _, .finish h⟩
        | true => exact ⟨_, _, .close h⟩
      | .ok (some stmts) s' =>
        have hs' : s'.length < s.length := length_lt_of_scanItem (consumes_scanBlock dialect) (h _)
        obtain ⟨places, outcome, hsteps⟩ := hshorter inBlock s' hs'
        exact ⟨_, _, .next h hsteps⟩
    · cases hbrace : expectChar '{' t with
      | error problem rest => exact ⟨_, _, .unopened h hbrace⟩
      | ok u t' =>
        obtain rfl := expectChar_eq_ok.mp hbrace
        obtain ⟨inner, outcome, hinner⟩ := hshorter true t' ((Nat.lt_succ_self _).trans hlt)
        cases outcome with
        | error problem rest => exact ⟨_, _, .within h hinner⟩
        | ok body s' =>
          have hs' : s'.length < s.length := length_lt_of_scanItem (consumes_scanBlock dialect)
            (h.of_ok ((scanBlock_cons dialect t').trans hinner.eq))
          obtain ⟨places, outcome, hsteps⟩ := hshorter inBlock s' hs'
          exact ⟨_, _, .block h hinner hsteps⟩

/-! ## Where steps start -/

/-- Places behind each other, from where `high` characters are left to where `low` are. -/
structure Descends (high low : Nat) (places : List Nat) : Prop where
  ordered : places.Pairwise (· > ·)
  bounded : ∀ p ∈ places, low ≤ p ∧ p ≤ high

namespace Descends

variable {m : Nat} {more : List Nat}

protected theorem nil : Descends high low [] := ⟨.nil, by simp⟩

theorem single (h : low ≤ high) : Descends high low [high] := ⟨List.pairwise_singleton _ _, by simp [h]⟩

theorem cons (h : Descends m low places) (hm : m < high) (hlow : low ≤ high) :
    Descends high low (high :: places) where
  ordered := List.pairwise_cons.mpr ⟨fun p hp => Nat.lt_of_le_of_lt (h.bounded p hp).2 hm, h.ordered⟩
  bounded := List.forall_mem_cons.mpr
    ⟨⟨hlow, le_rfl⟩, fun p hp => (h.bounded p hp).imp_right (·.trans hm.le)⟩

theorem append (h : Descends high (m + 1) places) (hmore : Descends m low more) (hlow : low ≤ m + 1)
    (hm : m ≤ high) : Descends high low (places ++ more) where
  ordered := List.pairwise_append.mpr ⟨h.ordered, hmore.ordered, fun p hp q hq =>
    Nat.lt_of_le_of_lt (hmore.bounded q hq).2 (h.bounded p hp).1⟩
  bounded := List.forall_mem_append.mpr ⟨fun p hp => (h.bounded p hp).imp_left hlow.trans,
    fun q hq => (hmore.bounded q hq).imp_right (·.trans hm)⟩

end Descends

theorem Steps.floor_le (h : Steps dialect inBlock s places outcome) : floor outcome ≤ s.length + 1 := by
  cases outcome with
  | ok body rest => exact Nat.succ_le_succ (consumes_scanBody dialect inBlock h.eq).length_le
  | error problem rest => exact Nat.zero_le _

/-- The brace that closes a block is consumed. -/
theorem length_lt_of_close (h : scanItem dialect (scanBlock dialect) true s = .ok none rest) :
    rest.length < s.length := by
  obtain ⟨-, hlt, -⟩ | ⟨_, hsome, -⟩ := reads_scanItem (consumes_scanBlock dialect) h
  · exact hlt
  · cases hsome

/-- **Each step starts further on in the text than the one before it.** -/
theorem Steps.descends (h : Steps dialect inBlock s places outcome) :
    Descends s.length (floor outcome) places := by
  induction h with
  | finish h => exact .nil
  | close h => exact .single (length_lt_of_close (h _))
  | next h hsteps ih =>
    have hlt := length_lt_of_scanItem (consumes_scanBlock dialect) (h _)
    rw [floor_prepend]
    exact ih.cons hlt (hsteps.floor_le.trans hlt)
  | block h hinner hsteps ihinner ih =>
    have hlt := (asks_scanItem ..).length_lt h
    rw [floor_prepend]
    refine (ihinner.append ih hsteps.floor_le (Nat.le_of_succ_le_succ hinner.floor_le)).cons ?_ ?_
    · exact (Nat.lt_succ_self _).trans hlt
    · exact hsteps.floor_le.trans (hinner.floor_le.trans hlt.le)
  | fault h | unopened h hbrace => exact .single (Nat.zero_le _)
  | within h _ ih => exact ih.cons ((Nat.lt_succ_self _).trans ((asks_scanItem ..).length_lt h)) (Nat.zero_le _)

/-- **Steps take at least one character each**, and do not take what is left behind them. In a block the last one
may find nothing, but then there is the brace in front of the block. -/
theorem Steps.length_le (h : Steps dialect inBlock s places outcome) :
    places.length + (floor outcome - 1) ≤ s.length + inBlock.toNat := by
  induction h with
  | finish h =>
    have hle := (Steps.finish h).floor_le
    simp only [floor_ok, List.length_nil] at hle ⊢
    omega
  | close h =>
    have hlt := length_lt_of_close (h _)
    simp only [floor_ok, List.length_singleton]
    omega
  | next h _ ih =>
    have hlt := length_lt_of_scanItem (consumes_scanBlock dialect) (h _)
    rw [floor_prepend, List.length_cons]
    omega
  | block h _ _ ihinner ih =>
    have hlt := (asks_scanItem ..).length_lt h
    simp only [floor_ok, floor_prepend, List.length_cons, List.length_append, Bool.toNat_true] at hlt ihinner ⊢
    omega
  | @fault inBlock s rest problem h =>
    simp only [floor_error, List.length_singleton]
    cases s with
    | nil =>
      -- only in a block is it a fault that nothing is left
      cases inBlock with
      | false => cases h (scanBlock dialect)
      | true => exact le_rfl
    | cons c s => exact Nat.le_add_right_of_le (Nat.succ_pos _)
  | unopened h _ =>
    have hlt := (asks_scanItem ..).length_lt h
    simp only [floor_error, List.length_singleton]
    omega
  | within h _ ih =>
    have hlt := (asks_scanItem ..).length_lt h
    simp only [floor_error, List.length_cons, Bool.toNat_true] at hlt ih ⊢
    omega

/-! ## Stylesheets -/

/-- What is left behind a byte-order mark, or all of a text without one. -/
def withoutMark (s : Text) : Text := if s.head? = some '\ufeff' then s.tail else s

theorem length_withoutMark_le (s : Text) : (withoutMark s).length ≤ s.length := by
  unfold withoutMark
  split
  · exact (List.tail_suffix s).length_le
  · exact le_rfl

theorem scan_eq (dialect : Dialect) (s : Text) : scan dialect s = scanBody dialect false (withoutMark s) := by
  rw [scan, discard_bind, withoutMark]
  by_cases h : s.head? = some '\ufeff'
  · have hmark : scanChar '\ufeff' s = .ok true s.tail := if_pos h
    rw [bind_of_ok hmark, if_pos h]
    rfl
  · have hmark : scanChar '\ufeff' s = .ok false s := if_neg h
    rw [bind_of_ok hmark, if_neg h]
    rfl

/-- **Reading a stylesheet makes progress and ends.** A statement that is read is not empty, and neither is
anything else that is read of a body, except for the end of the stylesheet. So there is an end to the steps of
reading a stylesheet, which start one behind the other and are no more than it has tokens. -/
theorem scan_progress (dialect : Dialect) :
    (∀ s stmts rest, scanStatement dialect (scanBlock dialect) s = .ok stmts rest →
      rest <:+ s ∧ rest.length < s.length) ∧
    (∀ inBlock s out rest, scanItem dialect (scanBlock dialect) inBlock s = .ok out rest →
      rest <:+ s ∧ (rest.length < s.length ∨ inBlock = false ∧ out = none ∧ rest = [])) ∧
    ∀ source : Source, (∃ places outcome, Steps dialect false (withoutMark source.chars) places outcome) ∧
      ∀ places outcome, Steps dialect false (withoutMark source.chars) places outcome →
        scan dialect source.chars = outcome ∧ places.Pairwise (· > ·) ∧ places.length ≤ source.size := by
  have hblock := consumes_scanBlock dialect
  refine ⟨fun s stmts rest h => ⟨?_, ?_⟩, fun inBlock s out rest h => ⟨?_, ?_⟩,
    fun source => ⟨exists_steps .., fun places outcome h => ⟨?_, h.descends.ordered, ?_⟩⟩⟩
  · exact (finds_scanStatement (finds_scanBlock dialect) dialect).consumes h
  · exact (reads_scanStatement hblock h).length_lt hblock
  · exact (finds_scanItem (finds_scanBlock dialect) dialect inBlock).consumes h
  · cases out with
    | some stmts => exact .inl (length_lt_of_scanItem hblock h)
    | none =>
      cases inBlock with
      | true => exact .inl (length_lt_of_close h)
      | false =>
        obtain ⟨-, -, hrest⟩ | ⟨_, hsome, -⟩ := reads_scanItem hblock h
        · exact .inr ⟨rfl, rfl, hrest rfl⟩
        · cases hsome
  · rw [scan_eq, h.eq]
  · have hle : places.length + (floor outcome - 1) ≤ (withoutMark source.chars).length := h.length_le
    have hsize : source.chars.length = source.size := List.length_map _
    have hmark := length_withoutMark_le source.chars
    omega

/-- A style rule that starts like an extend. -/
def restartedText : Text := "&:extend(.a)b\x7b;\x7d".toList

theorem scan_progress_restartedText : ∃ outcome,
    Steps .less false (withoutMark (Source.ofText restartedText).chars) [16, 2, 1] outcome ∧
      scan .less (Source.ofText restartedText).chars = outcome ∧ 3 ≤ (Source.ofText restartedText).size := by
  have hchars : withoutMark (Source.ofText restartedText).chars = restartedText := by decide +kernel
  have hsemicolon : Settled (scanItem .less · true [';', '}']) (.ok (some []) ['}']) :=
    fun block => by with_unfolding_all rfl
  have hclose : Settled (scanItem .less · true ['}']) (.ok none []) :=
    fun block => by with_unfolding_all rfl
  have hfinish : Settled (scanItem .less · false []) (.ok none []) :=
    fun block => by with_unfolding_all rfl
  -- the rule has a block where it stops if no block can be read
  obtain ⟨make, hrule⟩ : ∃ make : List Stmt → Text → List Stmt,
      Opened (scanItem .less · false restartedText) ['{', ';', '}']
        fun body rest => some (make body rest) := by
    have hfail : scanItem .less (failHere .expectedString) false restartedText =
      .error ⟨.expectedString, .region (.next 3)⟩ ['{', ';', '}'] := by with_unfolding_all rfl
    have hread : ∃ out rest, scanItem .less (pure []) false restartedText = .ok out rest :=
      ⟨_, _, by with_unfolding_all rfl⟩
    obtain ⟨outcome, h⟩ | ⟨t, make, -, h⟩ := exists_of_scanItem .less false restartedText
    · obtain ⟨out, rest, hread⟩ := hread
      cases hread.symm.trans ((h _).trans ((h _).symm.trans hfail))
    · obtain ⟨-, rfl⟩ := EStateM.Result.error.inj (hfail.symm.trans (h.of_error rfl))
      exact ⟨make, h⟩
  have hsteps : ∃ outcome, Steps .less false restartedText [16, 2, 1] outcome :=
    ⟨_, .block hrule (.next hsemicolon (.close hclose)) (.finish hfinish)⟩
  rw [← hchars] at hsteps
  obtain ⟨outcome, hsteps⟩ := hsteps
  obtain ⟨-, -, hsource⟩ := scan_progress .less
  obtain ⟨hscan, -, hlength⟩ := (hsource (Source.ofText restartedText)).2 _ _ hsteps
  exact ⟨outcome, hsteps, hscan, hlength⟩

end NestedCss.Stylesheet
