import NestedCss.Scanner.Basic

/-!
# Runs of scanners

What a successful run of a compound scanner tells about the runs of its parts.

* `Scanner.bind_apply`, `Scanner.bind_eq_ok`: one scanner after another;
* `Scanner.skip_bind`, `Scanner.expectChar_eq_ok`, `Scanner.scanChar_eq_ok`: single characters;
* `Scanner.mark_bind`, `Scanner.regionFrom_bind`: places;
* `Scanner.rawText_eq_ok`, `Scanner.rawText_eq_ok_of`: the text that a scanner consumes;
* `Scanner.forall_mem_of_gather`: what holds of all that a step collects holds of all that is gathered;
* `Scanner.gather_flatMap`: gathering in smaller pieces;
* `Scanner.gather_congr`: only texts that are still to come count;
* `Scanner.gatherAll_of_none`, `Scanner.gatherAll_of_error`, `Scanner.gatherAll_of_some`: one step of gathering;
* `Scanner.gatherAll_induction`: from the steps to all that is gathered.
-/

namespace NestedCss.Scanner

variable {α β γ σ : Type} {s s' rest : Text}

theorem bind_apply (x : Scanner α) (f : α → Scanner β) (s : Text) :
    (x >>= f) s = match x s with
      | .ok a s' => f a s'
      | .error e s' => .error e s' := by
  change EStateM.bind x f s = _
  unfold EStateM.bind
  cases x s <;> rfl

theorem bind_of_ok {x : Scanner α} {f : α → Scanner β} {a : α}
    (h : x s = .ok a s') : (x >>= f) s = f a s' := by
  rw [bind_apply, h]

theorem bind_of_error {x : Scanner α} {f : α → Scanner β} {problem : Problem}
    (h : x s = .error problem s') : (x >>= f) s = .error problem s' := by
  rw [bind_apply, h]

theorem bind_eq_ok {x : Scanner α} {f : α → Scanner β} {b : β} :
    (x >>= f) s = .ok b rest ↔ ∃ a s', x s = .ok a s' ∧ f a s' = .ok b rest := by
  rw [bind_apply]
  cases x s <;> simp [and_assoc]

theorem pure_apply (a : α) (s : Text) : (pure a : Scanner α) s = .ok a s := rfl

theorem pure_eq_ok {a b : α} : (pure a : Scanner α) s = .ok b rest ↔ a = b ∧ s = rest := by
  change EStateM.Result.ok a s = .ok b rest ↔ _
  simp

theorem discard_eq_ok {x : Scanner α} {u : PUnit} :
    (discard x) s = .ok u rest ↔ ∃ a, x s = .ok a rest := by
  change EStateM.map _ x s = _ ↔ _
  unfold EStateM.map
  cases x s <;> simp

theorem discard_eq (x : Scanner α) : (discard x : Scanner Unit) = do let _ ← x; return () := by
  funext s
  change EStateM.map _ x s = EStateM.bind x _ s
  unfold EStateM.map EStateM.bind
  cases x s <;> rfl

theorem discard_bind (x : Scanner α) (f : Unit → Scanner β) : (discard x >>= f) = x >>= fun _ => f () := by
  funext s
  rw [discard_eq, bind_apply, bind_apply, bind_apply]
  cases x s <;> rfl

theorem bind_pure_eq_ok {x : Scanner α} {g : α → β} {b : β} :
    (do return g (← x) : Scanner β) s = .ok b rest ↔ ∃ a, x s = .ok a rest ∧ b = g a := by
  rw [bind_eq_ok]
  simp [pure_eq_ok, eq_comm, and_comm, and_assoc]

/-! ## Single characters -/

theorem skip_bind {f : Unit → Scanner β} (c : Char) (s : Text) : (skip >>= f) (c :: s) = f () s := rfl

theorem peek_bind {f : Option Char → Scanner β} (s : Text) : (peek >>= f) s = f s.head? s := rfl

theorem skipWhile_bind {f : Unit → Scanner β} (p : Char → Bool) (s : Text) :
    (skipWhile p >>= f) s = f () (s.dropWhile p) := rfl

theorem nextIs_bind {f : Bool → Scanner β} (c : Char) (s : Text) :
    (nextIs c >>= f) s = f (s.head? == some c) s := rfl

theorem lookingAt_bind {f : Bool → Scanner β} (t s : Text) : (lookingAt t >>= f) s = f (t.isPrefixOf s) s := rfl

theorem mark_bind {f : Nat → Scanner β} (s : Text) : (mark >>= f) s = f s.length s := rfl

theorem regionFrom_bind {f : Region → Scanner β} (start : Nat) (s : Text) :
    (regionFrom start >>= f) s = f ⟨start, s.length⟩ s := rfl

theorem expectChar_eq_ok {c : Char} {u : Unit} : expectChar c s = .ok u rest ↔ s = c :: rest := by
  unfold expectChar
  cases s with
  | nil => simp
  | cons d s => by_cases h : d = c <;> simp [h]

theorem scanChar_eq_ok {c : Char} {found : Bool} :
    scanChar c s = .ok found rest ↔
      found = true ∧ s = c :: rest ∨ found = false ∧ s.head? ≠ some c ∧ s = rest := by
  unfold scanChar
  cases s with
  | nil => simp [eq_comm]
  | cons d s =>
    by_cases h : d = c
    · simp [h, eq_comm]
    · simp [Ne.symm h, eq_comm]

/-! ## Raw text -/

/-- The text that a scanner consumes, if it only ever takes characters from the front. -/
theorem rawText_eq_ok {x : Scanner α} {raw : Text} :
    rawText x s = .ok raw rest ↔ ∃ a, x s = .ok a rest ∧ raw = s.take (s.length - rest.length) := by
  unfold rawText
  cases x s <;> simp +contextual [eq_comm, and_comm]

/-- What is known of the texts that a scanner takes from the front is known of its raw text. -/
theorem rawText_eq_ok_of {x : Scanner α} (P : Text → Text → Prop)
    (h : ∀ rest, (∃ a, x s = .ok a rest) ↔ ∃ raw, P raw rest ∧ s = raw ++ rest) :
    rawText x s = .ok raw rest ↔ P raw rest ∧ s = raw ++ rest := by
  rw [rawText_eq_ok]
  constructor
  · rintro ⟨a, ha, rfl⟩
    obtain ⟨raw, hraw, rfl⟩ := (h rest).mp ⟨a, ha⟩
    simpa using hraw
  · rintro ⟨hraw, hs⟩
    obtain ⟨a, ha⟩ := (h rest).mpr ⟨raw, hraw, hs⟩
    exact ⟨a, ha, by simp [hs]⟩

/-! ## Gathering -/

/-- What holds of all that a step collects holds of all that is gathered. -/
theorem forall_mem_of_gather {P : γ → Prop} {step : σ → Scanner (Option (List γ × σ))}
    (hstep : ∀ state s piece state' rest, step state s = .ok (some (piece, state')) rest →
      ∀ x ∈ piece, P x)
    {state last : σ} {out : List γ} (h : gather step state s = .ok (out, last) rest) :
    ∀ x ∈ out, P x := by
  fun_induction gather step state s generalizing out last rest with
  | case1 => cases h
  | case2 =>
    cases h
    simp
  | case3 => cases h
  | case4 state s piece state' rest' hpiece _ more last' rest'' hmore ih =>
    cases h
    intro x hx
    rcases List.mem_append.mp hx with hx | hx
    · exact hstep _ _ _ _ _ hpiece x hx
    · exact ih hmore x hx
  | case5 state s piece state' rest' hpiece =>
    cases h
    exact hstep _ _ _ _ _ hpiece

theorem gather_of_some {step : σ → Scanner (Option (List γ × σ))} {state state' last : σ}
    {piece more : List γ} (hstep : step state s = .ok (some (piece, state')) s')
    (hlt : s'.length < s.length) (hmore : gather step state' s' = .ok (more, last) rest) :
    gather step state s = .ok (piece ++ more, last) rest := by
  rw [gather, hstep]
  simp only [hlt, if_true, hmore]

/-- What a step does in front of longer texts does not count. -/
theorem gather_congr {step step' : σ → Scanner (Option (List γ × σ))} (state : σ)
    (hstep : ∀ state u, u.length ≤ s.length → step state u = step' state u) :
    gather step state s = gather step' state s := by
  fun_induction gather step state s with
  | case1 state s problem rest h => rw [gather, ← hstep state s (Nat.le_refl _), h]
  | case2 state s rest h => rw [gather, ← hstep state s (Nat.le_refl _), h]
  | case3 state s piece state' rest h hlt problem rest' hmore ih =>
    rw [gather, ← hstep state s (Nat.le_refl _), h]
    simp only [hlt, if_true, ← ih fun state u hu => hstep state u (Nat.le_trans hu (Nat.le_of_lt hlt)), hmore]
  | case4 state s piece state' rest h hlt more last rest' hmore ih =>
    rw [gather, ← hstep state s (Nat.le_refl _), h]
    simp only [hlt, if_true, ← ih fun state u hu => hstep state u (Nat.le_trans hu (Nat.le_of_lt hlt)), hmore]
  | case5 state s piece state' rest h hlt =>
    rw [gather, ← hstep state s (Nat.le_refl _), h]
    simp only [hlt, if_false]

/-- Pieces that are made of others may be gathered as these. -/
theorem gather_flatMap {δ : Type} {step : σ → Scanner (Option (List γ × σ))}
    {step' : σ → Scanner (Option (List δ × σ))} (f : δ → List γ)
    (hstep : ∀ state, step state =
      do return (← step' state).map fun (piece, state') => (piece.flatMap f, state'))
    (state : σ) : gather step state = do
      let (out, last) ← gather step' state
      return (out.flatMap f, last) := by
  funext s
  fun_induction gather step' state s with
  | case1 state s problem rest' h =>
    rw [bind_apply, gather, gather, hstep, bind_apply, h]
  | case2 state s rest' h =>
    rw [bind_apply, gather, gather, hstep, bind_apply, h]
    rfl
  | case3 state s piece state' rest' h hlt problem rest'' hmore ih =>
    rw [bind_apply, hmore] at ih
    rw [bind_apply, gather, gather, hstep, bind_apply, h]
    simp only [pure_apply, Option.map_some, hlt, if_true, hmore, ih]
  | case4 state s piece state' rest' h hlt more last rest'' hmore ih =>
    rw [bind_apply, hmore] at ih
    rw [bind_apply, gather, gather, hstep, bind_apply, h]
    simp only [pure_apply, Option.map_some, hlt, if_true, hmore] at ih ⊢
    rw [ih, List.flatMap_append]
  | case5 state s piece state' rest' h hlt =>
    rw [bind_apply, gather, gather, hstep, bind_apply, h]
    simp only [pure_apply, Option.map_some, hlt, if_false]

section Gather

variable {step step' : Scanner (Option (List γ))} {piece out : List γ}

private theorem forgetful_apply (step : Scanner (Option (List γ))) (s : Text) :
    (do return (← step).map (·, ()) : Scanner (Option (List γ × Unit))) s =
      match step s with
      | .ok piece s' => .ok (piece.map (·, ())) s'
      | .error e s' => .error e s' := by
  rw [bind_apply]
  cases step s <;> rfl

theorem gatherAll_of_none (h : step s = .ok none s') : gatherAll step s = .ok [] s' := by
  rw [gatherAll, bind_apply, gather, forgetful_apply, h]
  rfl

theorem gatherAll_of_error {problem : Problem} (h : step s = .error problem s') :
    gatherAll step s = .error problem s' := by
  rw [gatherAll, bind_apply, gather, forgetful_apply, h]

theorem gatherAll_apply_of_some (h : step s = .ok (some piece) s') (hlt : s'.length < s.length) :
    gatherAll step s = (do return piece ++ (← gatherAll step) : Scanner (List γ)) s' := by
  rw [gatherAll, bind_apply, bind_apply, bind_apply, gather, forgetful_apply, h]
  simp only [Option.map_some, hlt, if_true]
  cases gather _ () s' <;> rfl

theorem gatherAll_of_some (h : step s = .ok (some piece) s') (hlt : s'.length < s.length) :
    gatherAll step s = .ok out rest ↔ ∃ more, gatherAll step s' = .ok more rest ∧ out = piece ++ more := by
  rw [gatherAll_apply_of_some h hlt]
  exact bind_pure_eq_ok

theorem gatherAll_congr (h : ∀ u : Text, u.length ≤ s.length → step u = step' u) :
    gatherAll step s = gatherAll step' s := by
  have hstep (state : Unit) (u : Text) (hu : u.length ≤ s.length) :
      (do return (← step).map (·, state) : Scanner (Option (List γ × Unit))) u =
        (do return (← step').map (·, state) : Scanner (Option (List γ × Unit))) u := by
    rw [bind_apply, bind_apply, h u hu]
  rw [gatherAll, gatherAll, bind_apply, bind_apply]
  rw [gather_congr () hstep]

/-- What holds when a step ends the gathering, and is handed on from the rest of the text to the text
by a step that goes on, holds of all that is gathered. -/
theorem gatherAll_induction {motive : Text → List γ → Text → Prop}
    (stop : ∀ s rest, step s = .ok none rest → motive s [] rest)
    (stuck : ∀ s piece rest, step s = .ok (some piece) rest → ¬ rest.length < s.length →
      motive s piece rest)
    (next : ∀ s piece s' more rest, step s = .ok (some piece) s' → s'.length < s.length →
      gatherAll step s' = .ok more rest → motive s' more rest → motive s (piece ++ more) rest)
    (h : gatherAll step s = .ok out rest) : motive s out rest := by
  induction hn : s.length using Nat.strongRecOn generalizing s out rest with
  | ind n ih =>
    subst hn
    match hstep : step s with
    | .error e s' =>
      rw [gatherAll, bind_apply, gather, forgetful_apply, hstep] at h
      cases h
    | .ok none s' =>
      rw [gatherAll_of_none hstep] at h
      cases h
      exact stop _ _ hstep
    | .ok (some piece) s' =>
      by_cases hlt : s'.length < s.length
      · obtain ⟨more, hmore, rfl⟩ := (gatherAll_of_some hstep hlt).mp h
        exact next _ _ _ _ _ hstep hlt hmore (ih _ hlt hmore rfl)
      · rw [gatherAll, bind_apply, gather, forgetful_apply, hstep] at h
        simp only [Option.map_some, hlt, if_false] at h
        cases h
        exact stuck _ _ _ hstep hlt

end Gather

end NestedCss.Scanner
