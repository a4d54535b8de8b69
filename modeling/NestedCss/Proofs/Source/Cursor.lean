import Mathlib.Logic.Function.Iterate
import NestedCss.Proofs.Scanner.Consumes
import NestedCss.Proofs.Source.Regions
import NestedCss.Source.Cursor

/-!
# Cursors and scanners

A cursor knows where it is in its source, a scanner only what is left there. Whatever a cursor tells of its
place is what a scanner tells of the text from there on, so a source may be read with either.

* `Cursor.peek_rest`, `Cursor.skip_rest`: single characters;
* **`Cursor.iterate_next?`**: many characters, `Cursor.textFrom_iterate`, `Cursor.toEnd_eq_iterate`;
* **`Cursor.rawText_rest`**: the text that a scanner consumes stands between two cursors;
* **`Cursor.spanFrom_eq`**, `Cursor.currentSpan_eq`, `Cursor.previousSpan_eq`: the bytes at a cursor are those
  of a region.
-/

namespace NestedCss.Cursor

variable {α : Type} {c : Cursor} {t rest : Text}

/-! ## Single characters -/

theorem length_rest (c : Cursor) : c.rest.length = c.source.size - c.index := by
  rw [rest, List.length_drop, Source.length_chars]

theorem peekAt?_eq (c : Cursor) (n : ℕ) : c.peekAt? n = c.rest[n]? := by
  rw [peekAt?, rest, List.getElem?_drop, Source.chars, List.getElem?_map]

theorem peek?_eq (c : Cursor) : c.peek? = c.rest.head? := by
  rw [peek?, peekAt?_eq, List.head?_eq_getElem?]

theorem rest_succ (c : Cursor) : (⟨c.source, c.index + 1⟩ : Cursor).rest = c.rest.tail := List.tail_drop.symm

/-- At the end the cursor stays, elsewhere it moves on. -/
theorem next?_eq (c : Cursor) :
    c.next? = if c.rest = [] then (none, c) else (c.rest.head?, ⟨c.source, c.index + 1⟩) := by
  rw [next?, peek?_eq]
  cases c.rest with
  | nil => rfl
  | cons char rest => rfl

/-- A scanner that looks at what is left sees what the cursor does. -/
theorem peek_rest (c : Cursor) : Scanner.peek c.rest = .ok c.peek? c.rest := by
  rw [peek?_eq]
  rfl

theorem rest_next? (c : Cursor) : c.next?.2.rest = c.rest.tail := by
  rw [next?_eq]
  by_cases h : c.rest = []
  · rw [if_pos h, h]
    rfl
  · rw [if_neg h, rest_succ]

/-- A scanner that skips a character leaves what the cursor leaves. -/
theorem skip_rest (c : Cursor) : Scanner.skip c.rest = .ok () c.next?.2.rest := by
  rw [rest_next?]
  rfl

/-! ## Many characters -/

/-- **The cursor behind `n` more characters**, or as many as are left. -/
theorem iterate_next? (c : Cursor) (n : ℕ) :
    (·.next?.2)^[n] c = ⟨c.source, c.index + min n c.rest.length⟩ := by
  induction n generalizing c with
  | zero => rw [Nat.zero_min]; rfl
  | succ n ih =>
    rw [Function.iterate_succ_apply, next?_eq]
    by_cases h : c.rest = []
    · rw [if_pos h, ih, h, List.length_nil, Nat.min_zero, Nat.min_zero]
    · have hpos : 0 < c.rest.length := List.length_pos_iff.mpr h
      rw [if_neg h, ih, rest_succ, List.length_tail]
      congr 1
      dsimp only
      omega

theorem rest_iterate (c : Cursor) (n : ℕ) : ((·.next?.2)^[n] c).rest = c.rest.drop n := by
  induction n generalizing c with
  | zero => rfl
  | succ n ih => rw [Function.iterate_succ_apply, ih, rest_next?, List.drop_tail]

/-- The characters that were read stand between the two places. -/
theorem textFrom_iterate (c : Cursor) (n : ℕ) : ((·.next?.2)^[n] c).textFrom c.index = c.rest.take n := by
  rw [iterate_next?, textFrom, List.drop_take, Nat.add_sub_cancel_left]
  exact List.take_eq_take_min.symm

/-- The last place is where reading leads that does not stop before. -/
theorem toEnd_eq_iterate (c : Cursor) : c.toEnd = (·.next?.2)^[c.rest.length] c := by
  rw [iterate_next?, Nat.min_self, length_rest, toEnd]
  congr 1
  omega

/-! ## Texts of scanners -/

/-- The place in a source in front of what is left of it. -/
def before (s : Source) (rest : Text) : Cursor := ⟨s, s.size - rest.length⟩

theorem rest_before {s : Source} (h : rest <:+ s.chars) : (before s rest).rest = rest := by
  rw [Cursor.rest, before, ← Source.length_chars]
  exact (List.suffix_iff_eq_drop.mp h).symm

/-- **The text that a scanner consumes** is what stands between the place where it starts and the place in
front of what it leaves. -/
theorem rawText_rest {x : Scanner α} (hx : Scanner.Consumes x) (h : Scanner.rawText x c.rest = .ok t rest) :
    (before c.source rest).rest = rest ∧ t = (before c.source rest).textFrom c.index := by
  obtain ⟨a, ha, ht⟩ := Scanner.rawText_eq_ok.mp h
  have hsuffix : rest <:+ c.rest := hx ha
  refine ⟨rest_before (hsuffix.trans (List.drop_suffix _ _)), ?_⟩
  rw [textFrom, before, List.drop_take, Nat.sub_right_comm, ← length_rest]
  exact ht

/-! ## Bytes -/

/-- **The bytes from an earlier place up to the cursor** are those of the region between the two. -/
theorem spanFrom_eq (c : Cursor) (start : ℕ) :
    c.spanFrom start = c.source.spanOf ⟨c.source.size - start, c.rest.length⟩ := by
  rw [spanFrom, Source.spanFrom, Source.spanOf, Source.spanFrom, length_rest]
  congr 1 <;> (apply Source.spanAt_eq; dsimp only; omega)

/-- A scanner that marks a region where the cursor is marks those bytes. -/
theorem spanOf_regionFrom (c : Cursor) (start : ℕ) :
    ∃ r, Scanner.regionFrom (c.source.size - start) c.rest = .ok r c.rest ∧
      c.source.spanOf r = c.spanFrom start :=
  ⟨_, rfl, (c.spanFrom_eq start).symm⟩

/-- The bytes of the next character, or of the last one at the end. -/
theorem currentSpan_eq (c : Cursor) : c.currentSpan = c.source.spanOf (.next c.rest.length) := by
  rw [Source.spanOf, Source.spanFrom, Region.next, length_rest]
  have hstart : c.source.spanAt (c.source.size - (c.source.size - c.index)) = c.currentSpan :=
    Source.spanAt_eq (by omega)
  have hstop : c.source.spanAt (c.source.size - (c.source.size - c.index - 1) - 1) = c.currentSpan :=
    Source.spanAt_eq (by omega)
  rw [hstart, hstop, Span.union, Nat.min_self, Nat.max_self]

/-- The bytes of the character that was read last, or of the first one at the start. -/
theorem previousSpan_eq (c : Cursor) : c.previousSpan = c.source.spanOf (.last c.rest.length) := by
  rw [Source.spanOf, Source.spanFrom, Region.last, length_rest]
  have hstart : c.source.spanAt (c.source.size - (c.source.size - c.index + 1)) = c.previousSpan :=
    Source.spanAt_eq (by omega)
  have hstop : c.source.spanAt (c.source.size - (c.source.size - c.index) - 1) = c.previousSpan :=
    Source.spanAt_eq (by omega)
  rw [hstart, hstop, Span.union, Nat.min_self, Nat.max_self]

/-- A scanner that fails where the cursor is reports its character, or the last one at the end. -/
theorem diagnose_failHere (c : Cursor) (fault : Fault) :
    ∃ p, (Scanner.failHere fault : Scanner α) c.rest = .error p c.rest ∧
      c.source.diagnose p = ⟨fault, c.currentSpan⟩ := by
  refine ⟨_, rfl, ?_⟩
  rw [currentSpan_eq]
  rfl

end NestedCss.Cursor
