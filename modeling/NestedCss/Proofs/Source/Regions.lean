import NestedCss.Proofs.Source.Tokens

/-!
# The order of regions

* `Region.first`, `Region.final`: the first and the last character that a region stands for;
* `Region.Before`, `Region.Within`: regions behind each other and within each other;
* **`Source.spanOf_before`**, **`Source.spanOf_within`**: the spans of regions of a file lie as the regions do.
-/

namespace NestedCss

/-! ## Regions -/

namespace Region

/-- How many characters are left in front of the first one that a region stands for. If it is empty, that are the
characters on both sides of it. -/
def first (r : Region) : Nat := max r.start (r.stop + 1)

/-- How many characters are left in front of the last one that a region stands for. -/
def final (r : Region) : Nat := min r.start (r.stop + 1)

/-- One region ends before the other one starts. -/
def Before (a b : Region) : Prop := b.first < a.final

/-- One region is a part of the other one. -/
def Within (a b : Region) : Prop := a.first ≤ b.first ∧ b.final ≤ a.final

variable {r : Region}

theorem first_of_lt (h : r.stop < r.start) : r.first = r.start := Nat.max_eq_left h

theorem final_of_lt (h : r.stop < r.start) : r.final = r.stop + 1 := Nat.min_eq_right h

theorem final_le_first (r : Region) : r.final ≤ r.first :=
  Nat.le_trans (Nat.min_le_left _ _) (Nat.le_max_left _ _)

theorem first_pos (r : Region) : 0 < r.first := Nat.lt_of_lt_of_le (Nat.succ_pos _) (Nat.le_max_right _ _)

end Region

/-! ## Their spans -/

/-- One span ends before the other one starts, or there. -/
def Span.Before (a b : Span) : Prop := a.stop ≤ b.start

/-- One span is a part of the other one. -/
def Span.Within (a b : Span) : Prop := b.start ≤ a.start ∧ a.stop ≤ b.stop

namespace Source

variable {t : Text} {a b r : Region}

/-- A span goes from the first character to the last one. -/
theorem spanOf_eq (t : Text) (r : Region) : (ofText t).spanOf r =
    ⟨((ofText t).spanAt ((ofText t).size - r.first)).start,
      ((ofText t).spanAt ((ofText t).size - r.final)).stop⟩ := by
  unfold spanOf spanFrom Region.first Region.final
  rw [Nat.sub_sub]
  rcases Nat.le_total r.start (r.stop + 1) with h | h
  · have hmono := spanAt_mono (t := t) (Nat.sub_le_sub_left h (ofText t).size)
    rw [Nat.max_eq_right h, Nat.min_eq_left h, Span.union, Nat.min_eq_right hmono.1, Nat.max_eq_left hmono.2]
  · have hmono := spanAt_mono (t := t) (Nat.sub_le_sub_left h (ofText t).size)
    rw [Nat.max_eq_left h, Nat.min_eq_right h, Span.union, Nat.min_eq_left hmono.1, Nat.max_eq_right hmono.2]

theorem spanOf_start_lt_stop (h : r.first ≤ (ofText t).size) :
    ((ofText t).spanOf r).start < ((ofText t).spanOf r).stop := by
  rw [spanOf_eq]
  refine Nat.lt_of_lt_of_le (spanAt_start_lt_stop (Nat.lt_of_lt_of_le r.first_pos h) _) ?_
  exact (spanAt_mono (Nat.sub_le_sub_left r.final_le_first _)).2

/-- **Regions behind each other have spans behind each other.** -/
theorem spanOf_before (h : a.Before b) (ha : a.first ≤ (ofText t).size) :
    ((ofText t).spanOf a).Before ((ofText t).spanOf b) := by
  have hb := b.first_pos
  have hle := a.final_le_first
  unfold Region.Before at h
  rw [Span.Before, spanOf_eq, spanOf_eq]
  apply spanAt_stop_le_start <;> omega

/-- **Regions within each other have spans within each other.** -/
theorem spanOf_within (h : a.Within b) (t : Text) : ((ofText t).spanOf a).Within ((ofText t).spanOf b) := by
  rw [Span.Within, spanOf_eq, spanOf_eq]
  exact ⟨(spanAt_mono (Nat.sub_le_sub_left h.1 _)).1, (spanAt_mono (Nat.sub_le_sub_left h.2 _)).2⟩

/-- **A region that starts where another one does and ends before it** has a span that does so. -/
theorem spanOf_initial (hstart : a.start = b.start) (hstop : b.stop < a.stop) (hlt : a.stop < a.start)
    (ha : a.start ≤ (ofText t).size) : ((ofText t).spanOf a).start = ((ofText t).spanOf b).start ∧
      ((ofText t).spanOf a).stop < ((ofText t).spanOf b).stop := by
  have hb : b.stop < b.start := by omega
  rw [spanOf_eq, spanOf_eq, Region.first_of_lt hlt, Region.final_of_lt hlt, Region.first_of_lt hb,
    Region.final_of_lt hb, hstart]
  refine ⟨rfl, Nat.lt_of_le_of_lt (spanAt_stop_le_start ?_ ?_) (spanAt_start_lt_stop ?_ _)⟩
  all_goals omega

end Source

end NestedCss
