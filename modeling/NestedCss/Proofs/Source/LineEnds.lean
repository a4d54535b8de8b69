import Mathlib.Data.List.Infix
import NestedCss.Proofs.Source.Tokens

/-!
# Other line ends

A text can be given with any of the four line ends. Its tokens are the same characters then, but their
offsets differ, and so do the columns that they stand in.

* `Text.withLineEnds`: a text with another line end for every line feed;
* `Source.chars_withLineEnds`, `Token.getElem?_list_withLineEnds`: its tokens;
* `Source.startOf_withLineEnds`: the place in which a region of it starts;
* **`Source.startOf_crlf`**, **`Source.column_startOf_lone`**: how this place moves.
-/

namespace NestedCss

/-- The text with another line end for every line feed. -/
def Text.withLineEnds (lineEnd : Text) (t : Text) : Text :=
  t.flatMap fun c => if c = '\n' then lineEnd else [c]

/-- What is read as a line feed. -/
inductive IsLineEnd : Text → Prop
  | lf : IsLineEnd ['\n']
  | crlf : IsLineEnd ['\r', '\n']
  | cr : IsLineEnd ['\r']
  | ff : IsLineEnd ['\x0c']

namespace Text

variable {lineEnd t : Text}

@[simp] theorem withLineEnds_nil : withLineEnds lineEnd [] = [] := rfl

theorem withLineEnds_cons (c : Char) (t : Text) :
    withLineEnds lineEnd (c :: t) = (if c = '\n' then lineEnd else [c]) ++ withLineEnds lineEnd t :=
  List.flatMap_cons

theorem withLineEnds_append (a b : Text) :
    withLineEnds lineEnd (a ++ b) = withLineEnds lineEnd a ++ withLineEnds lineEnd b :=
  List.flatMap_append

@[simp] theorem withLineEnds_lf (t : Text) : withLineEnds ['\n'] t = t := by
  induction t with
  | nil => rfl
  | cons c t ih =>
    rw [withLineEnds_cons, ih]
    split
    · next h => rw [h]; rfl
    · rfl

/-- Line ends without line feeds leave none in the text. -/
theorem lf_not_mem_withLineEnds (h : '\n' ∉ lineEnd) (t : Text) : '\n' ∉ withLineEnds lineEnd t := by
  intro hmem
  obtain ⟨c, -, hc⟩ := List.mem_flatMap.mp hmem
  split at hc
  · exact h hc
  · next hne => exact hne (List.mem_singleton.mp hc).symm

end Text

/-! ## Tokens -/

namespace Token

variable {lineEnd : Text}

/-- A line end is one token. A carriage return must not have a line feed behind it. -/
theorem list_lineEnd (h : IsLineEnd lineEnd) (offset : ℕ) {rest : Text}
    (hrest : lineEnd = ['\r'] → rest.head? ≠ some '\n') :
    list offset (lineEnd ++ rest) = ⟨'\n', offset⟩ :: list (offset + Text.byteLength lineEnd) rest := by
  cases h with
  | lf | crlf | ff => rfl
  | cr =>
    cases rest with
    | nil => rfl
    | cons d rest =>
      have hd : d ≠ '\n' := fun hd => hrest rfl (congrArg some hd)
      rw [List.singleton_append, list]
      · rfl
      · rintro rest' - heq
        exact hd (List.cons.inj heq).1

theorem list_withLineEnds_cons (h : IsLineEnd lineEnd) {c : Char} (hc : c ≠ '\r' ∧ c ≠ '\x0c') (t : Text)
    (offset : ℕ) : list offset (Text.withLineEnds lineEnd (c :: t)) = ⟨c, offset⟩ ::
      list (offset + Text.byteLength (Text.withLineEnds lineEnd [c])) (Text.withLineEnds lineEnd t) := by
  rw [Text.withLineEnds_cons, Text.withLineEnds_cons, Text.withLineEnds_nil, List.append_nil]
  split
  · next hlf =>
    subst hlf
    refine list_lineEnd h offset ?_
    rintro rfl hhead
    exact Text.lf_not_mem_withLineEnds (by decide) t (List.mem_of_mem_head? hhead)
  · rw [List.singleton_append, list_cons hc, Text.byteLength, Text.byteLength, Nat.add_zero]

/-- The tokens of a text with other line ends are those of the text, at other offsets. -/
theorem getElem?_list_withLineEnds (h : IsLineEnd lineEnd) {t : Text} (ht : Source.HasPlainLines t)
    (offset k : ℕ) :
    (list offset (Text.withLineEnds lineEnd t))[k]? =
      t[k]?.map fun c => ⟨c, offset + Text.byteLength (Text.withLineEnds lineEnd (t.take k))⟩ := by
  induction t generalizing offset k with
  | nil => rfl
  | cons c t ih =>
    rw [list_withLineEnds_cons h (ht c List.mem_cons_self)]
    cases k with
    | zero => rfl
    | succ k =>
      have hsplit : Text.withLineEnds lineEnd ((c :: t).take (k + 1)) =
          Text.withLineEnds lineEnd [c] ++ Text.withLineEnds lineEnd (t.take k) :=
        Text.withLineEnds_append [c] (t.take k)
      rw [hsplit, Text.byteLength_append, ← Nat.add_assoc, List.getElem?_cons_succ,
        List.getElem?_cons_succ, ih fun d hd => ht d (List.mem_cons_of_mem c hd)]

end Token

/-! ## Regions -/

namespace Source

variable {lineEnd t : Text}

/-- What a scanner reads of a text does not depend on its line ends. -/
theorem chars_withLineEnds (h : IsLineEnd lineEnd) (ht : HasPlainLines t) :
    (ofText (Text.withLineEnds lineEnd t)).chars = t := by
  refine List.ext_getElem? fun k => ?_
  rw [chars, List.getElem?_map]
  change ((Token.list 0 _)[k]?).map Token.char = _
  rw [Token.getElem?_list_withLineEnds h ht, Option.map_map]
  cases t[k]? <;> rfl

theorem size_withLineEnds (h : IsLineEnd lineEnd) (ht : HasPlainLines t) :
    (ofText (Text.withLineEnds lineEnd t)).size = t.length := by
  have hlength := congrArg List.length (chars_withLineEnds h ht)
  rwa [chars, List.length_map] at hlength

/-- The bytes in front of the first `k` characters, with other line ends. -/
def offsetWith (lineEnd t : Text) (k : ℕ) : ℕ := Text.byteLength (Text.withLineEnds lineEnd (t.take k))

theorem offsetWith_mono {k m : ℕ} (h : k ≤ m) : offsetWith lineEnd t k ≤ offsetWith lineEnd t m := by
  obtain ⟨rest, hrest⟩ := List.take_prefix_take_left (l := t) h
  rw [offsetWith, offsetWith, ← hrest, Text.withLineEnds_append, Text.byteLength_append]
  exact Nat.le_add_right _ _

theorem spanAt_start_withLineEnds (h : IsLineEnd lineEnd) (ht : HasPlainLines t) (i : ℕ) :
    ((ofText (Text.withLineEnds lineEnd t)).spanAt i).start =
      offsetWith lineEnd t (min i (t.length - 1)) := by
  have htoken : (ofText (Text.withLineEnds lineEnd t)).tokenAt? i =
      (ofText (Text.withLineEnds lineEnd t)).tokens[min i (t.length - 1)]? := by
    have hsize : (ofText (Text.withLineEnds lineEnd t)).tokens.length = t.length := size_withLineEnds h ht
    unfold tokenAt?
    rw [List.getLast?_eq_getElem?, hsize]
    rcases Nat.lt_or_ge i t.length with hi | hi
    · rw [Nat.min_eq_left (by omega), List.getElem?_eq_getElem (hsize ▸ hi)]
      rfl
    · rw [Nat.min_eq_right (by omega), List.getElem?_eq_none (hsize ▸ hi)]
      rfl
  have hget := Token.getElem?_list_withLineEnds h ht 0 (min i (t.length - 1))
  cases hc : t[min i (t.length - 1)]? with
  | none =>
    rw [hc] at hget
    rw [spanAt_of_none (htoken.trans hget), offsetWith]
    have hnil : t = [] := by
      rw [List.getElem?_eq_none_iff] at hc
      exact List.eq_nil_of_length_eq_zero (by omega)
    rw [hnil, List.take_nil]
    rfl
  | some c =>
    rw [hc] at hget
    have hτ := htoken.trans hget
    rw [spanAt_of_some hτ (Token.isPlaced_of_mem_list (mem_of_tokenAt? hτ)).2]
    simp [ofText, ofSnippet, Token.span, offsetWith]

/-- The index of the first token of a region. -/
def firstIndex (length : ℕ) (r : Region) : ℕ :=
  min (min (length - r.start) (length - 1)) (min (length - r.stop - 1) (length - 1))

/-- Where a region starts does not depend on the line ends, if counted in characters. -/
theorem spanOf_start_withLineEnds (h : IsLineEnd lineEnd) (ht : HasPlainLines t) (r : Region) :
    ((ofText (Text.withLineEnds lineEnd t)).spanOf r).start =
      offsetWith lineEnd t (firstIndex t.length r) := by
  rw [spanOf, spanFrom, size_withLineEnds h ht, Span.union, spanAt_start_withLineEnds h ht,
    spanAt_start_withLineEnds h ht, firstIndex]
  generalize min (t.length - r.start) (t.length - 1) = a
  generalize min (t.length - r.stop - 1) (t.length - 1) = b
  rcases Nat.le_total a b with hab | hab
  · rw [Nat.min_eq_left hab, Nat.min_eq_left (offsetWith_mono hab)]
  · rw [Nat.min_eq_right hab, Nat.min_eq_right (offsetWith_mono hab)]

end Source

/-! ## Columns -/

namespace Position

/-- The place behind a text. -/
def behind (p : Position) (t : Text) : Position := t.foldl advance p

theorem after_byteLength (p : Position) (a b : Text) : after p (Text.byteLength a) (a ++ b) = p.behind a := by
  induction a generalizing p with
  | nil => cases b <;> rfl
  | cons c a ih =>
    have hsize : 0 < c.utf8Size := c.utf8Size_pos
    rw [List.cons_append, after, Text.byteLength, if_neg (by omega), Nat.add_sub_cancel_left, ih]
    rfl

theorem behind_append (p : Position) (a b : Text) : p.behind (a ++ b) = (p.behind a).behind b :=
  List.foldl_append

/-- Carriage returns in front of line feeds do not move anything. -/
theorem behind_crlf (p : Position) (t : Text) :
    p.behind (Text.withLineEnds ['\r', '\n'] t) = p.behind t := by
  induction t generalizing p with
  | nil => rfl
  | cons c t ih =>
    rw [Text.withLineEnds_cons, behind_append, ih]
    split
    · next h => rw [h]; rfl
    · rfl

/-- Without line feeds, all stays in one line. -/
theorem behind_of_not_mem {t : Text} (h : '\n' ∉ t) (p : Position) :
    p.behind t = ⟨p.line, p.column + t.length⟩ := by
  induction t generalizing p with
  | nil => rfl
  | cons c t ih =>
    have hc : c ≠ '\n' := fun hc => h (hc ▸ List.mem_cons_self)
    change (p.advance c).behind t = _
    rw [ih fun ht => h (List.mem_cons_of_mem c ht), advance, if_neg hc, List.length_cons]
    simp only [Position.mk.injEq, true_and]
    omega

theorem column_behind_le (p : Position) (t : Text) : (p.behind t).column ≤ p.column + t.length := by
  induction t generalizing p with
  | nil => exact Nat.le_refl _
  | cons c t ih =>
    refine (ih (p.advance c)).trans ?_
    rw [advance, List.length_cons]
    split
    · dsimp only
      omega
    · dsimp only
      omega

theorem line_le_behind (p : Position) (t : Text) : p.line ≤ (p.behind t).line := by
  induction t generalizing p with
  | nil => exact Nat.le_refl _
  | cons c t ih =>
    refine Nat.le_trans ?_ (ih (p.advance c))
    rw [advance]
    split <;> simp

theorem lf_not_mem_of_line {p : Position} {t : Text} (h : (p.behind t).line = p.line) : '\n' ∉ t := by
  induction t generalizing p with
  | nil => exact List.not_mem_nil
  | cons c t ih =>
    have hle := line_le_behind (p.advance c) t
    change ((p.advance c).behind t).line = p.line at h
    by_cases hc : c = '\n'
    · rw [advance, if_pos hc] at h hle
      dsimp only at hle
      omega
    · rw [advance, if_neg hc] at h
      simpa [Ne.symm hc] using ih h

end Position

namespace Source

variable {lineEnd t : Text}

/-- The place in which a region starts. -/
def startOf (t : Text) (r : Region) : Position := .ofOffset t ((ofText t).spanOf r).start

/-- **Where a region starts** is told by the text in front of it, with the line ends that it has. -/
theorem startOf_withLineEnds (h : IsLineEnd lineEnd) (ht : HasPlainLines t) (r : Region) :
    startOf (Text.withLineEnds lineEnd t) r =
      Position.behind ⟨0, 0⟩ (Text.withLineEnds lineEnd (t.take (firstIndex t.length r))) := by
  have hsplit : Text.withLineEnds lineEnd t =
      Text.withLineEnds lineEnd (t.take (firstIndex t.length r)) ++
        Text.withLineEnds lineEnd (t.drop (firstIndex t.length r)) := by
    rw [← Text.withLineEnds_append, List.take_append_drop]
  rw [startOf, spanOf_start_withLineEnds h ht, Position.ofOffset, offsetWith]
  conv_lhs => rw [hsplit]
  exact Position.after_byteLength _ _ _

theorem startOf_eq (ht : HasPlainLines t) (r : Region) :
    startOf t r = Position.behind ⟨0, 0⟩ (t.take (firstIndex t.length r)) := by
  have h := startOf_withLineEnds .lf ht r
  rwa [Text.withLineEnds_lf, Text.withLineEnds_lf] at h

/-- **Carriage returns in front of line feeds** keep the place in which a region starts. -/
theorem startOf_crlf (ht : HasPlainLines t) (r : Region) :
    startOf (Text.withLineEnds ['\r', '\n'] t) r = startOf t r := by
  rw [startOf_withLineEnds .crlf ht, startOf_eq ht, Position.behind_crlf]

/-- **Line ends without line feeds** put all of a text in its first line. What was there keeps its column,
all else moves to the right or stays. -/
theorem column_startOf_lone (h : lineEnd = ['\r'] ∨ lineEnd = ['\x0c']) (ht : HasPlainLines t) (r : Region) :
    (startOf t r).column ≤ (startOf (Text.withLineEnds lineEnd t) r).column ∧
      ((startOf t r).line = 0 →
        (startOf (Text.withLineEnds lineEnd t) r).column = (startOf t r).column) := by
  have hlineEnd : IsLineEnd lineEnd := by rcases h with rfl | rfl <;> constructor
  have hlf : '\n' ∉ lineEnd := by rcases h with rfl | rfl <;> decide
  have hlength (u : Text) : (Text.withLineEnds lineEnd u).length = u.length := by
    induction u with
    | nil => rfl
    | cons c u ih =>
      rw [Text.withLineEnds_cons, List.length_append, ih, List.length_cons]
      rcases h with rfl | rfl <;> split <;> simp [Nat.add_comm]
  rw [startOf_withLineEnds hlineEnd ht, startOf_eq ht,
    Position.behind_of_not_mem (Text.lf_not_mem_withLineEnds hlf _), hlength]
  refine ⟨Position.column_behind_le _ _, fun hline => ?_⟩
  rw [Position.behind_of_not_mem (Position.lf_not_mem_of_line hline)]

end Source

end NestedCss
