import NestedCss.Compile
import NestedCss.Proofs.Flatten.Agree
import NestedCss.Proofs.Source.LineEnds

/-!
# What line ends change

A stylesheet compiles whichever line ends it is written with. The CSS is the same too, but for comments:
their lines are moved to the left by the column that the comment started in, and with line ends that are no
line feeds all columns are counted from the start of the file.

* `flatten_withLineEnds`: the flat statements differ in the columns of comments only;
* `Comment.KeepsMargin`: comments for which the column makes no difference;
* **`compile_withLineEnds`**: whether there is CSS, and when it is the same;
* `compile_withLineEnds_ne`: it is not always.
-/

namespace NestedCss

open Css (AllAlike WrittenAlike)

variable {lineEnd text : Text} {R : Text → ℕ → ℕ → Prop}

theorem Stylesheet.read_eq_ok {dialect : Dialect} {source source' : Source}
    (h : source.chars = source'.chars) {stmts : List Stmt} (hread : Stylesheet.read dialect source = .ok stmts) :
    Stylesheet.read dialect source' = .ok stmts := by
  unfold Stylesheet.read at hread ⊢
  rw [← h]
  split at hread
  · exact hread
  · cases hread

theorem columnOf_ofText (dialect : Dialect) (text : Text) (r : Region) :
    Flatten.Origin.columnOf ⟨dialect, text, .ofText text⟩ r = (Source.startOf text r).column := by
  rw [Flatten.Origin.columnOf, Flatten.Origin.spanOf, Source.startOf]

theorem flatten_of_unreadable {dialect : Dialect} {d : Diagnosis}
    (h : Stylesheet.read dialect (.ofText text) = .error d) : (flatten dialect text).2 = .error d := by
  unfold flatten
  simp only [h]

theorem flatten_of_read {dialect : Dialect} {stmts : List Stmt}
    (h : Stylesheet.read dialect (.ofText text) = .ok stmts) : (flatten dialect text).2 =
      match Flatten.addStmts ⟨dialect, text, .ofText text⟩ stmts {} (.initial dialect) with
      | .ok _ s => .ok s.finish
      | .error d _ => .error d := by
  unfold flatten
  simp only [h]
  generalize Flatten.addStmts _ stmts {} _ = result
  cases result <;> rfl

/-- The flat statements of a stylesheet with other line ends are the same but for the columns of comments,
if there are any at all. -/
theorem flatten_withLineEnds (h : IsLineEnd lineEnd) (ht : Source.HasPlainLines text) {dialect : Dialect}
    (hR : ∀ stmts, Stylesheet.read dialect (.ofText text) = .ok stmts → ∀ m ∈ allComments stmts,
      R m.text (Source.startOf text m.region).column
        (Source.startOf (Text.withLineEnds lineEnd text) m.region).column) :
    (∃ sheet sheet', (flatten dialect text).2 = .ok sheet ∧
        (flatten dialect (Text.withLineEnds lineEnd text)).2 = .ok sheet' ∧ AllAlike R sheet sheet') ∨
      ∃ d d', (flatten dialect text).2 = .error d ∧
        (flatten dialect (Text.withLineEnds lineEnd text)).2 = .error d' := by
  have hchars : (Source.ofText text).chars = (Source.ofText (Text.withLineEnds lineEnd text)).chars := by
    have hlf := Source.chars_withLineEnds .lf ht
    rw [Text.withLineEnds_lf] at hlf
    rw [hlf, Source.chars_withLineEnds h ht]
  cases hread : Stylesheet.read dialect (.ofText text) with
  | error d =>
    cases hread' : Stylesheet.read dialect (.ofText (Text.withLineEnds lineEnd text)) with
    | error d' => exact .inr ⟨d, d', flatten_of_unreadable hread, flatten_of_unreadable hread'⟩
    | ok stmts => cases hread.symm.trans (Stylesheet.read_eq_ok hchars.symm hread')
  | ok stmts =>
    have hagree : Flatten.Agree R (Flatten.addStmts ⟨dialect, text, .ofText text⟩ stmts {})
        (Flatten.addStmts ⟨dialect, Text.withLineEnds lineEnd text,
          .ofText (Text.withLineEnds lineEnd text)⟩ stmts {}) := by
      refine Flatten.agree_addStmts ?_ (fun m hm => ?_) {}
      · rfl
      · rw [columnOf_ofText, columnOf_ofText]
        exact hR stmts hread m hm
    rw [flatten_of_read hread, flatten_of_read (Stylesheet.read_eq_ok hchars hread)]
    obtain ⟨_, s, s', hs, hs', hstates⟩ | ⟨d, d', s, s', hs, hs'⟩ := hagree (Flatten.alike_initial dialect)
    · rw [hs, hs']
      exact .inl ⟨s.finish, s'.finish, rfl, rfl, hstates.finish⟩
    · rw [hs, hs']
      exact .inr ⟨d, d', rfl, rfl⟩

/-! ## Comments -/

/-- Whether no line of a comment but the first is indented further than a column. -/
def Comment.IsShallow (m : Comment) (column : ℕ) : Prop :=
  ∀ line ∈ (Text.lines m.text).tail,
    Text.byteLength line - Text.byteLength (Text.trimStart line) ≤ column

/-- Whether a comment of a text would be written in the same way if it had more in front of it: it stands
in the first line, or there is nothing left of the indentation of its lines. -/
def Comment.KeepsMargin (m : Comment) (text : Text) : Prop :=
  (Source.startOf text m.region).line = 0 ∨ m.IsShallow (Source.startOf text m.region).column

theorem Comment.IsShallow.writtenAlike {m : Comment} {column column' : ℕ} (h : m.IsShallow column)
    (hle : column ≤ column') : WrittenAlike m.text column column' := by
  unfold Comment.IsShallow at h
  unfold WrittenAlike Css.writeComment
  cases hlines : Text.lines m.text with
  | nil => rfl
  | cons first lines =>
    rw [hlines, List.tail_cons] at h
    have hmap : lines.map (Css.reindent column) = lines.map (Css.reindent column') := by
      refine List.map_congr_left fun line hline => ?_
      have hline := h line hline
      unfold Css.reindent
      dsimp only
      rw [Nat.sub_eq_zero_of_le hline, Nat.sub_eq_zero_of_le (hline.trans hle)]
    dsimp only
    rw [hmap]

theorem Comment.KeepsMargin.writtenAlike {m : Comment} (h : m.KeepsMargin text)
    (ht : Source.HasPlainLines text) (hlone : lineEnd = ['\r'] ∨ lineEnd = ['\x0c']) :
    WrittenAlike m.text (Source.startOf text m.region).column
      (Source.startOf (Text.withLineEnds lineEnd text) m.region).column := by
  obtain ⟨hle, hline⟩ := Source.column_startOf_lone hlone ht m.region
  rcases h with h | h
  · rw [hline h]
    rfl
  · exact h.writtenAlike hle

/-! ## Stylesheets -/

/-- **Whether there is CSS for a stylesheet does not depend on its line ends.** The CSS is the same with
carriage returns in front of line feeds. With other line ends it is if all comments keep their margin. -/
theorem compile_withLineEnds (h : IsLineEnd lineEnd) (ht : Source.HasPlainLines text) (options : Options)
    (fileName : Text) :
    (compile options fileName (Text.withLineEnds lineEnd text)).2.isOk =
        (compile options fileName text).2.isOk ∧
      ((lineEnd = ['\r', '\n'] ∨ ∀ stmts,
          Stylesheet.read (options.dialectFor fileName) (.ofText text) = .ok stmts →
            ∀ m ∈ allComments stmts, m.KeepsMargin text) →
        (compile options fileName (Text.withLineEnds lineEnd text)).2.toOption =
          (compile options fileName text).2.toOption) := by
  have hcompile (text : Text) : (compile options fileName text).2 =
      (flatten (options.dialectFor fileName) text).2.map
        (Css.writeSheet options.style options.charset) := rfl
  rw [hcompile, hcompile]
  constructor
  · obtain ⟨sheet, sheet', hok, hok', -⟩ | ⟨d, d', herror, herror'⟩ :=
      flatten_withLineEnds (R := fun _ _ _ => True) h ht fun _ _ _ _ => trivial
    · rw [hok, hok']
      rfl
    · rw [herror, herror']
      rfl
  · intro hmargins
    have hR : ∀ stmts, Stylesheet.read (options.dialectFor fileName) (.ofText text) = .ok stmts →
        ∀ m ∈ allComments stmts, WrittenAlike m.text (Source.startOf text m.region).column
          (Source.startOf (Text.withLineEnds lineEnd text) m.region).column := by
      intro stmts hread m hm
      rcases hmargins with rfl | hmargins
      · rw [Source.startOf_crlf ht]
        rfl
      · have hkeeps := hmargins stmts hread m hm
        cases h with
        | lf => rw [Text.withLineEnds_lf]; rfl
        | crlf => rw [Source.startOf_crlf ht]; rfl
        | cr => exact hkeeps.writtenAlike ht (.inl rfl)
        | ff => exact hkeeps.writtenAlike ht (.inr rfl)
    obtain ⟨sheet, sheet', hok, hok', halike⟩ | ⟨d, d', herror, herror'⟩ := flatten_withLineEnds h ht hR
    · rw [hok, hok']
      change some _ = some _
      rw [Css.writeSheet_eq_of_allAlike _ _ halike]
    · rw [herror, herror']
      rfl

/-- A comment in the second line that goes on in the third. -/
def deepComment : Text := "a \x7b\n  /* x\n     y */\n  b: c;\n\x7d".toList

theorem compile_withLineEnds_deepComment :
    (IsLineEnd ['\r', '\n'] ∧ Source.HasPlainLines deepComment) ∧
      (compile {} "a.scss".toList (Text.withLineEnds ['\r', '\n'] deepComment)).2.toOption =
        (compile {} "a.scss".toList deepComment).2.toOption :=
  have ht : Source.HasPlainLines deepComment := by decide
  ⟨⟨.crlf, ht⟩, (compile_withLineEnds .crlf ht {} _).2 (.inl rfl)⟩

/-- With line ends that are no line feeds, a comment can be written differently. -/
theorem compile_withLineEnds_ne :
    ¬ ∀ (lineEnd text : Text) (options : Options) (fileName : Text), IsLineEnd lineEnd →
      Source.HasPlainLines text →
      (compile options fileName (Text.withLineEnds lineEnd text)).2.toOption =
        (compile options fileName text).2.toOption := by
  intro h
  have heq := h ['\r'] deepComment {} "a.scss".toList .cr (by decide)
  revert heq
  decide +kernel

end NestedCss
