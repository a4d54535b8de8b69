import NestedCss.Proofs.Stylesheet.Trailing

/-!
# Where declarations are split

The text of a statement is scanned in pieces, so that nothing in strings, brackets and interpolation ends
it. A declaration is split at the first colon of that text, whatever piece the colon is in.

* `Scanner.Piece`, `Scanner.pieces`: the text of a statement with what stands in something;
* `Scanner.splitOutside`: the split at the first colon outside;
* `Stylesheet.Gives`: what holds of all that a scanner gives;
* **`Stylesheet.scanStatement_splits`**: a declaration is split at the first colon outside if there is none
  inside in front of it, and in the midst of a piece otherwise.
-/

namespace NestedCss

namespace Scanner

/-! ## Pieces -/

/-- A piece of the text of a statement. It is inside if it is a string or an interpolation, or stands in
brackets. -/
structure Piece where
  text : Text
  inside : Bool
  deriving DecidableEq, Repr

variable {s rest : Text} {ps : List Piece}

/-- The text of pieces in a row. -/
def textOf (ps : List Piece) : Text := ps.flatMap Piece.text

@[simp] theorem textOf_cons (p : Piece) (ps : List Piece) : textOf (p :: ps) = p.text ++ textOf ps := rfl

/-- What was read of a statement's text when the brackets `closers` were still to come. -/
def pieceBehind (closers : List Char) (t : Text) : Piece :=
  ⟨t, !closers.isEmpty || t.head?.any isQuote || startsInterpolation t⟩

/-- One piece of a statement's text, as `statementPiece` reads it. -/
def pieceStep (closers : List Char) : Scanner (Option (List Piece × List Char)) := do
  return (← statementPiece closers).map fun (t, closers') => ([pieceBehind closers t], closers')

/-- The pieces of a statement's text. -/
def pieces : Scanner (List Piece) := do
  let (ps, closers) ← gather pieceStep []
  match closers with
  | [] => return ps
  | closer :: _ => failHere (.expected closer)

theorem statementPiece_eq (closers : List Char) : statementPiece closers =
    do return (← pieceStep closers).map fun (ps, closers') => (ps.flatMap Piece.text, closers') := by
  funext s
  rw [bind_apply, pieceStep, bind_apply]
  cases statementPiece closers s with
  | error => rfl
  | ok out s' =>
    cases out with
    | none => rfl
    | some out => simp [pure_apply, pieceBehind]

/-- **The text of a statement** is that of its pieces. -/
theorem statementText_eq : statementText = do return textOf (← pieces) := by
  funext s
  rw [statementText, gather_flatMap Piece.text statementPiece_eq, pieces]
  simp only [bind_apply]
  cases gather pieceStep [] s with
  | error => rfl
  | ok out s' =>
    obtain ⟨ps, closers⟩ := out
    cases closers <;> rfl

/-- A colon outside is a piece of its own, but for a backslash in front of it. -/
theorem eq_colon_of_mem_pieces (h : pieces s = .ok ps rest) :
    ∀ p ∈ ps, p.inside = false → ':' ∈ p.text → p.text = [':'] ∨ p.text = ['\\', ':'] := by
  obtain ⟨⟨ps', closers⟩, s', hgather, h⟩ := bind_eq_ok.mp h
  cases closers with
  | cons => cases h
  | nil =>
    cases h
    refine forall_mem_of_gather (fun closers s piece closers' rest hstep p hp hinside hcolon => ?_) hgather
    obtain ⟨out, hout, heq⟩ := bind_pure_eq_ok.mp hstep
    cases out with
    | none => cases heq
    | some out =>
      obtain ⟨t, closers''⟩ := out
      cases heq
      obtain rfl := List.mem_singleton.mp hp
      obtain ⟨raw, hraw, -⟩ := isPiece_of_statementPiece hout
      simp only [pieceBehind, Bool.or_eq_false_iff] at hinside hcolon ⊢
      cases hraw with
      | string hstring =>
        obtain ⟨q, body, rfl, hq⟩ := hstring.exists_eq_cons
        simp [hq] at hinside
      | interpolation hinterpolation =>
        have hstarts := hinterpolation.starts []
        rw [List.append_nil, hinside.2] at hstarts
        cases hstarts
      | loud | silent | backslash => simp at hcolon
      | escaped c => simpa [eq_comm] using hcolon
      | single => simpa [eq_comm] using hcolon

/-! ## Splitting -/

/-- The text in front of the first colon outside and the text behind it. -/
def splitOutside : List Piece → Option (Text × Text)
  | [] => none
  | p :: ps =>
    if p.inside = false ∧ ':' ∈ p.text then Text.splitAtFirst ':' (p.text ++ textOf ps)
    else (splitOutside ps).map fun (front, back) => (p.text ++ front, back)

variable {before after : List Piece} {p : Piece} {front back name value : Text}

/-- Pieces without a colon in front have no part in the split. -/
theorem splitOutside_append (h : ∀ q ∈ before, ':' ∉ q.text) (ps : List Piece) :
    splitOutside (before ++ ps) =
      (splitOutside ps).map fun (front, back) => (textOf before ++ front, back) := by
  induction before with
  | nil => simp [textOf]
  | cons q before ih =>
    obtain ⟨hq, hbefore⟩ := List.forall_mem_cons.mp h
    rw [List.cons_append, splitOutside, if_neg fun hsplit => hq hsplit.2, ih hbefore, Option.map_map]
    simp [Function.comp_def]

/-- The split at the first colon of the text, in the first piece that has one. -/
theorem exists_first_colon (h : Text.splitAtFirst ':' (textOf ps) = some (front, back)) :
    ∃ before p after name value, ps = before ++ p :: after ∧ (∀ q ∈ before, ':' ∉ q.text) ∧
      Text.splitAtFirst ':' p.text = some (name, value) ∧ front = textOf before ++ name ∧
      back = value ++ textOf after := by
  induction ps generalizing front with
  | nil => cases h
  | cons q ps ih =>
    rw [textOf_cons] at h
    cases hq : Text.splitAtFirst ':' q.text with
    | some split =>
      obtain ⟨name, value⟩ := split
      rw [Text.splitAtFirst_append hq] at h
      cases h
      exact ⟨[], q, ps, _, _, rfl, by simp, hq, rfl, rfl⟩
    | none =>
      have hcolon := Text.splitAtFirst_eq_none_iff.mp hq
      rw [Text.splitAtFirst_append_of_not_mem hcolon, Option.map_eq_some_iff] at h
      obtain ⟨⟨front', back'⟩, hsplit, heq⟩ := h
      cases heq
      obtain ⟨before, p, after, name, value, rfl, hbefore, hp, rfl, rfl⟩ := ih hsplit
      refine ⟨q :: before, p, after, name, value, rfl, ?_, hp, by simp, rfl⟩
      exact List.forall_mem_cons.mpr ⟨hcolon, hbefore⟩

/-- The two splits are the same iff the first colon is outside. -/
theorem splitOutside_eq_iff (hbefore : ∀ q ∈ before, ':' ∉ q.text)
    (hp : Text.splitAtFirst ':' p.text = some (name, value)) :
    splitOutside (before ++ p :: after) = some (textOf before ++ name, value ++ textOf after) ↔
      p.inside = false := by
  rw [splitOutside_append hbefore, Option.map_eq_some_iff]
  obtain ⟨-, htext⟩ := Text.splitAtFirst_eq_some_iff.mp hp
  constructor
  · rintro ⟨⟨front, back⟩, hsplit, heq⟩
    -- a split in a later piece has all of `p` in front of it
    by_contra hinside
    obtain ⟨hfront, -⟩ := Prod.mk.inj heq
    rw [splitOutside, if_neg fun h => hinside h.1, Option.map_eq_some_iff] at hsplit
    obtain ⟨⟨front', back'⟩, -, heq'⟩ := hsplit
    cases heq'
    have hlength := congrArg List.length (List.append_cancel_left hfront)
    rw [htext, List.length_append, List.length_append, List.length_cons] at hlength
    omega
  · intro hinside
    refine ⟨(name, value ++ textOf after), ?_, rfl⟩
    rw [splitOutside, if_pos ⟨hinside, by simp [htext]⟩]
    exact Text.splitAtFirst_append hp _

end Scanner

/-- Whether the statement is a declaration. -/
def Stmt.isDeclaration : Stmt → Bool
  | .declaration .. => true
  | _ => false

namespace Stylesheet

open Scanner

variable {α β : Type} {s rest : Text} {block : Scanner (List Stmt)} {dialect : Dialect} {stmts : List Stmt}

/-! ## What scanners give -/

/-- Whatever the scanner gives satisfies `P`. -/
def Gives (P : α → Prop) (x : Scanner α) : Prop := ∀ ⦃s : Text⦄ ⦃a : α⦄ ⦃rest : Text⦄, x s = .ok a rest → P a

namespace Gives

variable {P : α → Prop} {Q : β → Prop} {x y : Scanner α} {f : α → Scanner β}

protected theorem pure {a : α} (h : P a) : Gives P (pure a) := by
  intro s b rest hb
  cases hb
  exact h

theorem bind (hf : ∀ a, Gives Q (f a)) : Gives Q (x >>= f) := by
  intro s b rest h
  obtain ⟨a, s', -, hb⟩ := bind_eq_ok.mp h
  exact hf a hb

theorem ite {c : Prop} [Decidable c] (hx : Gives P x) (hy : Gives P y) : Gives P (if c then x else y) := by
  split
  · exact hx
  · exact hy

theorem guard {c : Prop} [Decidable c] {fault : Scanner Unit} {k : Unit → Scanner β} (hk : Gives Q (k ())) :
    Gives Q (if c then fault >>= k else k ()) :=
  ite (bind fun _ => hk) hk

/-- A single statement. -/
theorem singleton {x : Scanner Stmt} (hx : Gives (fun stmt => stmt.isDeclaration = false) x) :
    Gives (fun stmts => ∀ stmt ∈ stmts, stmt.isDeclaration = false) (do return [← x]) := by
  intro s stmts rest h
  obtain ⟨stmt, hstmt, rfl⟩ := bind_pure_eq_ok.mp h
  exact List.forall_mem_singleton.mpr (hx hstmt)

end Gives

/-! ## Declarations -/

theorem gives_scanRule (block : Scanner (List Stmt)) (selector : Text) (start : Nat) :
    Gives (fun stmt => stmt.isDeclaration = false) (scanRule block selector start) :=
  .bind fun _ => .guard <| .bind fun _ => .bind fun _ => .pure rfl

theorem gives_scanMedia (block : Scanner (List Stmt)) (start : Nat) :
    Gives (fun stmt => stmt.isDeclaration = false) (scanMedia block start) :=
  .bind fun _ => .guard <| .bind fun _ => .bind fun _ => .pure rfl

theorem gives_scanOtherAtRule (block : Scanner (List Stmt)) (name : Text) (start : Nat) :
    Gives (fun stmt => stmt.isDeclaration = false) (scanOtherAtRule block name start) :=
  .bind fun _ => .bind fun _ => .ite (.bind fun _ => .bind fun _ => .pure rfl)
    (.bind fun _ => .bind fun _ => .pure rfl)

theorem gives_scanExtend (start : Nat) :
    Gives (fun stmt => stmt.isDeclaration = false) (scanExtend start) :=
  .bind fun _ => .guard <| .bind fun _ => .bind fun _ => .pure rfl

theorem gives_scanAtRoot (block : Scanner (List Stmt)) (start : Nat) :
    Gives (fun stmt => stmt.isDeclaration = false) (scanAtRoot block start) :=
  .bind fun _ => .guard <| .bind fun _ => .ite (.bind fun _ => .bind fun _ => .pure rfl) <|
    .bind fun _ => .bind fun _ => .bind fun _ => .guard <| .bind fun _ => .bind fun _ => .pure rfl

/-- At-rules are no declarations, whatever is in their blocks. -/
theorem gives_scanScssAtRule (block : Scanner (List Stmt)) :
    Gives (fun stmts => ∀ stmt ∈ stmts, stmt.isDeclaration = false) (scanScssAtRule block) := by
  refine .bind fun start => .bind fun name => .ite (.bind fun _ => .bind fun _ => ?_) ?_
  -- the same statements with and without the check in front of them
  all_goals
    refine .ite (gives_scanAtRoot block start).singleton <| .ite (gives_scanExtend start).singleton <|
      .ite (gives_scanMedia block start).singleton ?_
    split
    · exact .bind fun _ => .pure (List.forall_mem_singleton.mpr rfl)
    · exact (gives_scanOtherAtRule block name start).singleton

theorem gives_scanLessAtRule (block : Scanner (List Stmt)) :
    Gives (fun stmts => ∀ stmt ∈ stmts, stmt.isDeclaration = false) (scanLessAtRule block) :=
  .bind fun start => .bind fun name => .bind fun _ =>
    .ite (.bind fun _ => .pure (List.forall_mem_nil _)) <|
    .ite (gives_scanMedia block start).singleton (gives_scanOtherAtRule block name start).singleton

/-- An extend of LESS is given as such, or the scanner goes back to where it started. -/
theorem eq_of_scanExtendDeclaration {out : Option Stmt} (h : scanExtendDeclaration s = .ok out rest) :
    (out = none ∧ rest = s) ∨ ∃ targets region, out = some (.extend .less targets region) := by
  obtain ⟨-, hout, hrest⟩ | ⟨targets, t, hbalanced, hs⟩ := exists_of_scanExtendDeclaration h
  · exact .inl ⟨hout, hrest⟩
  · rw [scanExtendDeclaration_apply hbalanced hs] at h
    split at h
    · cases h
      exact .inr ⟨_, _, rfl⟩
    · cases h
      exact .inl ⟨rfl, rfl⟩

variable {property value : Text} {region : Region}

/-- The text of a declaration is split at its first colon. -/
theorem exists_of_scanDeclaration {text : Text} {region' : Region}
    (h : scanDeclaration text region' s = .ok (.declaration property value region) rest) :
    ∃ front back, Text.splitAtFirst ':' text = some (front, back) ∧ property = Text.trim front ∧
      value = Text.collapse back := by
  rw [scanDeclaration] at h
  cases hsplit : Text.splitAtFirst ':' text with
  | none =>
    rw [hsplit] at h
    cases h
  | some split =>
    obtain ⟨front, back⟩ := split
    have hgives : Gives (fun stmt => ∀ property value region, stmt = .declaration property value region →
        property = Text.trim front ∧ value = Text.collapse back) (scanDeclaration text region') := by
      rw [scanDeclaration, hsplit]
      refine .guard <| .guard <| .bind fun _ => .pure fun _ _ _ heq => ?_
      cases heq
      exact ⟨rfl, rfl⟩
    exact ⟨front, back, rfl, hgives h _ _ _ rfl⟩

theorem exists_of_scanDeclarationOrRule
    (h : scanDeclarationOrRule dialect block s = .ok (.declaration property value region) rest) :
    ∃ text s' front back, statementText s = .ok text s' ∧
      Text.splitAtFirst ':' text = some (front, back) ∧ property = Text.trim front ∧
      value = Text.collapse back := by
  rw [scanDeclarationOrRule, mark_bind] at h
  obtain ⟨text, s', htext, h⟩ := bind_eq_ok.mp h
  rw [nextIs_bind] at h
  split at h
  · cases gives_scanRule block _ _ h
  · rw [regionFrom_bind] at h
    split at h
    · cases h
    · obtain ⟨front, back, hsplit, hdeclaration⟩ := exists_of_scanDeclaration h
      exact ⟨text, s', front, back, htext, hsplit, hdeclaration⟩

/-- A declaration is read as such from the start of a statement. -/
theorem exists_scanDeclarationOrRule (h : scanStatement dialect block s = .ok stmts rest)
    (hmem : .declaration property value region ∈ stmts) : ∃ rest',
      scanDeclarationOrRule dialect block s = .ok (.declaration property value region) rest' := by
  have hnot {stmts : List Stmt} (hstmts : ∀ stmt ∈ stmts, stmt.isDeclaration = false) :
      .declaration property value region ∉ stmts := fun hmem => nomatch hstmts _ hmem
  have hone {s : Text} (h : (do return [← scanDeclarationOrRule dialect block] : Scanner _) s =
      .ok stmts rest) : ∃ rest',
        scanDeclarationOrRule dialect block s = .ok (.declaration property value region) rest' := by
    obtain ⟨stmt, hstmt, rfl⟩ := bind_pure_eq_ok.mp h
    cases List.mem_singleton.mp hmem
    exact ⟨rest, hstmt⟩
  cases dialect with
  | scss =>
    change scanScssStatement block s = _ at h
    rw [scanScssStatement, nextIs_bind, bind_of_ok (atInterpolation_apply _)] at h
    split at h
    · exact absurd hmem (hnot (gives_scanScssAtRule block h))
    · rw [nextIs_bind] at h
      split at h
      · obtain ⟨_, _, -, h⟩ := bind_eq_ok.mp h
        cases h
        cases hmem
      · exact hone h
  | less =>
    change scanLessStatement block s = _ at h
    rw [scanLessStatement, nextIs_bind, bind_of_ok (atInterpolation_apply _)] at h
    split at h
    · exact absurd hmem (hnot (gives_scanLessAtRule block h))
    · obtain ⟨out, s', hout, hread⟩ := bind_eq_ok.mp h
      obtain ⟨rfl, rfl⟩ | ⟨targets, region', rfl⟩ := eq_of_scanExtendDeclaration hout
      · exact hone hread
      · cases hread
        cases List.mem_singleton.mp hmem

/-- **A declaration is split at the first colon** of its text. This is the first one outside of strings,
brackets and interpolation iff the piece `p` that it is in is outside. Then it is all of that piece, maybe
behind a backslash, so every other piece is in the name or in the value as a whole. -/
theorem scanStatement_splits (h : scanStatement dialect block s = .ok stmts rest)
    (hmem : .declaration property value region ∈ stmts) :
    ∃ before p after name back s', pieces s = .ok (before ++ p :: after) s' ∧
      (∀ q ∈ before, ':' ∉ q.text) ∧ Text.splitAtFirst ':' p.text = some (name, back) ∧
      property = Text.trim (textOf before ++ name) ∧ value = Text.collapse (back ++ textOf after) ∧
      (splitOutside (before ++ p :: after) = some (textOf before ++ name, back ++ textOf after) ↔
        p.inside = false) ∧
      (p.inside = false → (name = [] ∨ name = ['\\']) ∧ back = []) := by
  obtain ⟨rest', hread⟩ := exists_scanDeclarationOrRule h hmem
  obtain ⟨text, s', front, back, htext, hsplit, rfl, rfl⟩ := exists_of_scanDeclarationOrRule hread
  rw [statementText_eq] at htext
  obtain ⟨ps, hps, rfl⟩ := bind_pure_eq_ok.mp htext
  obtain ⟨before, p, after, name, back, rfl, hbefore, hp, rfl, rfl⟩ := exists_first_colon hsplit
  refine ⟨before, p, after, name, back, s', hps, hbefore, hp, rfl, rfl, splitOutside_eq_iff hbefore hp,
    fun hinside => ?_⟩
  have hcolon : ':' ∈ p.text := by
    rw [(Text.splitAtFirst_eq_some_iff.mp hp).2]
    simp
  obtain htext | htext := eq_colon_of_mem_pieces hps p (by simp) hinside hcolon
  · rw [htext] at hp
    cases hp
    exact ⟨.inl rfl, rfl⟩
  · rw [htext] at hp
    cases hp
    exact ⟨.inr rfl, rfl⟩

/-- `#{$a}-c: d` is split outside. -/
theorem scanStatement_splits_interpolation : ∃ ps s' front back,
    pieces "#\x7b$a\x7d-c: d;".toList = .ok ps s' ∧ splitOutside ps = some (front, back) ∧
      "#\x7b$a\x7d-c".toList = Text.trim front ∧ ['d'] = Text.collapse back := by
  have hread : scanStatement .scss (scanBlock .scss) "#\x7b$a\x7d-c: d;".toList =
      .ok [.declaration "#\x7b$a\x7d-c".toList ['d'] ⟨11, 1⟩] [] := by with_unfolding_all rfl
  have hpieces : pieces "#\x7b$a\x7d-c: d;".toList = .ok [⟨"#\x7b$a\x7d".toList, true⟩, ⟨['-'], false⟩,
      ⟨['c'], false⟩, ⟨[':'], false⟩, ⟨[' '], false⟩, ⟨['d'], false⟩] [';'] := by with_unfolding_all rfl
  obtain ⟨before, p, after, name, back, s', hps, -, hp, hproperty, hvalue, hsplit, -⟩ :=
    scanStatement_splits hread List.mem_cons_self
  have hcolon : ':' ∈ p.text := by
    rw [(Text.splitAtFirst_eq_some_iff.mp hp).2]
    simp
  have houtside : ∀ q ∈ before ++ p :: after, ':' ∈ q.text → q.inside = false := by
    injection hpieces.symm.trans hps with heq
    rw [← heq]
    decide
  exact ⟨_, s', _, _, hps, hsplit.mpr (houtside p (by simp) hcolon), hproperty, hvalue⟩

/-- The interpolation of `a#{b:c}: d` is cut in two. -/
theorem not_scanStatement_splits :
    ¬ ∀ (dialect : Dialect) (s rest s' : Text) (stmts : List Stmt) (property value : Text) (region : Region)
      (ps : List Piece), scanStatement dialect (scanBlock dialect) s = .ok stmts rest →
      .declaration property value region ∈ stmts → pieces s = .ok ps s' →
      ∃ front back, splitOutside ps = some (front, back) ∧ property = Text.trim front ∧
        value = Text.collapse back := by
  intro h
  have hread : scanStatement .scss (scanBlock .scss) "a#\x7bb:c\x7d: d;".toList =
      .ok [.declaration "a#\x7bb".toList "c\x7d: d".toList ⟨11, 1⟩] [] := by with_unfolding_all rfl
  have hpieces : pieces "a#\x7bb:c\x7d: d;".toList = .ok [⟨['a'], false⟩, ⟨"#\x7bb:c\x7d".toList, true⟩,
      ⟨[':'], false⟩, ⟨[' '], false⟩, ⟨['d'], false⟩] [';'] := by with_unfolding_all rfl
  obtain ⟨front, back, hsplit, hproperty, -⟩ := h .scss _ _ _ _ _ _ _ _ hread List.mem_cons_self hpieces
  cases hsplit
  exact absurd hproperty (by decide)

end Stylesheet

end NestedCss
