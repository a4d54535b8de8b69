import NestedCss.Proofs.Source.Regions
import NestedCss.Proofs.Stylesheet.Shapes

/-!
# Statements behind each other and within each other

* `Stylesheet.Laid`, `Stylesheet.Nested`: statements in order, and a statement around those of its block;
* `Stylesheet.Reads.fits`: what one statement adds to that;
* `Stylesheet.Gathered`, `Stylesheet.fits_read`: bodies and stylesheets;
* `Stylesheet.IsBody`: the bodies of a stylesheet, at any depth;
* **`Stylesheet.spans_nested`**: the spans of statements are in order and within each other.
-/

namespace NestedCss.Stylesheet

open Scanner
open Source (ofText isPlaced_spanOf spanOf_before spanOf_initial spanOf_start_lt_stop spanOf_within)

variable {s s' rest t : Text} {block : Scanner (List Stmt)} {dialect : Dialect} {stmt : Stmt}
  {stmts more sheet body : List Stmt} {high low m n : Nat}

/-! ## The order of statements -/

/-- Statements behind each other, from where `high` characters are left to where `low` are. -/
structure Laid (high low : Nat) (stmts : List Stmt) : Prop where
  ordered : stmts.Pairwise fun a b => a.region.Before b.region
  bounded : ∀ stmt ∈ stmts, stmt.region.first ≤ high ∧ low ≤ stmt.region.final

/-- A statement around those of its block, at any depth. The selector list of a style rule is its start. -/
inductive Nested : Stmt → Prop
  | intro {stmt : Stmt}
      (prelude : ∀ r ∈ stmt.prelude?, r.start = stmt.region.start ∧ r.stop < r.start ∧ stmt.region.stop < r.stop)
      (laid : Laid stmt.region.first stmt.region.final stmt.body)
      (nested : ∀ inner ∈ stmt.body, Nested inner) : Nested stmt

/-- Statements behind each other, each of them around those of its block. -/
structure Fits (high low : Nat) (stmts : List Stmt) : Prop extends Laid high low stmts where
  nested : ∀ stmt ∈ stmts, Nested stmt

namespace Fits

protected theorem nil : Fits high low [] := ⟨⟨.nil, by simp⟩, by simp⟩

theorem mono (h : Fits m n stmts) (hhigh : m ≤ high) (hlow : low ≤ n) : Fits high low stmts :=
  ⟨⟨h.ordered, fun stmt hstmt =>
    (h.bounded stmt hstmt).imp (·.trans hhigh) (Nat.le_trans hlow)⟩, h.nested⟩

protected theorem append (h : Fits high m stmts) (hmore : Fits n low more) (hn : n < m) (hhigh : n ≤ high)
    (hlow : low ≤ m) : Fits high low (stmts ++ more) where
  ordered := by
    refine List.pairwise_append.mpr ⟨h.ordered, hmore.ordered, fun a ha b hb => ?_⟩
    have hfinal : m ≤ a.region.final := (h.bounded a ha).2
    have hfirst : b.region.first ≤ n := (hmore.bounded b hb).1
    exact Nat.lt_of_le_of_lt hfirst (Nat.lt_of_lt_of_le hn hfinal)
  bounded := List.forall_mem_append.mpr
    ⟨(h.mono le_rfl hlow).bounded, (hmore.mono hhigh le_rfl).bounded⟩
  nested := List.forall_mem_append.mpr ⟨h.nested, hmore.nested⟩

/-- A statement without a block may stand anywhere. -/
theorem single (hbody : stmt.body = []) (hprelude : stmt.prelude? = none) (hhigh : stmt.region.first ≤ high)
    (hlow : low ≤ stmt.region.final) : Fits high low [stmt] := by
  have hnested : Nested stmt := .intro (by simp [hprelude]) (by rw [hbody]; exact Fits.nil.toLaid) (by simp [hbody])
  exact ⟨⟨List.pairwise_singleton _ _, by simp [hhigh, hlow]⟩, by simp [hnested]⟩

/-- A statement with a block that fits into its region. -/
theorem around (hregion : stmt.region = ⟨m, n⟩) (hlt : n < m) (hbody : Fits m (n + 1) stmt.body)
    (hprelude : ∀ r ∈ stmt.prelude?, r.start = m ∧ r.stop < m ∧ n < r.stop) : Fits m (n + 1) [stmt] := by
  have hfirst : stmt.region.first = m := by rw [hregion]; exact Region.first_of_lt hlt
  have hfinal : stmt.region.final = n + 1 := by rw [hregion]; exact Region.final_of_lt hlt
  have hnested : Nested stmt := by
    refine .intro (fun r hr => ?_) (by rw [hfirst, hfinal]; exact hbody.toLaid) hbody.nested
    obtain ⟨rfl, hstop⟩ := hprelude r hr
    rw [hregion]
    exact ⟨rfl, hstop⟩
  exact ⟨⟨List.pairwise_singleton _ _, by simp [hfirst, hfinal]⟩, by simp [hnested]⟩

theorem rule {k : Nat} (selector : Text) (hk : k < m) (hn : n < k) (hbody : Fits k (n + 1) body) :
    Fits m (n + 1) [.rule selector ⟨m, k⟩ ⟨m, n⟩ body] :=
  .around rfl (hn.trans hk) (hbody.mono hk.le le_rfl) (by simp [Stmt.prelude?, hk, hn])

end Fits

/-! ## Statements -/

/-- The block takes at least its brace, and its statements stand in front of the brace that closes it. -/
def Lays (block : Scanner (List Stmt)) : Prop :=
  ∀ ⦃s : Text⦄ ⦃stmts : List Stmt⦄ ⦃rest : Text⦄, block s = .ok stmts rest →
    rest.length < s.length ∧ Fits s.length (rest.length + 1) stmts

/-- No statement stands in front of what comes next. -/
def ClosesBody (s : Text) : Prop := ∀ c ∈ s.head?, c = '}'

theorem closesBody_of_separator {u : Unit} (h : separator s = .ok u rest) :
    ClosesBody rest ∨ rest.length < s.length := by
  rw [separator, blanks, skipWhile_bind, peek_bind] at h
  have hle : (s.dropWhile isBlank).length ≤ s.length := (List.dropWhile_suffix isBlank).length_le
  generalize s.dropWhile isBlank = s' at h hle
  cases s' with
  | nil =>
    cases h
    exact .inl (by simp [ClosesBody])
  | cons c s' =>
    by_cases hbrace : c = '}'
    · subst hbrace
      cases h
      exact .inl (by simp [ClosesBody])
    · simp only [List.head?_cons] at h
      obtain ⟨rfl, rfl⟩ := List.cons.inj (expectChar_eq_ok.mp h)
      exact .inr hle

/-- **What is read as one statement is laid out in order.** Only a message may go up to what comes next, and then
that closes the body. -/
theorem Reads.fits (hblock : Lays block) (h : Reads block s stmts rest) :
    Fits s.length (rest.length + 1) stmts ∨ ClosesBody rest ∧ Fits s.length rest.length stmts := by
  cases h with
  | nothing => exact .inl .nil
  | plain hbody hprelude hregion hle hlt =>
    refine .inl (.single hbody hprelude ?_ ?_)
    · rw [hregion, Region.first_of_lt hlt]
    · rw [hregion, Region.final_of_lt hlt]
      exact Nat.succ_le_succ hle
  | @message _ _ _ s' s'' _ hlt hle hseparator =>
    have hrest : rest.length ≤ s''.length := (Consumes.separator hseparator).length_le
    have hfirst : (⟨s'.length, s''.length⟩ : Region).first ≤ s.length := by
      simp only [Region.first]
      omega
    rcases closesBody_of_separator hseparator with hcloses | hsemicolon
    · refine .inr ⟨hcloses, .single rfl rfl hfirst ?_⟩
      simp only [Stmt.region, Region.final]
      omega
    · refine .inl (.single rfl rfl hfirst ?_)
      simp only [Stmt.region, Region.final]
      omega
  | atRule hprelude hregion hlt hbody =>
    obtain ⟨hrest, hfits⟩ := hblock hbody
    exact .inl (.around hregion (hrest.trans hlt) (hfits.mono hlt.le le_rfl) (by simp [hprelude]))
  | rule hlt hbody =>
    obtain ⟨hrest, hfits⟩ := hblock hbody
    exact .inl (.rule _ hlt hrest hfits)
  | atRoot hlt hlt' hbody =>
    obtain ⟨hrest, hfits⟩ := hblock hbody
    exact .inl (.around rfl ((hrest.trans hlt').trans hlt) ((Fits.rule _ hlt' hrest hfits).mono hlt.le le_rfl)
      (by simp [Stmt.prelude?]))

/-! ## Bodies -/

theorem scanItem_of_closesBody {inBlock : Bool} {out : Option (List Stmt)} (hs : ClosesBody s)
    (h : scanItem dialect block inBlock s = .ok out rest) : out = none := by
  cases s with
  | nil => cases inBlock <;> cases h; rfl
  | cons c s =>
    obtain rfl := hs c rfl
    cases inBlock <;> cases h
    rfl

/-- A body in front of `rest`, and in a block in front of the brace that closes it. Where nothing else can
stand there is nothing: a message without a separator is the last statement. -/
structure Gathered (inBlock : Bool) (s : Text) (stmts : List Stmt) (rest : Text) : Prop where
  length_le : rest.length + inBlock.toNat ≤ s.length
  fits : Fits s.length (rest.length + inBlock.toNat) stmts
  eq_nil : ClosesBody s → stmts = []

theorem gathered_of_gatherAll (hconsumes : Consumes block) (hblock : Lays block) {inBlock : Bool}
    (h : gatherAll (scanItem dialect block inBlock) s = .ok stmts rest) : Gathered inBlock s stmts rest := by
  have hblanks (s : Text) : (s.dropWhile isBlank).length ≤ s.length := (List.dropWhile_suffix isBlank).length_le
  have hitem {s rest : Text} {stmts : List Stmt} (h : scanItem dialect block inBlock s = .ok (some stmts) rest) :
      Reads block (s.dropWhile isBlank) stmts rest := by
    obtain ⟨hnone, -⟩ | ⟨_, hsome, hreads⟩ := reads_scanItem hconsumes h
    · cases hnone
    · cases hsome
      exact hreads
  refine gatherAll_induction (motive := Gathered inBlock) ?stop ?stuck ?next h
  case stop =>
    intro s rest hnone
    obtain ⟨-, hle, -⟩ | ⟨_, hsome, -⟩ := reads_scanItem hconsumes hnone
    · exact ⟨hle, .nil, fun _ => rfl⟩
    · cases hsome
  case stuck =>
    intro s piece rest hsome hstuck
    exact absurd (length_lt_of_scanItem hconsumes hsome) hstuck
  case next =>
    intro s piece s' more rest hsome hlt _ ih
    refine ⟨ih.length_le.trans hlt.le, ?_, fun hs => nomatch scanItem_of_closesBody hs hsome⟩
    -- either the statement ends in front of `s'`, or there is nothing to come from `s'` on
    rcases (hitem hsome).fits hblock with hpiece | ⟨hs', hpiece⟩
    · exact (hpiece.mono (hblanks s) le_rfl).append ih.fits (Nat.lt_succ_self _) hlt.le
        (ih.length_le.trans (Nat.le_succ _))
    · rw [ih.eq_nil hs', List.append_nil]
      exact hpiece.mono (hblanks s) ih.length_le

theorem lays_scanBlockTo (dialect : Dialect) (depth : Nat) : Lays (scanBlockTo dialect depth) := by
  induction depth with
  | zero =>
    intro s stmts rest h
    obtain ⟨_, s', hbrace, h⟩ := bind_eq_ok.mp h
    obtain rfl := expectChar_eq_ok.mp hbrace
    cases h
    exact ⟨Nat.lt_succ_self _, .nil⟩
  | succ depth ih =>
    intro s stmts rest h
    obtain ⟨_, s', hbrace, h⟩ := bind_eq_ok.mp h
    obtain rfl := expectChar_eq_ok.mp hbrace
    have hbody := gathered_of_gatherAll (finds_scanBlockTo dialect depth).consumes ih h
    exact ⟨Nat.lt_succ_of_lt hbody.length_le, hbody.fits.mono (Nat.le_succ _) le_rfl⟩

theorem lays_scanBlock (dialect : Dialect) : Lays (scanBlock dialect) :=
  fun s _ _ h => lays_scanBlockTo dialect s.length h

theorem fits_scan (h : scan dialect s = .ok sheet rest) : Fits s.length 0 sheet := by
  obtain ⟨_, s', hmark, h⟩ := bind_eq_ok.mp h
  have hs' : s' <:+ s := (Consumes.scanChar _).discard hmark
  have hbody := gathered_of_gatherAll (finds_scanBlock dialect).consumes (lays_scanBlock dialect) h
  exact hbody.fits.mono hs'.length_le (Nat.zero_le _)

/-- **Every sheet that is read** fits in the tokens of its source. -/
theorem fits_read (h : read dialect (ofText t) = .ok sheet) : Fits (ofText t).size 0 sheet := by
  unfold read at h
  split at h
  · next hscan =>
    cases h
    simpa [Source.chars, Source.size] using fits_scan hscan
  · cases h

/-! ## Spans -/

/-- The bodies of a stylesheet: all of it, and the blocks of the statements in its bodies. -/
inductive IsBody (sheet : List Stmt) : List Stmt → Prop
  | sheet : IsBody sheet sheet
  | block {body : List Stmt} {stmt : Stmt} : IsBody sheet body → stmt ∈ body → IsBody sheet stmt.body

theorem Fits.of_isBody (h : Fits high low sheet) (hbody : IsBody sheet body) : Fits high low body := by
  induction hbody with
  | sheet => exact h
  | @block body stmt _ hstmt ih =>
    obtain ⟨hhigh, hlow⟩ := ih.bounded stmt hstmt
    obtain ⟨-, hlaid, hnested⟩ := ih.nested stmt hstmt
    exact Fits.mono ⟨hlaid, hnested⟩ hhigh hlow

/-- **The spans of statements are well nested.** In each body they stand behind each other, and each holds the
spans of all statements further in. The selector list of a style rule stands at its start. -/
theorem spans_nested (h : read dialect (ofText t) = .ok sheet) (hbody : IsBody sheet body) :
    body.Pairwise (fun a b => ((ofText t).spanOf a.region).Before ((ofText t).spanOf b.region)) ∧
      ∀ stmt ∈ body, ((ofText t).spanOf stmt.region).IsPlaced t ∧
        ((ofText t).spanOf stmt.region).start < ((ofText t).spanOf stmt.region).stop ∧
        (∀ block, IsBody stmt.body block → ∀ inner ∈ block,
          ((ofText t).spanOf inner.region).Within ((ofText t).spanOf stmt.region)) ∧
        ∀ r ∈ stmt.prelude?, ((ofText t).spanOf r).IsPlaced t ∧
          ((ofText t).spanOf r).start = ((ofText t).spanOf stmt.region).start ∧
          ((ofText t).spanOf r).start < ((ofText t).spanOf r).stop ∧
          ((ofText t).spanOf r).stop < ((ofText t).spanOf stmt.region).stop := by
  have hfits : Fits (ofText t).size 0 body := (fits_read h).of_isBody hbody
  have hfirst : ∀ stmt ∈ body, stmt.region.first ≤ (ofText t).size := fun stmt hstmt =>
    (hfits.bounded stmt hstmt).1
  refine ⟨hfits.ordered.imp_of_mem fun ha _ hbefore => spanOf_before hbefore (hfirst _ ha), fun stmt hstmt => ?_⟩
  obtain ⟨hprelude, hlaid, hnested⟩ := hfits.nested stmt hstmt
  refine ⟨isPlaced_spanOf t _, spanOf_start_lt_stop (hfirst stmt hstmt), fun block hblock inner hinner => ?_,
    fun r hr => ?_⟩
  · have hinside : Fits stmt.region.first stmt.region.final stmt.body := ⟨hlaid, hnested⟩
    exact spanOf_within ((hinside.of_isBody hblock).bounded inner hinner) t
  · obtain ⟨hstart, hlt, hstop⟩ := hprelude r hr
    have hsize : r.first ≤ (ofText t).size := by
      refine Nat.le_trans ?_ (hfirst stmt hstmt)
      rw [Region.first_of_lt hlt, hstart]
      exact Nat.le_max_left _ _
    obtain ⟨hsame, hbefore⟩ := spanOf_initial hstart hstop hlt ((Region.first_of_lt hlt).symm.trans_le hsize)
    exact ⟨isPlaced_spanOf t r, hsame, spanOf_start_lt_stop hsize, hbefore⟩

/-- A style rule with a block of each kind in it, and with messages without a text. -/
def nestedText : Text := "é\r\n\x7b@media b\x7bc:d\x7d@at-root e\x7b@debug\x7d@debug;f:g\x7d".toList

/-- The statements in the style rule. -/
def nestedBody : List Stmt := ((read .scss (ofText nestedText)).toOption.getD []).flatMap Stmt.body

theorem spans_nested_nestedText :
    (∃ sheet, read .scss (ofText nestedText) = .ok sheet ∧ IsBody sheet nestedBody) ∧
      nestedBody.Pairwise (fun a b =>
        ((ofText nestedText).spanOf a.region).Before ((ofText nestedText).spanOf b.region)) ∧
      (nestedBody.map fun stmt => (ofText nestedText).spanOf stmt.region) =
        [⟨5, 18⟩, ⟨18, 36⟩, ⟨41, 43⟩, ⟨43, 46⟩] := by
  have hread : read .scss (ofText nestedText) = .ok ((read .scss (ofText nestedText)).toOption.getD []) :=
    read_of_isOk (by decide +kernel)
  obtain ⟨stmt, hstmt⟩ := List.length_eq_one_iff.mp
    (show ((read .scss (ofText nestedText)).toOption.getD []).length = 1 by decide +kernel)
  have hbody : IsBody ((read .scss (ofText nestedText)).toOption.getD []) nestedBody := by
    have hblock : nestedBody = stmt.body := by rw [nestedBody, hstmt, List.flatMap_singleton]
    rw [hblock, hstmt]
    exact .block .sheet List.mem_cons_self
  exact ⟨⟨_, hread, hbody⟩, (spans_nested hread hbody).1, by decide +kernel⟩

end NestedCss.Stylesheet
