import NestedCss.Proofs.Source.Tokens
import NestedCss.Proofs.Stylesheet.Preludes
import NestedCss.Proofs.Stylesheet.Trailing

/-!
# What both dialects read

Variables, at-rules and extends are what the dialects differ in. A text without any of them is read by both,
statement by statement and up to the same end or the same fault, except that LESS refuses what could be a
call of a mixin.

* `Stylesheet.IsCommon`: texts without what the dialects differ in;
* `Stylesheet.Concur`: two scanners do the same in front of such a text, unless the first one finds a call of a
  mixin, with one lemma for each way to put scanners together;
* `Stylesheet.concur_scanBlockTo`: blocks, to any depth;
* **`Stylesheet.read_common`**: stylesheets.
-/

namespace NestedCss

/-! ## Line ends -/

section

variable {t u : Text} {offset : Nat}

/-- What is not in a text is not found by reading its line ends in another way, unless it holds one. -/
theorem Token.prefix_of_prefix_map_char (hu : '\n' ∉ u) (h : u <+: (list offset t).map char) : u <+: t := by
  fun_induction list offset t generalizing u with
  | case1 => exact h
  | case2 offset rest ih =>
    cases u with
    | nil => exact List.nil_prefix
    | cons d u =>
      obtain ⟨rfl, -⟩ := List.cons_prefix_cons.mp h
      exact absurd List.mem_cons_self hu
  | case3 offset c rest _ ih =>
    cases u with
    | nil => exact List.nil_prefix
    | cons d u =>
      rw [List.mem_cons, not_or] at hu
      obtain ⟨hd, hrest⟩ := List.cons_prefix_cons.mp h
      dsimp only at hd
      split at hd
      · exact absurd hd.symm hu.1
      · exact List.cons_prefix_cons.mpr ⟨hd, ih hu.2 hrest⟩

theorem Token.infix_of_infix_map_char (hu : '\n' ∉ u) (h : u <:+: (list offset t).map char) : u <:+: t := by
  fun_induction list offset t with
  | case1 => exact h
  | case2 offset rest ih =>
    rcases List.infix_cons_iff.mp h with h | h
    · have hprefix : u <+: (list offset ('\r' :: '\n' :: rest)).map char := by rwa [list]
      exact (prefix_of_prefix_map_char hu hprefix).isInfix
    · exact (ih h).trans (List.suffix_append ['\r', '\n'] rest).isInfix
  | case3 offset c rest hc ih =>
    rcases List.infix_cons_iff.mp h with h | h
    · have hprefix : u <+: (list offset (c :: rest)).map char := by rwa [list]; exact hc
      exact (prefix_of_prefix_map_char hu hprefix).isInfix
    · exact (ih h).trans (List.suffix_cons c rest).isInfix

end

namespace Stylesheet

open Scanner

variable {α β γ σ : Type} {s s' t rest : Text}

/-- The text has no at-rules, no variables and no extends in it. -/
structure IsCommon (t : Text) : Prop where
  no_at : '@' ∉ t
  no_dollar : '$' ∉ t
  no_extend : ¬ "&:extend(".toList <:+: t

theorem IsCommon.suffix (h : IsCommon s) (hs : s' <:+ s) : IsCommon s' where
  no_at hmem := h.no_at (hs.subset hmem)
  no_dollar hmem := h.no_dollar (hs.subset hmem)
  no_extend hextend := h.no_extend (hextend.trans hs.isInfix)

theorem IsCommon.chars (h : IsCommon t) : IsCommon (Source.ofText t).chars where
  no_at hmem := (Source.mem_map_char hmem).elim h.no_at (by decide)
  no_dollar hmem := (Source.mem_map_char hmem).elim h.no_dollar (by decide)
  no_extend hinfix := h.no_extend (Token.infix_of_infix_map_char (by decide) hinfix)

/-! ## Scanners that do the same -/

/-- In front of a common text the scanner `x` refuses the call of a mixin, or `y` does the same. -/
def Concur (x y : Scanner α) : Prop :=
  ∀ ⦃s : Text⦄, IsCommon s → (∃ place rest, x s = .error ⟨.mixinCall, place⟩ rest) ∨ x s = y s

namespace Concur

variable {x y : Scanner α} {f g : α → Scanner β}

protected theorem refl (x : Scanner α) : Concur x x := fun _ _ => .inr rfl

/-- Only what is done in front of common texts counts. -/
theorem congr {x' y' : Scanner α} (h : Concur x' y') (hx : ∀ ⦃s⦄, IsCommon s → x s = x' s)
    (hy : ∀ ⦃s⦄, IsCommon s → y s = y' s) : Concur x y := by
  intro s hs
  rw [hx hs, hy hs]
  exact h hs

theorem bind (hx : Concur x y) (hconsumes : Consumes x) (hf : ∀ a, Concur (f a) (g a)) :
    Concur (x >>= f) (y >>= g) := by
  intro s hs
  rw [bind_apply, bind_apply]
  rcases hx hs with ⟨place, rest, h⟩ | h
  · rw [h]
    exact .inl ⟨place, rest, rfl⟩
  · rw [← h]
    cases hs' : x s with
    | ok a s' => exact hf a (hs.suffix (hconsumes hs'))
    | error problem s' => exact .inr rfl

/-- After a scanner of both. -/
theorem after (hconsumes : Consumes x) (hf : ∀ a, Concur (f a) (g a)) : Concur (x >>= f) (x >>= g) :=
  bind (.refl x) hconsumes hf

theorem ite {p : Prop} [Decidable p] {x' y' : Scanner α} (hx : Concur x y) (hx' : Concur x' y') :
    Concur (if p then x else x') (if p then y else y') := by
  split
  · exact hx
  · exact hx'

theorem eq_of_ok {a : α} (hx : Concur x y) (hs : IsCommon s) (h : x s = .ok a rest) : y s = .ok a rest := by
  rcases hx hs with ⟨place, rest', h'⟩ | h'
  · cases h.symm.trans h'
  · rw [← h', h]

theorem gather {step step' : σ → Scanner (Option (List γ × σ))} (hstep : ∀ state, Concur (step state) (step' state))
    (hconsumes : ∀ state, Consumes (step state)) (state : σ) :
    Concur (Scanner.gather step state) (Scanner.gather step' state) := by
  intro s hs
  fun_induction Scanner.gather step state s with
  | case1 state s problem rest h =>
    rcases hstep state hs with ⟨place, rest', h'⟩ | h'
    · cases h.symm.trans h'
      exact .inl ⟨place, rest, rfl⟩
    · exact .inr (by rw [Scanner.gather, ← h', h])
  | case2 state s rest h => exact .inr (by rw [Scanner.gather, (hstep state).eq_of_ok hs h])
  | case3 state s piece state' rest h hlt problem rest' hmore ih =>
    rw [hmore] at ih
    rcases ih (hs.suffix (hconsumes state h)) with ⟨place, rest'', h'⟩ | h'
    · cases h'
      exact .inl ⟨place, rest', rfl⟩
    · exact .inr (by rw [Scanner.gather, (hstep state).eq_of_ok hs h]; simp only [hlt, if_true, ← h'])
  | case4 state s piece state' rest h hlt more last rest' hmore ih =>
    rw [hmore] at ih
    rcases ih (hs.suffix (hconsumes state h)) with ⟨place, rest'', h'⟩ | h'
    · cases h'
    · exact .inr (by rw [Scanner.gather, (hstep state).eq_of_ok hs h]; simp only [hlt, if_true, ← h'])
  | case5 state s piece state' rest h hlt =>
    exact .inr (by rw [Scanner.gather, (hstep state).eq_of_ok hs h]; simp only [hlt, if_false])

theorem gatherAll {step step' : Scanner (Option (List γ))} (hstep : Concur step step')
    (hconsumes : Consumes step) : Concur (Scanner.gatherAll step) (Scanner.gatherAll step') :=
  have honce : Consumes (do return (← step).map (·, ())) := hconsumes.bind fun _ => .pure _
  bind (gather (fun _ => bind hstep hconsumes fun _ => .refl _) (fun _ => honce) ())
    (.gather (fun _ => honce) ()) fun _ => .refl _

/-- A single statement. -/
theorem singleton {x y : Scanner Stmt} (hx : Concur x y) (hconsumes : Consumes x) :
    Concur (do return [← x]) (do return [← y]) :=
  bind hx hconsumes fun _ => .refl _

end Concur

/-! ## Statements -/

section

variable {block block' : Scanner (List Stmt)}

theorem concur_scanRule (hblock : Concur block block') (hconsumes : Consumes block) (selector : Text)
    (start : Nat) : Concur (scanRule block selector start) (scanRule block' selector start) := by
  refine .after (.regionFrom start) fun prelude => ?_
  dsimp only
  have hbody : Concur (do
        let body ← block
        return Stmt.rule (Text.trimEnd selector) prelude (← regionFrom start) body) (do
        let body ← block'
        return Stmt.rule (Text.trimEnd selector) prelude (← regionFrom start) body) :=
    .bind hblock hconsumes fun _ => .refl _
  exact .ite (.after (.failHere _) fun _ => hbody) hbody

/-- The one place in which the dialects differ. -/
theorem concur_scanDeclarationOrRule (hblock : Concur block block') (hconsumes : Consumes block) :
    Concur (scanDeclarationOrRule .less block) (scanDeclarationOrRule .scss block') := by
  refine .after .mark fun start => .after .statementText fun text => .after (.nextIs '{') fun brace => ?_
  refine .ite (concur_scanRule hblock hconsumes text start) (.after (.regionFrom start) fun region => ?_)
  intro s hs
  by_cases hcall : isMixinCall .less (Text.trim text)
  · rw [if_pos hcall]
    exact .inl ⟨.region region, s, rfl⟩
  · rw [if_neg hcall]
    exact .inr rfl

theorem nextIs_of_not_mem {c : Char} (h : c ∉ s) : nextIs c s = .ok false s := by
  have hhead : (s.head? == some c) = false :=
    beq_false_of_ne fun hc => h (List.mem_of_mem_head? (Option.mem_def.mpr hc))
  rw [nextIs, hhead]

theorem scanScssStatement_common (block : Scanner (List Stmt)) (hs : IsCommon s) :
    scanScssStatement block s = (do return [← scanDeclarationOrRule .scss block] : Scanner _) s := by
  rw [scanScssStatement, bind_of_ok (nextIs_of_not_mem hs.no_at), bind_of_ok (atInterpolation_apply _),
    Bool.false_and, if_neg Bool.false_ne_true, bind_of_ok (nextIs_of_not_mem hs.no_dollar),
    if_neg Bool.false_ne_true]

theorem scanLessStatement_common (block : Scanner (List Stmt)) (hs : IsCommon s) :
    scanLessStatement block s = (do return [← scanDeclarationOrRule .less block] : Scanner _) s := by
  have hstarts : extendStart.isPrefixOf s = false := Bool.eq_false_iff.mpr fun h =>
    hs.no_extend (List.isPrefixOf_iff_prefix.mp h).isInfix
  have hextend : scanExtendDeclaration s = .ok none s := scanExtendDeclaration_of_not_prefix hstarts
  rw [scanLessStatement, bind_of_ok (nextIs_of_not_mem hs.no_at), bind_of_ok (atInterpolation_apply _),
    Bool.false_and, if_neg Bool.false_ne_true, bind_of_ok hextend]

theorem concur_scanStatement (hblock : Concur block block') (hfinds : Finds [] allPreludes block) :
    Concur (scanStatement .less block) (scanStatement .scss block') :=
  .congr (.singleton (concur_scanDeclarationOrRule hblock hfinds.consumes)
      (finds_scanDeclarationOrRule hfinds .less).consumes)
    (fun _ hs => scanLessStatement_common block hs) (fun _ hs => scanScssStatement_common block' hs)

/-! ## Blocks -/

theorem concur_scanItem (hblock : Concur block block') (hfinds : Finds [] allPreludes block) (inBlock : Bool) :
    Concur (scanItem .less block inBlock) (scanItem .scss block' inBlock) := by
  refine .after .blanks fun _ => .after .peek fun next => ?_
  split
  · exact .refl _
  · exact .refl _
  · exact .refl _
  · refine .after (.lookingAt _) fun _ => .ite (.refl _) (.after (.lookingAt _) fun _ => .ite (.refl _) ?_)
    exact .bind (concur_scanStatement hblock hfinds) (finds_scanStatement hfinds .less).consumes fun _ => .refl _

/-- Blocks are read alike, level by level. -/
theorem concur_scanBlockTo (depth : Nat) : Concur (scanBlockTo .less depth) (scanBlockTo .scss depth) := by
  induction depth with
  | zero => exact .refl _
  | succ depth ih =>
    have hfinds := finds_scanBlockTo .less depth
    exact .after (.expectChar '{') fun _ =>
      .gatherAll (concur_scanItem ih hfinds true) (finds_scanItem hfinds .less true).consumes

theorem concur_scanBlock : Concur (scanBlock .less) (scanBlock .scss) :=
  fun s hs => concur_scanBlockTo s.length hs

theorem concur_scan : Concur (scan .less) (scan .scss) := by
  have hfinds := finds_scanBlock .less
  exact .after (Consumes.scanChar _).discard fun _ =>
    .gatherAll (concur_scanItem concur_scanBlock hfinds false) (finds_scanItem hfinds .less false).consumes

end

/-- **A text without at-signs, dollar signs and extends means the same in both dialects.** Either LESS refuses
what could be the call of a mixin, or both give the same statements in the same places, or the same fault in
the same place. -/
theorem read_common (ht : IsCommon t) :
    (∃ d, read .less (Source.ofText t) = .error d ∧
        d.fault.message = "mixin calls are not supported.".toList) ∨
      read .less (Source.ofText t) = read .scss (Source.ofText t) := by
  unfold read
  rcases concur_scan ht.chars with ⟨place, rest, h⟩ | h
  · rw [h]
    exact .inl ⟨_, rfl, by cases place <;> rfl⟩
  · rw [h]
    exact .inr rfl

/-- A nested rule, a declaration that starts like the call of a mixin, and a comment. -/
def commonText : Text := "a\x7b#\x7bb\x7d:c;&:hover\x7bd:e\x7d\x7d/* f */".toList

theorem read_common_commonText : IsCommon commonText ∧
    read .less (Source.ofText commonText) = read .scss (Source.ofText commonText) ∧
      ∃ body, read .less (Source.ofText commonText) = .ok body := by
  have hcommon : IsCommon commonText := ⟨by decide, by decide, by decide +kernel⟩
  have hread : ∃ body, read .less (Source.ofText commonText) = .ok body :=
    ⟨_, read_of_isOk (by decide +kernel)⟩
  refine ⟨hcommon, (read_common hcommon).resolve_left ?_, hread⟩
  rintro ⟨d, hd, -⟩
  obtain ⟨body, hbody⟩ := hread
  cases hbody.symm.trans hd

end Stylesheet

end NestedCss
