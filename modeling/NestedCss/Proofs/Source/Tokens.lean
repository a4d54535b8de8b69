import Mathlib.Data.List.Chain
import NestedCss.Source.Basic

/-!
# Where tokens are

* `Text.isBoundary_iff`: the byte offsets between characters are those behind a part of the text;
* `Source.HasPlainLines`, `Source.chars_ofText`: texts that a source leaves as they are;
* `Token.exists_of_mem_list`: every token starts and ends between characters;
* **`Source.isPlaced_spanOf`**: so does the span of any region;
* `Source.offsets_lt`, `Source.spanOf_within_span`: how far offsets go;
* `Source.cut`, `Contiguous`: the tokens of a region, which may follow each other without a gap;
* **`Source.isPlaced_spanAt_ofSnippet`**: what was cut out of a file without gaps has its spans between
  characters of the file.
-/

namespace NestedCss

/-! ## Bytes -/

namespace Text

@[simp] theorem byteLength_append (a b : Text) : byteLength (a ++ b) = byteLength a + byteLength b := by
  induction a with
  | nil => simp [byteLength]
  | cons c a ih => simp [byteLength, ih, Nat.add_assoc]

theorem isBoundary_iff {t : Text} {offset : Nat} :
    t.isBoundary offset = true ↔ ∃ p, p <+: t ∧ byteLength p = offset := by
  fun_induction isBoundary t offset with
  | case1 => exact iff_of_true rfl ⟨[], List.nil_prefix, rfl⟩
  | case2 =>
    simp [byteLength]
  | case3 c rest offset ih =>
    rw [Bool.and_eq_true, decide_eq_true_iff, ih]
    constructor
    · rintro ⟨hle, p, hp, hlength⟩
      exact ⟨c :: p, List.cons_prefix_cons.mpr ⟨rfl, hp⟩, by rw [byteLength]; omega⟩
    · rintro ⟨p, hp, hlength⟩
      cases p with
      | nil => cases hlength
      | cons d p =>
        obtain ⟨rfl, hrest⟩ := List.cons_prefix_cons.mp hp
        rw [byteLength] at hlength
        exact ⟨by omega, p, hrest, by omega⟩

theorem byteLength_le_of_prefix {p t : Text} (h : p <+: t) : byteLength p ≤ byteLength t := by
  obtain ⟨rest, rfl⟩ := h
  simp

end Text

/-- Whether both ends of a span lie between characters of the text. -/
def Span.IsPlaced (s : Span) (text : Text) : Prop :=
  text.isBoundary s.start = true ∧ text.isBoundary s.stop = true

theorem Span.IsPlaced.union {a b : Span} {text : Text} (ha : a.IsPlaced text) (hb : b.IsPlaced text) :
    (a.union b).IsPlaced text := by
  constructor
  · rcases Nat.le_total a.start b.start with h | h
    · rw [Span.union, Nat.min_eq_left h]
      exact ha.1
    · rw [Span.union, Nat.min_eq_right h]
      exact hb.1
  · rcases Nat.le_total a.stop b.stop with h | h
    · rw [Span.union, Nat.max_eq_right h]
      exact hb.2
    · rw [Span.union, Nat.max_eq_left h]
      exact ha.2

/-! ## Line ends -/

namespace Source

variable {t : Text} {c : Char} {offset : Nat}

/-- All lines of the text end with line feeds. -/
def HasPlainLines (t : Text) : Prop := ∀ c ∈ t, c ≠ '\r' ∧ c ≠ '\x0c'

instance : DecidablePred HasPlainLines := fun t => List.decidableBAll _ t

theorem map_char_of_hasPlainLines (h : HasPlainLines t) : (Token.list offset t).map Token.char = t := by
  fun_induction Token.list offset t with
  | case1 => rfl
  | case2 offset rest ih => exact absurd rfl (h '\r' List.mem_cons_self).1
  | case3 offset c rest _ ih =>
    obtain ⟨hc, hrest⟩ := List.forall_mem_cons.mp h
    simp [hc.1, hc.2, ih hrest]

theorem hasPlainLines_map_char (offset : Nat) (t : Text) :
    HasPlainLines ((Token.list offset t).map Token.char) := by
  fun_induction Token.list offset t with
  | case1 => exact List.forall_mem_nil _
  | case2 offset rest ih =>
    exact List.forall_mem_cons.mpr ⟨(by decide : '\n' ≠ '\r' ∧ '\n' ≠ '\x0c'), ih⟩
  | case3 offset c rest _ ih =>
    refine List.forall_mem_cons.mpr ⟨?_, ih⟩
    dsimp only
    split
    · decide
    · next h => exact not_or.mp h

theorem mem_map_char (h : c ∈ (Token.list offset t).map Token.char) : c ∈ t ∨ c = '\n' := by
  fun_induction Token.list offset t with
  | case1 => cases h
  | case2 offset rest ih =>
    rcases List.mem_cons.mp h with rfl | h
    · exact .inr rfl
    · exact (ih h).imp_left fun h => List.mem_cons_of_mem _ (List.mem_cons_of_mem _ h)
  | case3 offset d rest _ ih =>
    rcases List.mem_cons.mp h with rfl | h
    · dsimp only
      split
      · exact .inr rfl
      · exact .inl List.mem_cons_self
    · exact (ih h).imp_left (List.mem_cons_of_mem d)

theorem chars_ofText (h : HasPlainLines t) : (ofText t).chars = t := map_char_of_hasPlainLines h

theorem length_chars (s : Source) : s.chars.length = s.size := List.length_map _

theorem hasPlainLines_chars (t : Text) : HasPlainLines (ofText t).chars := hasPlainLines_map_char 0 t

end Source

/-! ## Tokens -/

namespace Token

/-- The bytes of a token. -/
def span (τ : Token) : Span := ⟨τ.offset, τ.offset + τ.char.utf8Size⟩

/-- A token starts where a character does and takes as many bytes. -/
theorem exists_of_mem_list {t : Text} {offset : Nat} {τ : Token} (h : τ ∈ list offset t) :
    ∃ p c, p ++ [c] <+: t ∧ τ.offset = offset + Text.byteLength p ∧ τ.char.utf8Size = c.utf8Size := by
  fun_induction list offset t with
  | case1 => cases h
  | case2 offset rest ih =>
    rcases List.mem_cons.mp h with rfl | h
    · exact ⟨[], '\r', ⟨'\n' :: rest, rfl⟩, rfl, rfl⟩
    · obtain ⟨p, c, hp, hoffset, hsize⟩ := ih h
      refine ⟨'\r' :: '\n' :: p, c, by simpa using hp, ?_, hsize⟩
      have : ('\r').utf8Size = 1 ∧ ('\n').utf8Size = 1 := by decide
      simp only [Text.byteLength, this.1, this.2]
      omega
  | case3 offset c rest _ ih =>
    rcases List.mem_cons.mp h with rfl | h
    · refine ⟨[], c, ⟨rest, rfl⟩, rfl, ?_⟩
      split
      · next heq => rcases heq with rfl | rfl <;> rfl
      · rfl
    · obtain ⟨p, d, hp, hoffset, hsize⟩ := ih h
      refine ⟨c :: p, d, by simpa using hp, ?_, hsize⟩
      rw [Text.byteLength]
      omega

theorem isPlaced_of_mem_list {t : Text} {τ : Token} (h : τ ∈ list 0 t) :
    τ.span.IsPlaced t ∧ τ.span.stop ≤ Text.byteLength t := by
  obtain ⟨p, c, hp, hoffset, hsize⟩ := exists_of_mem_list h
  have hlength : Text.byteLength (p ++ [c]) = τ.span.stop := by
    simp [Text.byteLength, span, hoffset, hsize]
  have hstart : Text.byteLength p = τ.span.start := by simp [span, hoffset]
  exact ⟨⟨Text.isBoundary_iff.mpr ⟨p, (List.prefix_append _ _).trans hp, hstart⟩,
    Text.isBoundary_iff.mpr ⟨_, hp, hlength⟩⟩, hlength ▸ Text.byteLength_le_of_prefix hp⟩

theorem le_offset_of_mem_list {t : Text} {offset : Nat} {τ : Token} (h : τ ∈ list offset t) :
    offset ≤ τ.offset := by
  obtain ⟨p, c, -, hoffset, -⟩ := exists_of_mem_list h
  omega

/-- Tokens stand behind each other. -/
theorem pairwise_list (offset : Nat) (t : Text) :
    (list offset t).Pairwise fun a b => a.span.stop ≤ b.span.start := by
  fun_induction list offset t with
  | case1 => exact .nil
  | case2 offset rest ih =>
    refine .cons (fun τ hτ => ?_) ih
    have hle : offset + 2 ≤ τ.offset := le_offset_of_mem_list hτ
    exact Nat.le_trans (Nat.le_succ _) hle
  | case3 offset c rest _ ih =>
    refine .cons (fun τ hτ => ?_) ih
    have hle : offset + c.utf8Size ≤ τ.offset := le_offset_of_mem_list hτ
    have hsize : (if c = '\r' ∨ c = '\x0c' then '\n' else c).utf8Size = c.utf8Size := by
      split
      · next heq => rcases heq with rfl | rfl <;> rfl
      · rfl
    exact Nat.le_trans (Nat.le_of_eq (congrArg (offset + ·) hsize)) hle

theorem list_cons {c : Char} (hc : c ≠ '\r' ∧ c ≠ '\x0c') (offset : Nat) (rest : Text) :
    list offset (c :: rest) = ⟨c, offset⟩ :: list (offset + c.utf8Size) rest := by
  rw [list]
  · rw [if_neg (not_or.mpr hc)]
  · rintro - rfl
    exact absurd rfl hc.1

theorem list_append {a : Text} (ha : Source.HasPlainLines a) (offset : Nat) (b : Text) :
    list offset (a ++ b) = list offset a ++ list (offset + Text.byteLength a) b := by
  induction a generalizing offset with
  | nil => rfl
  | cons c a ih =>
    obtain ⟨hc, ha⟩ := List.forall_mem_cons.mp ha
    rw [List.cons_append, list_cons hc, list_cons hc, ih ha, List.cons_append, Text.byteLength,
      Nat.add_assoc]

/-- The token, if all of the text stood further on. -/
def shift (n : Nat) (τ : Token) : Token := ⟨τ.char, n + τ.offset⟩

theorem list_add (n offset : Nat) (t : Text) : list (n + offset) t = (list offset t).map (shift n) := by
  fun_induction list offset t with
  | case1 => rfl
  | case2 offset rest ih => rw [list, List.map_cons, Nat.add_assoc, ih]; rfl
  | case3 offset c rest h ih => rw [list, List.map_cons, Nat.add_assoc, ih]; rfl; exact h

end Token

/-- Whether each token starts where the one before it stops, as tokens do that stand for all
characters of a text. Behind a line end of two characters there is a gap. -/
def Contiguous (tokens : List Token) : Prop := tokens.IsChain fun a b => b.span.start = a.span.stop

theorem Contiguous.eq_list {τ : Token} {tokens : List Token} (h : Contiguous (τ :: tokens))
    (hplain : Source.HasPlainLines ((τ :: tokens).map Token.char)) :
    τ :: tokens = Token.list τ.offset ((τ :: tokens).map Token.char) := by
  induction tokens generalizing τ with
  | nil => rw [List.map_cons, Token.list_cons (List.forall_mem_cons.mp hplain).1]; rfl
  | cons σ tokens ih =>
    obtain ⟨hσ, htokens⟩ := List.isChain_cons_cons.mp h
    have hσ : σ.offset = τ.offset + τ.char.utf8Size := hσ
    obtain ⟨hτ, hplain⟩ := List.forall_mem_cons.mp hplain
    rw [List.map_cons, Token.list_cons hτ, ← hσ, ← ih htokens hplain]

theorem head?_list (offset : Nat) (t : Text) : ∀ τ ∈ (Token.list offset t).head?, τ.offset = offset := by
  intro τ hτ
  unfold Token.list at hτ
  split at hτ <;> cases hτ <;> rfl

/-- Without line ends of two characters, tokens stand for a character each and leave no gaps. -/
theorem list_of_no_wide (offset : Nat) {t : Text} (h : ¬ "\r\n".toList <:+: t) :
    (Token.list offset t).map Token.char = t.map (fun c => if c = '\r' ∨ c = '\x0c' then '\n' else c) ∧
      Contiguous (Token.list offset t) := by
  fun_induction Token.list offset t with
  | case1 => exact ⟨rfl, .nil⟩
  | case2 offset rest => exact absurd (List.prefix_append "\r\n".toList rest).isInfix h
  | case3 offset c rest _ ih =>
    obtain ⟨hchars, hcontiguous⟩ := ih fun hrest => h (hrest.trans (List.suffix_cons c rest).isInfix)
    refine ⟨by rw [List.map_cons, List.map_cons, hchars], List.isChain_cons.mpr ⟨?_, hcontiguous⟩⟩
    intro τ hτ
    change τ.offset = offset + _
    rw [head?_list _ _ τ hτ]
    split
    · next heq => rcases heq with rfl | rfl <;> rfl
    · rfl

/-! ## Spans of regions -/

namespace Source

variable {s : Source} {t : Text}

/-- The token at an index, or the last one if there is none. -/
def tokenAt? (s : Source) (i : Nat) : Option Token := s.tokens[i]? <|> s.tokens.getLast?

theorem mem_of_tokenAt? {i : Nat} {τ : Token} (h : s.tokenAt? i = some τ) : τ ∈ s.tokens := by
  unfold tokenAt? at h
  cases hi : s.tokens[i]? with
  | none =>
    rw [hi] at h
    exact List.mem_of_getLast? h
  | some σ =>
    rw [hi] at h
    cases h
    exact List.mem_of_getElem? hi

theorem spanAt_congr {i j : Nat} (h : s.tokenAt? i = s.tokenAt? j) : s.spanAt i = s.spanAt j := by
  unfold tokenAt? at h
  rw [spanAt, spanAt, h]

theorem spanAt_of_none {i : Nat} (h : s.tokenAt? i = none) :
    s.spanAt i = ⟨s.span.start, s.span.start⟩ := by
  unfold spanAt
  rw [show (s.tokens[i]? <|> s.tokens.getLast?) = none from h]

/-- The span of a token is not cut off if the source covers it. -/
theorem spanAt_of_some {i : Nat} {τ : Token} (h : s.tokenAt? i = some τ)
    (hτ : τ.span.stop ≤ s.span.length) :
    s.spanAt i = ⟨s.span.start + τ.span.start, s.span.start + τ.span.stop⟩ := by
  have hτ : τ.offset + τ.char.utf8Size ≤ s.span.length := hτ
  unfold spanAt
  rw [show (s.tokens[i]? <|> s.tokens.getLast?) = some τ from h]
  dsimp only
  rw [Nat.min_eq_left hτ, Nat.min_eq_left (Nat.le_add_right _ _)]
  rfl

theorem isPlaced_spanAt (t : Text) (i : Nat) : ((ofText t).spanAt i).IsPlaced t := by
  cases hi : (ofText t).tokenAt? i with
  | none =>
    rw [spanAt_of_none hi]
    have hzero : t.isBoundary 0 = true := Text.isBoundary_iff.mpr ⟨[], List.nil_prefix, rfl⟩
    exact ⟨hzero, hzero⟩
  | some τ =>
    obtain ⟨hplaced, hle⟩ := Token.isPlaced_of_mem_list (mem_of_tokenAt? hi)
    rw [spanAt_of_some hi hle]
    simpa [ofText, ofSnippet] using hplaced

/-- **The span of a region of a file lies between characters**, wherever the region is. -/
theorem isPlaced_spanOf (t : Text) (r : Region) : ((ofText t).spanOf r).IsPlaced t :=
  (isPlaced_spanAt t _).union (isPlaced_spanAt t _)

/-- **Offsets fit where the length of the file does**: in a file of fewer than `limit` bytes, 4 GiB if they
are kept in 32 bits, no token and no region is at `limit` or further on. -/
theorem offsets_lt {limit : Nat} (h : Text.byteLength t < limit) :
    (∀ τ ∈ (ofText t).tokens, τ.offset < limit) ∧
      ∀ r, ((ofText t).spanOf r).start < limit ∧ ((ofText t).spanOf r).stop < limit := by
  have hlt {offset : Nat} (hboundary : t.isBoundary offset = true) : offset < limit := by
    obtain ⟨p, hp, rfl⟩ := Text.isBoundary_iff.mp hboundary
    exact Nat.lt_of_le_of_lt (Text.byteLength_le_of_prefix hp) h
  exact ⟨fun τ hτ => hlt (Token.isPlaced_of_mem_list hτ).1.1,
    fun r => ⟨hlt (isPlaced_spanOf t r).1, hlt (isPlaced_spanOf t r).2⟩⟩

theorem tokenAt?_eq {i : Nat} {τ : Token} (h : s.tokens[i]? = some τ) : s.tokenAt? i = some τ := by
  rw [tokenAt?, h]
  rfl

/-- Beyond the end there is only the last token. -/
theorem tokenAt?_eq_getElem? (s : Source) (i : Nat) : s.tokenAt? i = s.tokens[min i (s.size - 1)]? := by
  unfold tokenAt?
  rcases Nat.lt_or_ge i s.size with hlt | hge
  · rw [Nat.min_eq_left (Nat.le_sub_one_of_lt hlt), List.getElem?_eq_getElem hlt]
    rfl
  · rw [Nat.min_eq_right (Nat.sub_le_of_le_add (Nat.le_succ_of_le hge)), List.getElem?_eq_none hge,
      List.getLast?_eq_getElem?]
    rfl

theorem spanAt_eq {i j : Nat} (h : min i (s.size - 1) = min j (s.size - 1)) : s.spanAt i = s.spanAt j := by
  apply spanAt_congr
  rw [tokenAt?_eq_getElem?, tokenAt?_eq_getElem?, h]

/-- A token of a file is not cut off. -/
theorem spanAt_ofText {i : Nat} {τ : Token} (h : (ofText t).tokenAt? i = some τ) :
    (ofText t).spanAt i = τ.span := by
  rw [spanAt_of_some h (Token.isPlaced_of_mem_list (mem_of_tokenAt? h)).2]
  simp [ofText, ofSnippet]

/-- The bytes of a token lie within those that the source stands for. -/
theorem spanAt_within (h : s.span.start ≤ s.span.stop) (i : Nat) :
    s.span.start ≤ (s.spanAt i).start ∧ (s.spanAt i).stop ≤ s.span.stop := by
  have hlength : s.span.start + s.span.length = s.span.stop := Nat.add_sub_cancel' h
  cases hi : s.tokenAt? i with
  | none =>
    rw [spanAt_of_none hi]
    exact ⟨Nat.le_refl _, h⟩
  | some τ =>
    unfold spanAt
    rw [show (s.tokens[i]? <|> s.tokens.getLast?) = some τ from hi]
    dsimp only
    omega

/-- **The bytes of a region lie within those that the source stands for.** -/
theorem spanOf_within_span (h : s.span.start ≤ s.span.stop) (r : Region) :
    s.span.start ≤ (s.spanOf r).start ∧ (s.spanOf r).stop ≤ s.span.stop := by
  obtain ⟨hstart, hstop⟩ := s.spanAt_within h (s.size - r.start)
  obtain ⟨hstart', hstop'⟩ := s.spanAt_within h (s.size - r.stop - 1)
  exact ⟨Nat.le_min.mpr ⟨hstart, hstart'⟩, Nat.max_le.mpr ⟨hstop, hstop'⟩⟩

theorem spanAt_start_lt_stop (h : 0 < (ofText t).size) (i : Nat) :
    ((ofText t).spanAt i).start < ((ofText t).spanAt i).stop := by
  have hi := tokenAt?_eq_getElem? (ofText t) i
  rw [List.getElem?_eq_getElem (show _ < (ofText t).size by omega)] at hi
  rw [spanAt_ofText hi]
  exact Nat.lt_add_of_pos_right (Char.utf8Size_pos _)

/-- The spans at two indices, if both are not beyond the last token, stand behind each other. -/
theorem spanAt_stop_le_start {i j : Nat} (hij : i < j) (hi : i + 1 < (ofText t).size) :
    ((ofText t).spanAt i).stop ≤ ((ofText t).spanAt j).start := by
  have hlast : min i ((ofText t).size - 1) < min j ((ofText t).size - 1) := by omega
  have hsize : min j ((ofText t).size - 1) < (ofText t).tokens.length := by
    change _ < (ofText t).size
    omega
  have ha := tokenAt?_eq_getElem? (ofText t) i
  have hb := tokenAt?_eq_getElem? (ofText t) j
  rw [List.getElem?_eq_getElem (hlast.trans hsize)] at ha
  rw [List.getElem?_eq_getElem hsize] at hb
  rw [spanAt_ofText ha, spanAt_ofText hb]
  exact List.pairwise_iff_getElem.mp (Token.pairwise_list 0 t) _ _ _ _ hlast

/-- Spans move on with the index. -/
theorem spanAt_mono {i j : Nat} (hij : i ≤ j) :
    ((ofText t).spanAt i).start ≤ ((ofText t).spanAt j).start ∧
      ((ofText t).spanAt i).stop ≤ ((ofText t).spanAt j).stop := by
  by_cases hlt : i < j ∧ i + 1 < (ofText t).size
  · have hbefore := spanAt_stop_le_start hlt.1 hlt.2
    have hle := fun k => (spanAt_start_lt_stop (Nat.zero_lt_of_lt hlt.2) k).le
    exact ⟨(hle i).trans hbefore, hbefore.trans (hle j)⟩
  · have hsame : min i ((ofText t).size - 1) = min j ((ofText t).size - 1) := by omega
    rw [spanAt_eq hsame]
    exact ⟨le_rfl, le_rfl⟩

/-! ## Snippets -/

/-- The tokens of a region. -/
def cut (s : Source) (r : Region) : List Token :=
  (s.tokens.take (s.size - r.stop)).drop (s.size - r.start)

theorem getElem?_cut {r : Region} {k : Nat} {τ : Token} (h : (s.cut r)[k]? = some τ) :
    s.size - r.start + k < s.size - r.stop ∧ s.tokens[s.size - r.start + k]? = some τ := by
  rw [cut, List.getElem?_drop, List.getElem?_take] at h
  split at h
  · next hlt => exact ⟨hlt, h⟩
  · cases h

theorem mem_of_mem_cut {r : Region} {τ : Token} (h : τ ∈ s.cut r) : τ ∈ s.tokens :=
  List.mem_of_mem_take (List.mem_of_mem_drop h)

/-- The span of a region goes from its first token to the last one. -/
theorem spanOf_cut {r : Region} {τ : Token} {rest : List Token} (h : (ofText t).cut r = τ :: rest) :
    ((ofText t).spanOf r).start = τ.span.start ∧
      ∀ σ ∈ τ :: rest, σ.span.stop ≤ ((ofText t).spanOf r).stop := by
  obtain ⟨hlt, hτ⟩ := getElem?_cut (s := ofText t) (r := r) (k := 0) (by rw [h]; rfl)
  rw [Nat.add_zero] at hlt hτ
  rw [spanOf, spanFrom]
  constructor
  · rw [← spanAt_ofText (tokenAt?_eq hτ)]
    exact Nat.min_eq_left (spanAt_mono (by omega)).1
  · intro σ hσ
    obtain ⟨k, hk⟩ := List.mem_iff_getElem?.mp hσ
    obtain ⟨hklt, hσ⟩ := getElem?_cut (s := ofText t) (r := r) (k := k) (by rw [h]; exact hk)
    rw [← spanAt_ofText (tokenAt?_eq hσ)]
    exact Nat.le_trans (spanAt_mono (by omega)).2 (Nat.le_max_right _ _)

/-- **The spans of a snippet lie between characters of the file** that it was cut out of, if it is
what stands there. -/
theorem isPlaced_spanAt_ofSnippet {r : Region} {snippet : Text}
    (hsnippet : snippet <+: ((ofText t).cut r).map Token.char) (hcut : Contiguous ((ofText t).cut r))
    (i : Nat) : ((ofSnippet snippet ((ofText t).spanOf r)).spanAt i).IsPlaced t := by
  cases hi : (ofSnippet snippet ((ofText t).spanOf r)).tokenAt? i with
  | none =>
    rw [spanAt_of_none hi]
    exact ⟨(isPlaced_spanOf t r).1, (isPlaced_spanOf t r).1⟩
  | some τ =>
    have hτ : τ ∈ Token.list 0 snippet := mem_of_tokenAt? hi
    have hplain : HasPlainLines (((ofText t).cut r).map Token.char) := by
      intro c hc
      obtain ⟨σ, hσ, rfl⟩ := List.mem_map.mp hc
      exact hasPlainLines_chars t _ (List.mem_map_of_mem (mem_of_mem_cut hσ))
    obtain ⟨more, hmore⟩ := hsnippet
    cases htokens : (ofText t).cut r with
    | nil =>
      rw [htokens, List.map_nil, List.append_eq_nil_iff] at hmore
      rw [hmore.1] at hτ
      cases hτ
    | cons first rest =>
      have hlist : (ofText t).cut r = Token.list first.offset (snippet ++ more) := by
        rw [hmore, htokens]
        exact (htokens ▸ hcut).eq_list (htokens ▸ hplain)
      have hchars : HasPlainLines snippet :=
        fun c hc => hplain c (hmore ▸ List.mem_append_left _ hc)
      -- The token of the snippet is one of the file, further on by where the region starts.
      have hshift : τ.shift first.offset ∈ (ofText t).cut r := by
        rw [hlist, Token.list_append hchars]
        refine List.mem_append_left _ ?_
        have hadd := Token.list_add first.offset 0 snippet
        rw [Nat.add_zero] at hadd
        exact hadd ▸ List.mem_map_of_mem hτ
      have hplaced := (Token.isPlaced_of_mem_list (mem_of_mem_cut hshift)).1
      obtain ⟨hstart, hstop⟩ := spanOf_cut htokens
      have hle : first.offset + τ.offset + τ.char.utf8Size ≤ ((ofText t).spanOf r).stop :=
        hstop (τ.shift first.offset) (htokens ▸ hshift)
      have hstart : ((ofText t).spanOf r).start = first.offset := hstart
      rw [spanAt_of_some hi ?_]
      · change Span.IsPlaced ⟨((ofText t).spanOf r).start + τ.offset,
          ((ofText t).spanOf r).start + (τ.offset + τ.char.utf8Size)⟩ t
        rw [hstart, ← Nat.add_assoc]
        exact hplaced
      · change τ.offset + τ.char.utf8Size ≤ ((ofText t).spanOf r).stop - ((ofText t).spanOf r).start
        omega

end Source

end NestedCss
