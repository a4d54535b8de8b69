import NestedCss.Proofs.Css.Ancestors

/-!
# Flat trees

Which statement may stand in which: style rules hold no blocks, a `@media` stands neither in a style rule
nor in a `@media`, and a declaration does not stand at the top.

* `Occurrence.IsFlat`, `Tree.IsFlat`;
* **`Tree.IsFlat.addBlock`**: a block may be added where it leaves what it must not stand in.
-/

namespace NestedCss.Css

variable {σ τ : Type}

/-- Whether the statement has a block. -/
def Head.isBlock : Head σ → Bool
  | .rule _ | .media _ | .blockAtRule .. | .keyframe _ => true
  | .plainAtRule .. | .declaration .. | .comment .. => false

/-- Whether the statement is a declaration. -/
def Head.isDeclaration : Head σ → Bool
  | .declaration .. => true
  | _ => false

theorem Head.isBlock_of_isMedia {a : Head σ} (h : a.isMedia = true) : a.isBlock = true := by
  cases a <;> first | rfl | cases h

theorem Head.isDeclaration_of_isBlock {a : Head σ} (h : a.isBlock = true) :
    a.isDeclaration = false := by
  cases a <;> first | rfl | cases h

@[simp] theorem Head.isBlock_map (f : σ → τ) (a : Head σ) : (a.map f).isBlock = a.isBlock := by
  cases a <;> rfl

@[simp] theorem Head.isRule_map (f : σ → τ) (a : Head σ) : (a.map f).isRule = a.isRule := by
  cases a <;> rfl

@[simp] theorem Head.isMedia_map (f : σ → τ) (a : Head σ) : (a.map f).isMedia = a.isMedia := by
  cases a <;> rfl

@[simp] theorem Head.isDeclaration_map (f : σ → τ) (a : Head σ) :
    (a.map f).isDeclaration = a.isDeclaration := by
  cases a <;> rfl

namespace Occurrence

/-- The statement may stand in those around it. -/
structure IsFlat (x : Occurrence σ) : Prop where
  blocks : ∀ a ∈ x.around, a.isBlock
  rule : ∀ a, x.around.getLast? = some a → a.isRule → x.head.isBlock = false
  media : x.head.isMedia → ∀ a, x.around.getLast? = some a → a.isRule = false ∧ a.isMedia = false
  declaration : x.head.isDeclaration → x.around ≠ []

theorem IsFlat.map {x : Occurrence σ} (h : x.IsFlat) (f : σ → τ) : (x.map f).IsFlat := by
  constructor
  · simpa [Occurrence.map] using h.blocks
  · simpa [Occurrence.map] using h.rule
  · simpa [Occurrence.map] using h.media
  · simpa [Occurrence.map] using h.declaration

end Occurrence

/-- The statements of the tree may stand where they stand. -/
structure Tree.IsFlat (t : Tree σ) : Prop where
  sound : t.Sound
  flat : ∀ x ∈ t.occurrences, x.IsFlat

namespace Tree

variable {t : Tree σ} {p : Option NodeId} {head : Head σ} {through : Head σ → Bool}

/-- No leaf is ever a parent. -/
theorem IsFlat.isBlock_of_parent? (ht : t.IsFlat) {i k : ℕ} (h : t.parent? i = some k) :
    ∃ a, t.head? k = some a ∧ a.isBlock = true := by
  obtain ⟨n, hn⟩ := exists_node (lt_of_parent? h)
  obtain ⟨m, hm⟩ := exists_node (ht.sound.valid i k h)
  have hhead := head?_eq_some hm
  refine ⟨m.head, hhead, (ht.flat _ (mem_occurrences hn)).blocks m.head ?_⟩
  rw [← parent?_eq hn, h, heads_some ht.sound hhead]
  simp

/-- A leaf may be added to a block. -/
theorem IsFlat.push {n : Node σ} (ht : t.IsFlat) (hp : t.Valid n.parent) (hblock : n.head.isBlock = false)
    (hblocks : ∀ a ∈ t.heads n.parent, a.isBlock = true)
    (hdeclaration : n.head.isDeclaration = true → t.heads n.parent ≠ []) : (t.push n).IsFlat := by
  have hmedia : n.head.isMedia = false := by
    by_contra hcontra
    simp [Head.isBlock_of_isMedia (by simpa using hcontra)] at hblock
  refine ⟨ht.sound.push hp, fun x hx => ?_⟩
  rw [occurrences_push ht.sound hp] at hx
  rcases List.mem_append.mp hx with hx | hx
  · exact ht.flat x hx
  · rw [List.mem_singleton.mp hx]
    exact ⟨hblocks, fun _ _ _ => hblock, by simp [hmedia], hdeclaration⟩

/-- **A block may be added** where it leaves what it must not stand in. -/
theorem IsFlat.addBlock (ht : t.IsFlat) (hp : t.Valid p) (hblock : head.isBlock = true)
    (hblocks : ∀ a ∈ t.heads p, a.isBlock = true)
    (hlast : ∀ a, ((t.heads p).rdropWhile through).getLast? = some a →
      a.isRule = false ∧ (head.isMedia = true → a.isMedia = false)) :
    (t.addBlock head p through).2.IsFlat := by
  have hentered := entered_addBlock ht.sound hp head through
  refine ⟨hentered.sound, fun x hx => ?_⟩
  obtain ⟨copies, hoccurrences, hcopies⟩ := hentered.occurrences
  rw [hoccurrences] at hx
  rcases List.mem_append.mp hx with hx | hx
  · rcases List.mem_append.mp hx with hx | hx
    · exact ht.flat x hx
    · exact ht.flat x (hcopies x hx).1
  · rw [List.mem_singleton.mp hx]
    constructor
    · exact fun a ha => hblocks a ((List.rdropWhile_prefix through _).subset ha)
    · intro a ha hrule
      rw [(hlast a ha).1] at hrule
      cases hrule
    · exact fun hmedia a ha => ⟨(hlast a ha).1, (hlast a ha).2 hmedia⟩
    · simp [Head.isDeclaration_of_isBlock hblock]

theorem IsFlat.endGroup (ht : t.IsFlat) (p : Option NodeId) : (t.endGroup p).IsFlat := by
  refine ⟨ht.sound.endGroup p, ?_⟩
  rw [occurrences_endGroup ht.sound]
  exact ht.flat

end Tree

end NestedCss.Css
