/-
  Setting names and adding code.  Names are set in the innermost function that has some, or in the
  module (`names_cases`); code is added to the innermost block, or to the module.
-/
import Naskah.Proofs.Desk.Moves

namespace Naskah.Desk

variable {d : Desk}

/-! ## Names -/

theorem replaceNames?_cons (names : Names) {x : Block} (hx : x.names? = none) (bs : List Block) :
    replaceNames? names (x :: bs) = (replaceNames? names bs).map (x :: ·) := by
  cases x with
  | function b =>
    have hb : b.isAnonymous = true := by simpa [Block.names?] using hx
    rw [replaceNames?, if_pos hb]
  | loop b | chain c => simp [replaceNames?]

theorem replaceNames?_eq_none (names : Names) {bs : List Block}
    (h : ∀ x ∈ bs, x.names? = none) : replaceNames? names bs = none := by
  induction bs with
  | nil => rfl
  | cons x bs ih =>
    rw [List.forall_mem_cons] at h
    rw [replaceNames?_cons names h.1, ih h.2]
    rfl

theorem replaceNames?_append (names : Names) {inner : List Block}
    (hi : ∀ x ∈ inner, x.names? = none) {b : FunctionBlock} (hb : b.isAnonymous = false)
    (outer : List Block) :
    replaceNames? names (inner ++ .function b :: outer) =
      some (inner ++ .function { b with names } :: outer) := by
  induction inner with
  | nil => simp [replaceNames?, hb]
  | cons x inner ih =>
    rw [List.forall_mem_cons] at hi
    rw [List.cons_append, replaceNames?_cons names hi.1, ih hi.2]
    rfl

/-- Blocks without names, or an innermost function that has some. -/
theorem names_cases : ∀ bs : List Block, (∀ x ∈ bs, x.names? = none) ∨
    ∃ inner b outer, bs = inner ++ .function b :: outer ∧ b.isAnonymous = false ∧
      ∀ x ∈ inner, x.names? = none
  | [] => .inl (by simp)
  | x :: bs => by
    cases hx : x.names? with
    | none =>
      rcases names_cases bs with h | ⟨inner, b, outer, rfl, hb, hi⟩
      · exact .inl (List.forall_mem_cons.2 ⟨hx, h⟩)
      · exact .inr ⟨x :: inner, b, outer, rfl, hb, List.forall_mem_cons.2 ⟨hx, hi⟩⟩
    | some names =>
      cases x with
      | function b =>
        refine .inr ⟨[], b, bs, rfl, ?_, by simp⟩
        by_contra hb
        simp [Block.names?, hb] at hx
      | loop b | chain c => cases hx

theorem names_of_none (h : ∀ x ∈ d.blocks, x.names? = none) : d.names = d.globals := by
  rw [names, List.findSome?_eq_none_iff.2 h]
  rfl

theorem names_of_append {inner outer : List Block} {b : FunctionBlock}
    (hd : d.blocks = inner ++ .function b :: outer) (hb : b.isAnonymous = false)
    (hi : ∀ x ∈ inner, x.names? = none) : d.names = b.names := by
  rw [names, hd, List.findSome?_append, List.findSome?_eq_none_iff.2 hi]
  simp [Block.names?, hb]

theorem setNames_of_none (h : ∀ x ∈ d.blocks, x.names? = none) (names : Names) :
    d.setNames names = { d with globals := names } := by
  rw [setNames, replaceNames?_eq_none names h]

theorem setNames_of_append {inner outer : List Block} {b : FunctionBlock}
    (hd : d.blocks = inner ++ .function b :: outer) (hb : b.isAnonymous = false)
    (hi : ∀ x ∈ inner, x.names? = none) (names : Names) :
    d.setNames names = { d with blocks := inner ++ .function { b with names } :: outer } := by
  rw [setNames, hd, replaceNames?_append names hi hb]

/-- The names that were set are those that can be used. -/
theorem names_setNames (d : Desk) (names : Names) : (d.setNames names).names = names := by
  rcases names_cases d.blocks with h | ⟨inner, b, outer, hd, hb, hi⟩
  · rw [setNames_of_none h]
    exact names_of_none h
  · rw [setNames_of_append hd hb hi]
    exact names_of_append rfl (b := { b with names }) hb hi

theorem setNames_setNames (d : Desk) (n₁ n₂ : Names) :
    (d.setNames n₁).setNames n₂ = d.setNames n₂ := by
  rcases names_cases d.blocks with h | ⟨inner, b, outer, hd, hb, hi⟩
  · rw [setNames_of_none h, setNames_of_none h]
    exact setNames_of_none (d := { d with globals := n₁ }) h n₂
  · rw [setNames_of_append hd hb hi, setNames_of_append hd hb hi,
      setNames_of_append rfl (b := { b with names := n₁ }) hb hi]

theorem setNames_names (d : Desk) : d.setNames d.names = d := by
  rcases names_cases d.blocks with h | ⟨inner, b, outer, hd, hb, hi⟩
  · rw [setNames_of_none h, names_of_none h]
  · rw [setNames_of_append hd hb hi, names_of_append hd hb hi, ← hd]

theorem names?_add (b : Block) (code : List Asm) : (b.add code).names? = b.names? := by
  cases b <;> rfl

theorem names_added (d : Desk) (code : List Asm) : (d.added code).names = d.names := by
  unfold added
  split
  · rfl
  · next b blocks hb => simp only [names, hb, List.findSome?_cons, names?_add]

theorem setNames_added (d : Desk) (names : Names) (code : List Asm) :
    (d.added code).setNames names = (d.setNames names).added code := by
  unfold added setNames
  cases hd : d.blocks with
  | nil => rfl
  | cons x bs =>
    simp only
    cases hx : x.names? with
    | none =>
      rw [replaceNames?_cons names hx, replaceNames?_cons names ((names?_add x code).trans hx)]
      cases replaceNames? names bs with
      | none => simp
      | some bs' => rfl
    | some n =>
      cases x with
      | function b =>
        by_cases hb : b.isAnonymous = true
        · simp [Block.names?, hb] at hx
        · have hb' : ¬ (b.add code).isAnonymous = true := hb
          simp only [Block.add, replaceNames?, if_neg hb, if_neg hb']
          rfl
      | loop b | chain c => cases hx

/-! ## Code -/

theorem add_add (x : Block) (a b : List Asm) : (x.add a).add b = x.add (a ++ b) := by
  cases x with
  | function f => simp [Block.add, FunctionBlock.add]
  | loop l => simp [Block.add, LoopBlock.add]
  | chain c =>
    obtain ⟨clauses, state⟩ := c
    cases clauses <;> simp [Block.add, Chain.add]

theorem added_added (d : Desk) (a b : List Asm) : (d.added a).added b = d.added (a ++ b) := by
  unfold added
  cases d.blocks with
  | nil => simp
  | cons x bs => simp [add_add]

theorem added_nil (d : Desk) : d.added [] = d := by
  unfold added
  split
  · simp
  · next x bs hd =>
    have hx : x.add [] = x := by
      cases x with
      | function f => simp [Block.add, FunctionBlock.add]
      | loop l => simp [Block.add, LoopBlock.add]
      | chain c =>
        obtain ⟨clauses, state⟩ := c
        cases clauses <;> simp [Block.add, Chain.add]
    rw [hx, ← hd]

end Naskah.Desk
