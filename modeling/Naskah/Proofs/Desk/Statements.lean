/-
  The code of statements.  Whatever the tokens of a statement are, its code is a piece that may
  leave the loop around it, and all that it changes on the desk are names (`statement_yields`).
-/
import Naskah.Compile.Statement
import Naskah.Proofs.Block.Pieces

namespace Naskah

/-- The labels of the loop around, to which jumps may lead. -/
def exits (blocks : List Block) : List Label :=
  match Desk.loop? blocks with
  | some b => [b.start, b.stop]
  | none => []

theorem mem_exits {blocks : List Block} {b : LoopBlock} (h : Desk.loop? blocks = some b) :
    b.start ∈ exits blocks ∧ b.stop ∈ exits blocks := by
  simp [exits, h]

namespace Desk

variable {d : Desk} {line : UInt32} {tokens : List Token}

theorem illegal_yields {α : Type} {P : α → Prop} (t : Token) :
    Yields (Expression.illegal t line) P :=
  Yields.refuse _ _

theorem typeOf_yields (hs : ∀ t ∈ tokens, t.Sound) :
    Yields (typeOf line tokens) fun r => ∀ t ∈ r.2, t.Sound := by
  unfold typeOf
  split
  · exact Yields.ok fun t ht => hs t (by simp [ht])
  · exact illegal_yields _
  · exact Yields.ok hs

theorem initialValue_yields {kind : NameKind} {name : String} (hs : ∀ t ∈ tokens, t.Sound) :
    Yields (d.initialValue kind name line tokens) ExpressionCode := by
  unfold initialValue
  split
  · split
    · exact Yields.refuse _ _
    · exact Yields.ok (.const rfl)
  · exact Expression.compile_yields _ line fun t ht => hs t (by simp [ht])
  · exact illegal_yields _

theorem declare_yields (t : Names) (name : String) (info : NameInfo) :
    Yields (t.declare name info) fun _ => True := by
  unfold Names.declare
  split
  · exact Yields.refuse _ _
  · trivial

/-- Statements give a piece of code without marks, and change at most the names. -/
def Stated (d : Desk) (n : Nat) (r : List Asm × Desk) : Prop :=
  Piece n (exits d.blocks) r.1 ∧ Asm.marks r.1 = [] ∧
    (r.2 = d ∨ ∃ names, r.2 = d.setNames names)

theorem declaration_yields {kind : NameKind} (n : Nat) (hs : ∀ t ∈ tokens, t.Sound) :
    Yields (d.declaration kind line tokens) (d.Stated n) := by
  unfold declaration
  split
  · exact Yields.refuse _ _
  · refine (typeOf_yields fun t ht => hs t (by simp [ht])).bind fun r _ hr => ?_
    refine (initialValue_yields hr).bind fun value _ hv => ?_
    refine (declare_yields _ _ _).bind fun names _ _ => ?_
    exact Yields.pure ⟨hv.store _, by simp [hv.marks], .inr ⟨names, rfl⟩⟩
  · exact illegal_yields _

theorem assignable_yields (t : Names) (name : String) (line : UInt32) :
    Yields (t.assignable name line) fun _ => True := by
  unfold Names.assignable Names.reference
  split
  · refine Yields.bind (P := fun _ => True) trivial fun info _ _ => ?_
    split
    · exact Yields.refuse _ _
    · trivial
  · exact Yields.refuse _ _

theorem compoundOperand_yields {c : Compound} (hs : ∀ t ∈ tokens, t.Sound) :
    Yields (d.compoundOperand c line tokens) ExpressionCode := by
  unfold compoundOperand
  split
  · split
    · exact Yields.ok (.const rfl)
    · exact illegal_yields _
  · exact Expression.compile_yields _ line hs

theorem loopJump_yields {k : Keyword} {jump : LoopBlock → Asm} {n : Nat}
    (hj : ∀ b, loop? d.blocks = some b →
      Piece n (exits d.blocks) [jump b] ∧ Asm.marks [jump b] = []) :
    Yields (d.loopJump k jump line tokens) fun code =>
      Piece n (exits d.blocks) code ∧ Asm.marks code = [] := by
  unfold loopJump
  split
  · exact illegal_yields _
  · split
    · next b hb => exact Yields.ok (hj b hb)
    · exact Yields.refuse _ _

/-- The code of a compound assignment. -/
theorem compound_piece {n : Nat} {outer : List Label} {e : List Asm} (he : ExpressionCode e)
    (x : String) (op : Operation) :
    Piece n outer ([.op (.loadName x)] ++ e ++ [.op (.binary op), .op (.storeName x)]) := by
  have hc : ExpressionCode ([.op (.loadName x)] ++ e ++ [.op (.binary op)]) :=
    .binary op (.name x) he
  simpa using hc.store x

theorem plainStatement_yields (n : Nat) (hs : ∀ t ∈ tokens, t.Sound) :
    Yields (d.plainStatement line tokens) fun code =>
      Piece n (exits d.blocks) code ∧ Asm.marks code = [] ∧
        tokens.head? ≠ some (.keyword .otherwise) := by
  unfold plainStatement
  split
  · next rest =>
    split
    · exact Yields.refuse _ _
    · simp only
      split
      · exact Yields.pure ⟨ExpressionCode.ret (.const rfl), rfl, by simp⟩
      · refine (Expression.compile_yields _ line fun t ht => hs t (by simp [ht])).bind
          fun e _ he => ?_
        exact Yields.pure ⟨he.ret, by simp [he.marks], by simp⟩
  · refine (loopJump_yields fun b hb => ?_).mono fun code hc => ⟨hc.1, hc.2, by simp⟩
    exact ⟨Piece.jump (mem_exits hb).2, rfl⟩
  · refine (loopJump_yields fun b hb => ?_).mono fun code hc => ⟨hc.1, hc.2, by simp⟩
    exact ⟨Piece.jump (mem_exits hb).1, rfl⟩
  · exact Yields.refuse _ _
  · exact Yields.refuse _ _
  · exact Yields.refuse _ _
  · exact Yields.refuse _ _
  · exact Yields.refuse _ _
  · refine (assignable_yields _ _ _).bind fun _ _ _ => ?_
    refine (Expression.compile_yields _ line fun t ht => hs t (by simp [ht])).bind fun e _ he => ?_
    exact Yields.pure ⟨he.store _, by simp [he.marks], by simp⟩
  · refine (assignable_yields _ _ _).bind fun _ _ _ => ?_
    refine (compoundOperand_yields fun t ht => hs t (by simp [ht])).bind fun e _ he => ?_
    exact Yields.pure ⟨compound_piece he _ _, by simp [he.marks], by simp⟩
  · next ho _ _ =>
    refine (Expression.compile_yields _ line hs).bind fun e _ he => ?_
    refine Yields.pure ⟨he.drop, by simp [he.marks], ?_⟩
    intro hh
    obtain ⟨rest, rfl⟩ := List.head?_eq_some_iff.1 hh
    exact ho rest rfl

/-- **The code of a statement is a piece.**  A statement never begins with the word that continues
    a chain. -/
theorem statement_yields (n : Nat) (hs : ∀ t ∈ tokens, t.Sound) :
    Yields (d.statement line tokens) fun r =>
      d.Stated n r ∧ tokens.head? ≠ some (.keyword .otherwise) := by
  unfold statement
  split
  · exact (declaration_yields n fun t ht => hs t (by simp [ht])).mono fun r hr => ⟨hr, by simp⟩
  · exact (declaration_yields n fun t ht => hs t (by simp [ht])).mono fun r hr => ⟨hr, by simp⟩
  · refine (plainStatement_yields n hs).bind fun code _ hc => ?_
    exact Yields.pure ⟨⟨hc.1, hc.2.1, .inl rfl⟩, hc.2.2⟩

end Desk

end Naskah
