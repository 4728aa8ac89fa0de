/-
  The bodies of loops: pieces of code, jumps out of the body, and chains and loops made of such
  code in turn (`Composed`).  A path through a body leaves it at its end or with a jump to one of
  the outer labels, and has as many operands then as at the beginning (`Composed.neutral`).  What a
  loop inside of the body jumps to is inside of the body.
-/
import Naskah.Proofs.Block.ChainRuns

namespace Naskah

open Asm Machine
open Naskah.Tree (clauseAsm)

/-! ## Leaving a block -/

/-- The last offset of a path through a block is that of a jump to a label. -/
def JumpsTo (a : List Asm) (pos : Nat) (e : Label) (l : List Nat) : Prop :=
  ∃ a₁ a₂ l', a = a₁ ++ .op (.jump e) :: a₂ ∧ l = l' ++ [pos + size a₁]

/-- A jump in the middle of a block is a jump of the block. -/
theorem JumpsTo.middle {a b c code : List Asm} {mid pos : Nat} {e : Label} {l : List Nat}
    (h : JumpsTo b mid e l) (l₀ : List Nat) (hcode : code = a ++ b ++ c)
    (hmid : mid = pos + size a) : JumpsTo code pos e (l₀ ++ l) := by
  obtain ⟨b₁, b₂, l', rfl, rfl⟩ := h
  refine ⟨a ++ b₁, b₂ ++ c, l₀ ++ l', by simp [hcode], ?_⟩
  rw [hmid, size_append, List.append_assoc, Nat.add_assoc]

/-- How a block is left: with as many operands as at its beginning, at its end or with a jump to an
    outer label. -/
structure Left (ρ : Label → Nat) (exits : List Label) (a : List Asm) (pos : Nat) (m : Machine)
    (l : List Nat) (m' : Machine) : Prop where
  height : m'.stack.length = m.stack.length
  place : m'.current.ip = pos + size a ∨ ∃ e ∈ exits, m'.current.ip = ρ e ∧ JumpsTo a pos e l

theorem Left.after {ρ : Label → Nat} {exits : List Label} {a : List Asm} {pos : Nat}
    {m m₁ m' : Machine} {l : List Nat} (h : Left ρ exits a pos m₁ l m') (l₀ : List Nat)
    (hm : m₁.stack.length = m.stack.length) : Left ρ exits a pos m (l₀ ++ l) m' := by
  refine ⟨h.height.trans hm, h.place.imp_right ?_⟩
  rintro ⟨e, he, hip, hj⟩
  exact ⟨e, he, hip, hj.middle (a := []) (c := []) l₀ (List.append_nil _).symm rfl⟩

/-- Code that is left so whenever it is left, wherever it stands. -/
def Neutral (p : Program) (exits : List Label) (a : List Asm) : Prop :=
  ∀ ⦃ρ : Label → Nat⦄ ⦃whole : List Instruction⦄ ⦃pos : Nat⦄ ⦃m m' : Machine⦄ ⦃l : List Nat⦄,
    Located ρ whole pos a → (∀ e ∈ exits, ¬ Inner pos (pos + size a) (ρ e)) →
      m.current.code p = .ok whole → m.current.ip = pos →
        Leaves p pos (pos + size a) m l m' → Left ρ exits a pos m l m'

section
variable {p : Program} {m m' : Machine} {l : List Nat} {ρ : Label → Nat} {pos lo hi t : Nat}
  {whole : List Instruction} {exits : List Label} {a b : List Asm}

theorem Machine.Leaves.jump (h : Leaves p lo hi m l m') (hm : Inner lo hi m.current.ip)
    (hc : m.current.code p = .ok whole) (hj : whole[m.current.ip]? = some (.jump t))
    (ht : t ≤ whole.length) :
    ∃ l', l = m.current.ip :: l' ∧ Leaves p lo hi (m.jumped t) l' m' := by
  obtain ⟨m₁, l', rfl, hstride, h⟩ := h.uncons hm
  rw [stride_jump_iff hc hj ht] at hstride
  subst hstride
  exact ⟨l', rfl, h⟩

/-- A block that is left when its end is reached. -/
theorem Left.of_end {m₁ : Machine} {l₁ l₂ : List Nat} (h : Leaves p pos (pos + size a) m₁ l₂ m')
    (hh : m₁.stack.length = m.stack.length) (hip : m₁.current.ip = pos + size a) :
    Left ρ exits a pos m l₁ m' := by
  obtain ⟨-, rfl⟩ := h.eq_nil fun hin => absurd hin.2 (by omega)
  exact ⟨hh, .inl hip⟩

/-- A block that is left with a jump to an outer label. -/
theorem Left.of_jump {m₁ : Machine} {l₁ l₂ : List Nat} {e : Label}
    (h : Leaves p pos (pos + size a) m₁ l₂ m') (hh : m₁.stack.length = m.stack.length)
    (he : e ∈ exits) (hip : m₁.current.ip = ρ e) (hj : JumpsTo a pos e l₁)
    (hout : ∀ e ∈ exits, ¬ Inner pos (pos + size a) (ρ e)) :
    Left ρ exits a pos m (l₁ ++ l₂) m' := by
  obtain ⟨rfl, rfl⟩ := h.eq_nil (hip ▸ hout e he)
  rw [List.append_nil]
  exact ⟨hh, .inr ⟨e, he, hip, hj⟩⟩

/-- A guard and its test: afterwards the machine is behind the test or at its target, with as many
    operands as before. -/
theorem Located.leaves_guard (hs : Located ρ whole pos a) (hclosed : Closed [] a)
    (hraise : Raises p a 1) (hc : m.current.code p = .ok whole) (hip : m.current.ip = pos)
    (htest : whole[pos + size a]? = some (.jumpIfFalse t)) (ht : t ≤ whole.length) (hlo : lo ≤ pos)
    (hhi : pos + size a < hi) (h : Leaves p lo hi m l m') :
    ∃ l₁ m₁ l₂, l = l₁ ++ l₂ ∧ l₁ ≠ [] ∧ m₁.current.code p = .ok whole ∧
      m₁.stack.length = m.stack.length ∧ (m₁.current.ip = pos + size a + 1 ∨ m₁.current.ip = t) ∧
      Leaves p lo hi m₁ l₂ m' := by
  obtain ⟨l₁, m₁, l₂, rfl, h₁, h⟩ := h.split pos (pos + size a) hlo (by omega)
  have hip₁ := hclosed.leaves hs hc hip h₁
  have hheight := hraise hs hc hip h₁ hip₁
  have hc₁ : m₁.current.code p = .ok whole := by rw [h₁.path.code, hc]
  obtain ⟨m₂, l₂, rfl, hstride, h⟩ := h.uncons ⟨by omega, by omega⟩
  rw [← hip₁] at htest
  obtain ⟨v, rest, hstack, rfl⟩ := (stride_jumpIfFalse_iff hc₁ htest ht).1 hstride
  have hrest : rest.length = m.stack.length := by
    rw [hstack, List.length_cons] at hheight
    omega
  refine ⟨l₁ ++ [m₁.current.ip], m₁.tested t v rest, l₂, by simp, by simp, hc₁, hrest, ?_, h⟩
  cases hv : v.isTruthy with
  | true =>
    rw [tested_of_truthy hv, ← hip₁]
    exact .inl rfl
  | false =>
    rw [tested_of_falsy hv]
    exact .inr rfl

namespace Neutral

/-- A block in the middle of others. -/
theorem split (ha : Neutral p exits a) (hs : Located ρ whole pos a)
    (hout : ∀ e ∈ exits, ¬ Inner pos (pos + size a) (ρ e)) (hc : m.current.code p = .ok whole)
    (hip : m.current.ip = pos) (hlo : lo ≤ pos) (hhi : pos + size a ≤ hi)
    (h : Leaves p lo hi m l m') :
    ∃ l₁ m₁ l₂, l = l₁ ++ l₂ ∧ Left ρ exits a pos m l₁ m₁ ∧ m₁.current.code p = .ok whole ∧
      Leaves p lo hi m₁ l₂ m' := by
  obtain ⟨l₁, m₁, l₂, rfl, h₁, h⟩ := h.split pos (pos + size a) hlo hhi
  exact ⟨l₁, m₁, l₂, rfl, ha hs hout hc hip h₁, by rw [h₁.path.code, hc], h⟩

theorem piece (hclosed : Closed [] a) (hraise : Raises p a 0) : Neutral p exits a := by
  intro ρ whole pos m m' l hs _ hc hip h
  have hend := hclosed.leaves hs hc hip h
  have hheight := hraise hs hc hip h hend
  exact ⟨by omega, .inl hend⟩

theorem nil : Neutral p exits [] :=
  piece ⟨by simp, by simp⟩ .nil

theorem jump {e : Label} (he : e ∈ exits) : Neutral p exits [.op (.jump e)] := by
  intro ρ whole pos m m' l hs hout hc hip h
  subst hip
  obtain ⟨hi, -⟩ := Located.op_iff.1 hs
  obtain ⟨m₁, l', rfl, hstride, h⟩ := h.uncons ⟨Nat.le_refl _, by simp⟩
  have hnext : m.Next p (.jump (ρ e)) := ⟨whole, hc, hi⟩
  have hheight := hstride.height hnext (.inl nofun)
  have hplace : m₁.current.ip = m.current.ip + 1 ∨ m₁.current.ip = ρ e := by
    obtain ⟨i, hi', hip⟩ := hstride.ip
    obtain rfl := hi'.unique hnext
    exact hip.imp_right fun h => (Option.some.inj h).symm
  have hleft : ¬ Inner m.current.ip (m.current.ip + size [.op (.jump e)]) m₁.current.ip := by
    rcases hplace with hip | hip
    · exact fun h => absurd h.2 (by simp [hip])
    · exact hip ▸ hout e he
  obtain ⟨rfl, rfl⟩ := h.eq_nil hleft
  refine ⟨hheight.symm, hplace.imp_right fun hip => ⟨e, he, hip, [], [], [], rfl, rfl⟩⟩

theorem append (ha : Neutral p exits a) (hb : Neutral p exits b) : Neutral p exits (a ++ b) := by
  intro ρ whole pos m m' l hs hout hc hip h
  obtain ⟨hsa, hsb⟩ := Located.append_iff.1 hs
  rw [size_append] at hout h
  obtain ⟨l₁, m₁, l₂, rfl, ⟨hheight, hplace⟩, hc₁, h⟩ := ha.split hsa
    (fun e he hin => hout e he (hin.mono (Nat.le_refl _) (by omega))) hc hip (Nat.le_refl _)
    (by omega) h
  rw [← size_append] at h hout
  rcases hplace with hip₁ | ⟨e, he, hip₁, hj⟩
  · obtain ⟨l₃, m₂, l₄, rfl, ⟨hheight₂, hplace⟩, -, h⟩ := hb.split hsb
      (fun e he hin => hout e he (hin.mono (by omega) (by rw [size_append]; omega))) hc₁ hip₁
      (Nat.le_add_right _ _) (by rw [size_append]; omega) h
    have hheight₂ := hheight₂.trans hheight
    rcases hplace with hip₂ | ⟨e, he, hip₂, hj⟩
    · exact .of_end h hheight₂ (by rw [size_append]; omega)
    · rw [← List.append_assoc]
      have hcode : a ++ b = a ++ b ++ [] := (List.append_nil _).symm
      exact .of_jump h hheight₂ he hip₂ (hj.middle l₁ hcode rfl) hout
  · exact .of_jump h hheight he hip₁ (hj.middle [] (a := []) rfl rfl) hout

end Neutral

/-- A guard, its test and a body: afterwards the machine is at the target of the test, at the end of
    the body, or where a jump of the body leads to. -/
theorem Located.leaves_body (hsg : Located ρ whole pos a) (hclosed : Closed [] a)
    (hraise : Raises p a 1) (htest : whole[pos + size a]? = some (.jumpIfFalse t))
    (ht : t ≤ whole.length) (hsb : Located ρ whole (pos + size a + 1) b) (hbody : Neutral p exits b)
    (hout : ∀ e ∈ exits, ¬ Inner (pos + size a + 1) (pos + size a + 1 + size b) (ρ e))
    (hc : m.current.code p = .ok whole) (hip : m.current.ip = pos)
    (hhi : pos + size a + 1 + size b < hi) (h : Leaves p pos hi m l m') :
    ∃ l₁ m₁ l₂, l = l₁ ++ l₂ ∧ l₁ ≠ [] ∧ m₁.current.code p = .ok whole ∧
      m₁.stack.length = m.stack.length ∧ Leaves p pos hi m₁ l₂ m' ∧
      (m₁.current.ip = t ∨ m₁.current.ip = pos + size a + 1 + size b ∨
        ∃ e ∈ exits, m₁.current.ip = ρ e ∧ JumpsTo b (pos + size a + 1) e l₁) := by
  obtain ⟨l₁, m₁, l₂, rfl, hne, hc₁, hheight, hip₁, h₁⟩ := hsg.leaves_guard hclosed hraise hc hip
    htest ht (Nat.le_refl _) (by omega) h
  rcases hip₁ with hip₁ | hip₁
  · obtain ⟨l₃, m₂, l₄, rfl, hleft, hc₂, h₂⟩ := hbody.split hsb hout hc₁ hip₁ (by omega)
      (by omega) h₁
    have hleft := hleft.after l₁ hheight
    exact ⟨l₁ ++ l₃, m₂, l₄, by simp, by simp [hne], hc₂, hleft.height, h₂, .inr hleft.place⟩
  · exact ⟨l₁, m₁, l₂, rfl, hne, hc₁, hheight, h₁, .inl hip₁⟩

/-- The code of clauses is left at its end or by jumps of their bodies. -/
theorem Laid.left {exit : Label} {cs : List Clause} {code : List Asm} (h : Laid exit cs code)
    (hguard : ∀ cl ∈ cs, ∀ g ∈ cl.guard, Closed [] g ∧ Raises p g 1)
    (hbody : ∀ cl ∈ cs, Neutral p exits cl.body) (hs : Located ρ whole pos code)
    (hexit : ρ exit = pos + size code)
    (hout : ∀ e ∈ exits, ¬ Inner pos (pos + size code) (ρ e)) (hc : m.current.code p = .ok whole)
    (hip : m.current.ip = pos) (hl : Leaves p pos (pos + size code) m l m') :
    Left ρ exits code pos m l m' := by
  induction h generalizing pos m l m' with
  | nil => exact Neutral.nil hs hout hc hip hl
  | last =>
    rw [List.forall_mem_singleton] at hbody
    exact hbody hs hout hc hip hl
  | @guarded cl g next cs rest hg _ ih =>
    rw [List.forall_mem_cons] at hguard hbody
    obtain ⟨hsg, htest, hsb, hjump, hnext, hsr⟩ := hs.clause
    have hsize := size_clauseAsm g cl.body rest next exit
    have hlen := hs.le_length (by omega)
    have hpart : clauseAsm g cl.body next exit rest = (g ++ [.op (.jumpIfFalse next)]) ++
        cl.body ++ ([.op (.jump exit), .mark next] ++ rest) := by simp [clauseAsm]
    have hlast : clauseAsm g cl.body next exit rest = (g ++ [.op (.jumpIfFalse next)] ++ cl.body ++
        [.op (.jump exit), .mark next]) ++ rest ++ [] := by simp [clauseAsm]
    obtain ⟨l₁, m₁, l₂, rfl, -, hc₁, hheight, hl₁, hplace⟩ := hsg.leaves_body (hguard.1 g hg).1
      (hguard.1 g hg).2 htest (by omega) hsb hbody.1
      (fun e he hin => hout e he (hin.mono (by omega) (by omega))) hc hip (by omega) hl
    rcases hplace with hip₁ | hip₁ | ⟨e, he, hip₁, hj⟩
    · obtain ⟨l₃, m₂, l₄, rfl, hrest, hl₂⟩ := hl₁.split (pos + size g + 1 + size cl.body + 1)
        (pos + size g + 1 + size cl.body + 1 + size rest) (by omega) (by omega)
      obtain ⟨hheight₂, hplace⟩ := ih hguard.2 hbody.2 hsr (by omega)
        (fun e he hin => hout e he (hin.mono (by omega) (by omega))) hc₁ (by omega) hrest
      have hheight₂ := hheight₂.trans hheight
      rcases hplace with hip₂ | ⟨e, he, hip₂, hj⟩
      · exact .of_end hl₂ hheight₂ (by omega)
      · rw [← List.append_assoc]
        exact .of_jump hl₂ hheight₂ he hip₂ (hj.middle l₁ hlast (by simp; omega)) hout
    · rw [← hip₁] at hjump
      obtain ⟨l₃, rfl, hl₂⟩ := hl₁.jump ⟨by omega, by omega⟩ hc₁ hjump (by omega)
      exact .of_end hl₂ hheight hexit
    · exact .of_jump hl₁ hheight he hip₁ (hj.middle [] hpart (by simp; omega)) hout

/-- **Chains.** -/
theorem Neutral.chain {c : Chain} (hc : c.Complete)
    (hguard : ∀ cl ∈ c.clauses, ∀ g ∈ cl.guard, Closed [] g ∧ Raises p g 1)
    (hbody : ∀ cl ∈ c.clauses, Neutral p exits cl.body) (labels : LabelSupply) :
    Neutral p exits (c.code labels) := by
  intro ρ whole pos m m' l hs hout hcode hip hl
  obtain ⟨code, heq, hlaid⟩ := hc.laid labels
  have hsize : size (c.code labels) = size code := by simp [heq]
  rw [hsize] at hout hl
  rw [heq, Located.append_iff, Located.mark_iff] at hs
  obtain ⟨hs, hexit, -⟩ := hs
  obtain ⟨hheight, hplace⟩ := hlaid.left (fun cl hcl => hguard cl (List.mem_reverse.1 hcl))
    (fun cl hcl => hbody cl (List.mem_reverse.1 hcl)) hs hexit hout hcode hip hl
  refine ⟨hheight, hplace.imp (by simp [hsize]) ?_⟩
  rintro ⟨e, he, hip, hj⟩
  exact ⟨e, he, hip, hj.middle [] (a := []) heq rfl⟩

/-- Where the parts of a loop stand. -/
theorem Located.loop {b : LoopBlock} (h : Located ρ whole pos b.finish) :
    ρ b.start = pos ∧ Located ρ whole pos b.guard ∧
      whole[pos + size b.guard]? = some (.jumpIfFalse (ρ b.stop)) ∧
      Located ρ whole (pos + size b.guard + 1) b.body ∧
      whole[pos + size b.guard + 1 + size b.body]? = some (.jump (ρ b.start)) ∧
      ρ b.stop = pos + size b.guard + 1 + size b.body + 1 := by
  simp only [LoopBlock.finish, List.append_assoc, List.cons_append, List.nil_append, append_iff,
    op_iff, mark_iff] at h
  obtain ⟨hstart, hg, ht, hb, hj, hstop, -⟩ := h
  exact ⟨hstart, hg, ht, hb, hj, hstop⟩

theorem size_finish (b : LoopBlock) :
    size b.finish = size b.guard + 1 + size b.body + 1 := by
  simp only [LoopBlock.finish, size_append, size_op, size_mark, size_nil]
  omega

/-- **Loops.**  The induction is on the path: from each round on it is shorter. -/
theorem Neutral.loop {b : LoopBlock} (hguard : Closed [] b.guard) (hraise : Raises p b.guard 1)
    (hbody : Neutral p (b.start :: b.stop :: exits) b.body) : Neutral p exits b.finish := by
  intro ρ whole pos m m' l hs hout hc hip hl
  obtain ⟨hstart, hsg, htest, hsb, hjump, hstop⟩ := hs.loop
  have hsize := size_finish b
  have hlen := hs.le_length (by omega)
  have hout' : ∀ e ∈ b.start :: b.stop :: exits,
      ¬ Inner (pos + size b.guard + 1) (pos + size b.guard + 1 + size b.body) (ρ e) := by
    rintro e he ⟨hlo, hhi⟩
    rcases List.mem_cons.1 he with rfl | he
    · omega
    rcases List.mem_cons.1 he with rfl | he
    · omega
    · exact hout e he ⟨by omega, by omega⟩
  induction hn : l.length using Nat.strongRecOn generalizing m l with
  | _ n ih =>
    obtain ⟨l₁, m₁, l₂, rfl, hne, hc₁, hheight, hl₁, hplace⟩ := hsg.leaves_body hguard hraise htest
      (by omega) hsb hbody hout' hc hip (by omega) hl
    have hshort : l₂.length < n := by
      have := List.length_pos_iff.2 hne
      rw [List.length_append] at hn
      omega
    rcases hplace with hip₁ | hip₁ | ⟨e, he, hip₁, hj⟩
    · exact .of_end hl₁ hheight (by omega)
    · -- the end of the body: back to the guard
      rw [← hip₁] at hjump
      obtain ⟨l₃, rfl, hl₂⟩ := hl₁.jump ⟨by omega, by omega⟩ hc₁ hjump (by omega)
      rw [List.length_cons] at hshort
      have hc₂ : (m₁.jumped (ρ b.start)).current.code p = .ok whole := hc₁
      rw [List.append_cons]
      exact (ih l₃.length (by omega) hc₂ hstart hl₂ rfl).after _ hheight
    rcases List.mem_cons.1 he with rfl | he
    · exact (ih l₂.length hshort hc₁ (hip₁.trans hstart) hl₁ rfl).after _ hheight
    rcases List.mem_cons.1 he with rfl | he
    · exact .of_end hl₁ hheight (by omega)
    · have hcode : b.finish = ([.mark b.start] ++ b.guard ++ [.op (.jumpIfFalse b.stop)]) ++
          b.body ++ [.op (.jump b.start), .mark b.stop] := rfl
      exact .of_jump hl₁ hheight he hip₁ (hj.middle [] hcode (by simp; omega)) hout

end

/-! ## Composed code -/

/-- Code made of pieces with labels of their own that keep the number of operands, of jumps to outer
    labels, and of chains and loops. -/
inductive Composed (p : Program) : List Label → List Asm → Prop
  | piece {exits : List Label} {a : List Asm} (hclosed : Closed [] a) (hraise : Raises p a 0) :
      Composed p exits a
  | jump {exits : List Label} {e : Label} (he : e ∈ exits) : Composed p exits [.op (.jump e)]
  | append {exits : List Label} {a b : List Asm} (ha : Composed p exits a)
      (hb : Composed p exits b) : Composed p exits (a ++ b)
  | chain {exits : List Label} {c c' : Chain} {labels labels' : LabelSupply} {code : List Asm}
      (hc : c.Complete) (hclosed : ∀ cl ∈ c.clauses, ∀ g ∈ cl.guard, Closed [] g)
      (hraise : ∀ cl ∈ c.clauses, ∀ g ∈ cl.guard, Raises p g 1)
      (hbody : ∀ cl ∈ c.clauses, Composed p exits cl.body)
      (h : c.emit labels = .ok (code, c', labels')) : Composed p exits code
  | loop {exits : List Label} {b : LoopBlock} (hclosed : Closed [] b.guard)
      (hraise : Raises p b.guard 1) (hbody : Composed p (b.start :: b.stop :: exits) b.body) :
      Composed p exits b.finish

theorem LoopBlock.closed_finish {b : LoopBlock} {outer : List Label} (hguard : Closed [] b.guard)
    (hbody : Closed (b.start :: b.stop :: outer) b.body) : Closed outer b.finish := by
  have htest : Closed (b.start :: b.stop :: outer) [.op (.jumpIfFalse b.stop)] :=
    .op (by simp [Instr.target?])
  have hjump : Closed (b.start :: b.stop :: outer) [.op (.jump b.start)] :=
    .op (by simp [Instr.target?])
  have hround := (((hguard.mono (by simp)).append htest).append hbody).append hjump
  have hmarked := (hround.mark_first (by simp [Instr.target?])).mark_last (by simp [Instr.target?])
  simpa [finish] using hmarked

namespace Composed

variable {p : Program} {exits : List Label} {a : List Asm}

theorem closed (h : Composed p exits a) : Closed exits a := by
  induction h with
  | piece hclosed _ => exact hclosed.mono (by simp)
  | jump he => exact .op (by simpa [Instr.target?] using he)
  | append _ _ iha ihb => exact iha.append ihb
  | chain hc hclosed _ _ h ih =>
    obtain ⟨-, rfl, -⟩ := Chain.of_emit h
    exact hc.closed (fun cl hcl => ⟨hclosed cl hcl, ih cl hcl⟩) _
  | loop hclosed _ _ ih => exact LoopBlock.closed_finish hclosed ih

end Composed

end Naskah
