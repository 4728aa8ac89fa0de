/-
  Pieces of code: what statements and finished blocks add to the block around them.  A piece keeps
  the stack as it is, uses every label it marks, and jumps only to its own labels and to those of
  the loop around it.

  Loops, chains and functions that are made of pieces become pieces again (`LoopBlock.finish_piece`,
  `Chain.code_piece`, `FunctionBlock.finish_yields`), and a named function that is made of one can
  be assembled.
-/
import Naskah.Block
import Naskah.Proofs.Machine.Slots

namespace Naskah

/-- Code that can stand in a program of `n` chunks, inside a loop with the labels `outer`. -/
structure Piece (n : Nat) (outer : List Label) (c : List Asm) : Prop where
  effects : Asm.effects n c [] = some []
  used : ∀ l ∈ Asm.marks c, l ∈ Asm.targets c
  placed : ∀ l ∈ Asm.targets c, l ∈ Asm.marks c ∨ l ∈ outer

namespace Piece

variable {n n' : Nat} {outer : List Label} {a b : List Asm}

theorem nil : Piece n outer [] :=
  ⟨rfl, by simp, by simp⟩

theorem append (ha : Piece n outer a) (hb : Piece n outer b) : Piece n outer (a ++ b) where
  effects := by rw [Asm.effects_append, ha.effects]; exact hb.effects
  used := by
    intro l hl
    rw [Asm.marks_append, List.mem_append] at hl
    rw [Asm.targets_append, List.mem_append]
    exact hl.imp (ha.used l) (hb.used l)
  placed := by
    intro l hl
    rw [Asm.targets_append, List.mem_append] at hl
    rw [Asm.marks_append, List.mem_append]
    rcases hl with hl | hl
    · exact (ha.placed l hl).imp_left .inl
    · exact (hb.placed l hl).imp_left .inr

theorem mono (hn : n ≤ n') (h : Piece n outer a) : Piece n' outer a :=
  ⟨Asm.effects_mono hn h.effects, h.used, h.placed⟩

/-- Code without labels. -/
theorem of_straight (he : Asm.effects n a [] = some []) (hm : Asm.marks a = [])
    (ht : Asm.targets a = []) : Piece n outer a :=
  ⟨he, by simp [hm], by simp [ht]⟩

/-- A jump out of the loop around. -/
theorem jump {l : Label} (hl : l ∈ outer) : Piece n outer [.op (.jump l)] where
  effects := rfl
  used := by simp
  placed := by
    intro l' hl'
    obtain rfl : l' = l := by simpa [Instr.target?, eq_comm] using hl'
    exact .inr hl

end Piece

/-! ## Expressions -/

theorem marks_flatten_eq_nil {groups : List (List Asm)} (h : ∀ g ∈ groups, Asm.marks g = []) :
    Asm.marks groups.flatten = [] := by
  induction groups with
  | nil => rfl
  | cons g groups ih =>
    rw [List.flatten_cons, Asm.marks_append, h g (by simp), ih fun g' hg => h g' (by simp [hg])]
    rfl

theorem targets_flatten_eq_nil {groups : List (List Asm)} (h : ∀ g ∈ groups, Asm.targets g = []) :
    Asm.targets groups.flatten = [] := by
  induction groups with
  | nil => rfl
  | cons g groups ih =>
    rw [List.flatten_cons, Asm.targets_append, h g (by simp), ih fun g' hg => h g' (by simp [hg])]
    rfl

namespace ExpressionCode

@[simp] theorem marks {c : List Asm} (h : ExpressionCode c) : Asm.marks c = [] := by
  induction h with
  | const _ | name _ => rfl
  | join _ ih => simp [Expression.joinCode, marks_flatten_eq_nil ih]
  | call f _ _ ih => simp [marks_flatten_eq_nil ih]
  | binary op _ _ ihl ihr | compare c _ _ ihl ihr => simp [ihl, ihr]

@[simp] theorem targets {c : List Asm} (h : ExpressionCode c) : Asm.targets c = [] := by
  induction h with
  | const _ | name _ => rfl
  | join _ ih => simp [Expression.joinCode, targets_flatten_eq_nil ih, Instr.target?]
  | call f _ _ ih => simp [targets_flatten_eq_nil ih, Instr.target?]
  | binary op _ _ ihl ihr | compare c _ _ ihl ihr => simp [ihl, ihr, Instr.target?]

variable {n : Nat} {outer : List Label} {e : List Asm}

theorem store (he : ExpressionCode e) (x : String) : Piece n outer (e ++ [.op (.storeName x)]) :=
  .of_straight (by rw [Asm.effects_append, he.effects]; rfl) (by simp [he.marks])
    (by simp [he.targets, Instr.target?])

theorem drop (he : ExpressionCode e) : Piece n outer (e ++ [.op .pop]) :=
  .of_straight (by rw [Asm.effects_append, he.effects]; rfl) (by simp [he.marks])
    (by simp [he.targets, Instr.target?])

theorem ret (he : ExpressionCode e) : Piece n outer (e ++ [.op .ret]) :=
  .of_straight (by rw [Asm.effects_append, he.effects]; rfl) (by simp [he.marks])
    (by simp [he.targets, Instr.target?])

end ExpressionCode

/-! ## Loops -/

/-- A loop whose guard is an expression and whose body is a piece. -/
structure LoopBlock.Built (n : Nat) (b : LoopBlock) : Prop where
  guard : ExpressionCode b.guard
  body : Piece n [b.start, b.stop] b.body

theorem LoopBlock.marks_finish {n : Nat} {b : LoopBlock} (h : b.Built n) :
    Asm.marks b.finish = b.start :: Asm.marks b.body ++ [b.stop] := by
  simp [finish, h.guard.marks]

theorem LoopBlock.finish_piece {n : Nat} {outer : List Label} {b : LoopBlock} (h : b.Built n) :
    Piece n outer b.finish where
  effects := by
    simp only [finish, Asm.effects_append, Asm.effects_cons, Asm.effect, noSlots, Asm.effects_nil,
      h.guard.effects, Option.bind_some, Instr.effect, takeValues, h.body.effects]
  used := by
    intro l hl
    rw [marks_finish h] at hl
    simp only [List.cons_append, List.mem_cons, List.mem_append, List.not_mem_nil, or_false] at hl
    simp only [finish, Asm.targets_append, List.mem_append]
    rcases hl with rfl | hl | rfl
    · exact .inr (by simp [Instr.target?])
    · exact .inl (.inr (h.body.used l hl))
    · exact .inl (.inl (.inr (by simp [Instr.target?])))
  placed := by
    intro l hl
    left
    rw [marks_finish h]
    have hl : l = b.stop ∨ l ∈ Asm.targets b.body ∨ l = b.start := by
      simpa [finish, h.guard.targets, Instr.target?] using hl
    rcases hl with rfl | hl | rfl
    · simp
    · rcases h.body.placed l hl with hl | hl
      · simp [hl]
      · rcases List.mem_cons.1 hl with rfl | hl
        · simp
        · rw [List.mem_singleton.1 hl]; simp
    · simp

/-! ## Chains -/

/-- The labels that a clause marks. -/
def Clause.marks (cl : Clause) : List Label :=
  Asm.marks (cl.guard.getD []) ++ Asm.marks cl.body

/-- A clause whose guard is an expression and whose body is a piece. -/
structure Clause.Built (n : Nat) (outer : List Label) (cl : Clause) : Prop where
  guard : ∀ g ∈ cl.guard, ExpressionCode g
  body : Piece n outer cl.body

/-- A chain of such clauses; the first one has a guard. -/
structure Chain.Built (n : Nat) (outer : List Label) (c : Chain) : Prop where
  clauses : ∀ cl ∈ c.clauses, cl.Built n outer
  first : ∃ cl, c.clauses.getLast? = some cl ∧ cl.guard.isSome = true

namespace Chain

variable {n : Nat} {outer : List Label} (exit : Label)

theorem emitClause_piece {cl : Clause} {rest : List Asm} (labels : LabelSupply)
    (hcl : cl.Built n outer) (hr : Piece n (exit :: outer) rest) :
    Piece n (exit :: outer) (emitClause exit cl rest labels).1 := by
  have hb : Piece n (exit :: outer) cl.body :=
    ⟨hcl.body.effects, hcl.body.used, fun l hl => (hcl.body.placed l hl).imp_right (.tail _)⟩
  unfold emitClause
  split
  · exact hb
  · next g hg =>
    have hge : ExpressionCode g := hcl.guard g hg
    refine Piece.append ?_ hr
    constructor
    · simp only [Asm.effects_append, Asm.effects_cons, Asm.effect, noSlots, Asm.effects_nil,
        hge.effects, Option.bind_some, Instr.effect, takeValues, hb.effects]
    · intro l hl
      have hl : l ∈ Asm.marks cl.body ∨ l = labels.fresh.1 := by simpa [hge.marks] using hl
      rcases hl with hl | rfl
      · simp [hb.used l hl]
      · simp [Instr.target?]
    · intro l hl
      have hl : l = labels.fresh.1 ∨ l ∈ Asm.targets cl.body ∨ l = exit := by
        simpa [hge.targets, Instr.target?] using hl
      rcases hl with rfl | hl | rfl
      · simp
      · rcases hb.placed l hl with hl | hl
        · simp [hl]
        · exact .inr hl
      · simp

theorem emitClauses_cons (cl : Clause) (cls : List Clause) (rest : List Asm)
    (labels : LabelSupply) :
    emitClauses exit (cl :: cls) rest labels =
      emitClauses exit cls (emitClause exit cl rest labels).1 (emitClause exit cl rest labels).2 :=
  rfl

theorem emitClauses_piece : ∀ {cls : List Clause} {rest : List Asm} (labels : LabelSupply),
    (∀ cl ∈ cls, cl.Built n outer) → Piece n (exit :: outer) rest →
      Piece n (exit :: outer) (emitClauses exit cls rest labels).1
  | [], _, _, _, hr => hr
  | cl :: cls, rest, labels, h, hr => by
    rw [emitClauses_cons exit]
    exact emitClauses_piece _ (fun cl' hcl => h cl' (by simp [hcl]))
      (emitClause_piece exit labels (h cl (by simp)) hr)

/-- The first clause jumps to the exit. -/
theorem exit_mem_targets : ∀ {cls : List Clause} {cl : Clause} (rest : List Asm)
    (labels : LabelSupply), cls.getLast? = some cl → cl.guard.isSome = true →
      exit ∈ Asm.targets (emitClauses exit cls rest labels).1
  | [], _, _, _, hl, _ => by cases hl
  | [cl'], cl, rest, labels, hl, hg => by
    obtain rfl : cl' = cl := Option.some.inj hl
    obtain ⟨g, hg⟩ := Option.isSome_iff_exists.1 hg
    simp [emitClauses, emitClause, hg, Instr.target?]
  | cl' :: cl'' :: cls, cl, rest, labels, hl, hg => by
    rw [emitClauses_cons exit]
    have hl' : (cl'' :: cls).getLast? = some cl := by rw [← hl]; rfl
    exact exit_mem_targets _ _ hl' hg

/-- A chain goes on or is complete after a clause; its clauses stay as they are.  After the last
    clause it is complete. -/
theorem closeClause_cases (c : Chain) (follows : Bool) :
    follows = true ∧ (∀ clause ∈ c.clauses.head?, clause.kind ≠ .last) ∧
        c.closeClause follows = ⟨c.clauses, .chained⟩ ∨
      c.closeClause follows = ⟨c.clauses, .resolved⟩ := by
  obtain ⟨clauses, state⟩ := c
  cases follows with
  | false => exact .inr (by simp [closeClause])
  | true =>
    cases clauses with
    | nil => exact .inl ⟨rfl, by simp, rfl⟩
    | cons clause clauses =>
      by_cases h : clause.kind = .last
      · exact .inr (by simp [closeClause, h])
      · refine .inl ⟨rfl, ?_, by simp [closeClause, h]⟩
        rintro _ ⟨⟩
        exact h

/-- The labels that are left after the code of clauses. -/
theorem next_emitClauses (exit : Label) : ∀ (clauses : List Clause) (rest : List Asm)
    (labels : LabelSupply), (emitClauses exit clauses rest labels).2 =
      ⟨labels.next + clauses.countP (·.guard.isSome)⟩
  | [], _, _ => rfl
  | c :: clauses, rest, labels => by
    rw [emitClauses_cons, next_emitClauses exit clauses, emitClause, List.countP_cons]
    cases c.guard with
    | none => simp
    | some g =>
      simp only [LabelSupply.fresh, Option.isSome_some, if_true, LabelSupply.mk.injEq]
      omega

/-- The code of a chain that is complete. -/
def code (c : Chain) (labels : LabelSupply) : List Asm :=
  (emitClauses labels.fresh.1 c.clauses [] labels.fresh.2).1 ++ [.mark labels.fresh.1]

/-- The labels that are left after the code of a chain. -/
def supplyAfter (c : Chain) (labels : LabelSupply) : LabelSupply :=
  (emitClauses labels.fresh.1 c.clauses [] labels.fresh.2).2

theorem emit_eq {c : Chain} (labels : LabelSupply) (hs : c.state = .resolved) :
    c.emit labels = .ok (c.code labels, ⟨[], .emitted⟩, c.supplyAfter labels) := by
  unfold emit
  rw [if_neg (by simp [hs])]
  rfl

theorem of_emit {c c' : Chain} {labels labels' : LabelSupply} {code : List Asm}
    (h : c.emit labels = .ok (code, c', labels')) : c.state = .resolved ∧ code = c.code labels ∧
      c' = ⟨[], .emitted⟩ ∧ labels' = c.supplyAfter labels := by
  by_cases hs : c.state = .resolved
  · rw [emit_eq labels hs] at h
    cases h
    exact ⟨hs, rfl, rfl, rfl⟩
  · rw [emit, if_pos hs] at h
    cases h

/-- How often a label was handed out between two supplies. -/
def handedOut (before after : LabelSupply) (l : Label) : Nat :=
  if before.next ≤ l.index ∧ l.index < after.next then 1 else 0

theorem count_singleton (x l : Label) : [x].count l = if x.index = l.index then 1 else 0 := by
  cases x; cases l
  simp [List.count_singleton]

/-- A new label, and the labels after it. -/
theorem handedOut_fresh {labels after : LabelSupply} (h : labels.fresh.2.next ≤ after.next)
    (l : Label) :
    [labels.fresh.1].count l + handedOut labels.fresh.2 after l = handedOut labels after l := by
  simp only [LabelSupply.fresh] at h
  simp only [count_singleton, handedOut, LabelSupply.fresh]
  grind

theorem fresh_next (labels : LabelSupply) : labels.fresh.2.next = labels.next + 1 := rfl

/-- The marks in the code of clauses are those of the clauses, and new ones. -/
theorem count_emitClauses (l : Label) : ∀ (cls : List Clause) (rest : List Asm)
    (labels : LabelSupply),
      labels.next ≤ (emitClauses exit cls rest labels).2.next ∧
      (Asm.marks (emitClauses exit cls rest labels).1).count l ≤
        (Asm.marks rest).count l + (cls.flatMap Clause.marks).count l +
          handedOut labels (emitClauses exit cls rest labels).2 l
  | [], rest, labels => by simp [emitClauses]
  | cl :: cls, rest, labels => by
    obtain ⟨hle, hc⟩ := count_emitClauses l cls (emitClause exit cl rest labels).1
      (emitClause exit cl rest labels).2
    rw [emitClauses_cons exit, List.flatMap_cons, List.count_append]
    revert hle hc
    generalize emitClauses exit cls (emitClause exit cl rest labels).1
      (emitClause exit cl rest labels).2 = r
    intro hle hc
    cases hg : cl.guard with
    | none =>
      simp only [emitClause, hg] at hle hc
      have hm : cl.marks = Asm.marks cl.body := by simp [Clause.marks, hg]
      rw [hm]
      exact ⟨hle, by omega⟩
    | some g =>
      have he : (Asm.marks (emitClause exit cl rest labels).1).count l =
          cl.marks.count l + [labels.fresh.1].count l + (Asm.marks rest).count l := by
        simp [emitClause, Clause.marks, hg, List.count_cons]
        omega
      have hl : (emitClause exit cl rest labels).2 = labels.fresh.2 := by simp [emitClause, hg]
      rw [hl] at hle hc
      have hf := handedOut_fresh hle l
      rw [fresh_next] at hle
      exact ⟨by omega, by omega⟩

theorem count_marks_code (c : Chain) (labels : LabelSupply) (l : Label) :
    labels.next ≤ (c.supplyAfter labels).next ∧
      (Asm.marks (c.code labels)).count l ≤ (c.clauses.flatMap Clause.marks).count l +
        handedOut labels (c.supplyAfter labels) l := by
  obtain ⟨hle, hc⟩ := count_emitClauses labels.fresh.1 l c.clauses [] labels.fresh.2
  have hf := handedOut_fresh hle l
  have he : (Asm.marks (c.code labels)).count l =
      (Asm.marks (emitClauses labels.fresh.1 c.clauses [] labels.fresh.2).1).count l +
        [labels.fresh.1].count l := by
    rw [code, Asm.marks_append, List.count_append]
    rfl
  rw [Asm.marks_nil, List.count_nil] at hc
  rw [fresh_next] at hle
  unfold supplyAfter
  exact ⟨by omega, by omega⟩

/-- Expressions have no marks. -/
theorem count_code {c : Chain} (labels : LabelSupply) (l : Label)
    (h : ∀ cl ∈ c.clauses, ∀ g ∈ cl.guard, ExpressionCode g) :
    labels.next ≤ (c.supplyAfter labels).next ∧
      (Asm.marks (c.code labels)).count l ≤ (c.clauses.flatMap fun cl => Asm.marks cl.body).count l +
        handedOut labels (c.supplyAfter labels) l := by
  have hm : c.clauses.flatMap Clause.marks = c.clauses.flatMap fun cl => Asm.marks cl.body := by
    refine List.flatMap_congr fun cl hcl => ?_
    cases hg : cl.guard with
    | none => simp [Clause.marks, hg]
    | some g => simp [Clause.marks, hg, (h cl hcl g hg).marks]
  rw [← hm]
  exact c.count_marks_code labels l

theorem code_piece {c : Chain} (labels : LabelSupply) (h : c.Built n outer) :
    Piece n outer (c.code labels) := by
  obtain ⟨cl, hl, hg⟩ := h.first
  have hp := emitClauses_piece labels.fresh.1 labels.fresh.2 h.clauses .nil
  have hx := exit_mem_targets labels.fresh.1 [] labels.fresh.2 hl hg
  constructor
  · rw [code, Asm.effects_append, hp.effects]; rfl
  · intro l hm
    rw [code, Asm.marks_append, List.mem_append] at hm
    rw [code, Asm.targets_append, List.mem_append]
    rcases hm with hm | hm
    · exact .inl (hp.used l hm)
    · obtain rfl : l = labels.fresh.1 := List.mem_singleton.1 hm
      exact .inl hx
  · intro l ht
    rw [code, Asm.targets_append, List.mem_append] at ht
    rw [code, Asm.marks_append, List.mem_append]
    rcases ht with ht | ht
    · rcases hp.placed l ht with ht | ht
      · exact .inl (.inl ht)
      · rcases List.mem_cons.1 ht with rfl | ht
        · exact .inl (.inr (List.mem_singleton.2 rfl))
        · exact .inr ht
    · cases ht

end Chain

/-! ## Functions -/

theorem returnNull_marks : Asm.marks FunctionBlock.returnNull = [] := rfl

theorem returnNull_targets : Asm.targets FunctionBlock.returnNull = [] := rfl

/-- **A piece can be assembled**, after code without labels that takes the arguments. -/
theorem Piece.assemble {n : Nat} {entry : List Slot} {header c : List Asm}
    (he : Asm.effects n header entry = some []) (hm : Asm.marks header = [])
    (ht : Asm.targets header = []) (hc : Piece n [] c) (hd : (Asm.marks c).Nodup) :
    ∃ code, Asm.assemble (header ++ c ++ FunctionBlock.returnNull) = .ok code ∧
      Verified n entry code := by
  have hok : ∃ code, Asm.assemble (header ++ c ++ FunctionBlock.returnNull) = .ok code := by
    refine ⟨_, Asm.assemble_eq_ok_iff.2 ⟨?_, ?_, ?_, rfl⟩⟩
    · simpa [hm, returnNull_marks] using hd
    · simpa [hm, ht, returnNull_marks, returnNull_targets] using hc.used
    · simpa [hm, ht, returnNull_marks, returnNull_targets] using hc.placed
  obtain ⟨code, hok⟩ := hok
  refine ⟨code, hok, Verified.of_assemble ?_ hok⟩
  rw [Asm.effects_append, he]
  exact hc.effects

theorem Verified.mono {n n' : Nat} (hn : n ≤ n') {entry : List Slot} {code : List Instruction}
    (h : Verified n entry code) : Verified n' entry code where
  total := by
    obtain ⟨slots, hs⟩ := Option.isSome_iff_exists.1 h.total
    rw [Instr.effects_mono hn hs]; rfl
  jumps i hi t ht := (h.jumps i hi t ht).imp_right (Instr.effects_mono hn)
  returns := h.returns

namespace FunctionBlock

/-- Storing the parameters takes as many values. -/
theorem effects_header {n : Nat} (params : List Param) :
    Asm.effects n (params.map fun p => .op (.storeName p.name))
      (List.replicate params.length .value) = some [] := by
  induction params with
  | nil => rfl
  | cons p params ih => exact ih

theorem marks_header (b : FunctionBlock) : Asm.marks b.header = [] := by
  unfold header
  split
  · rfl
  all_goals
    induction b.params with
    | nil => rfl
    | cons p params ih => exact ih

theorem targets_header (b : FunctionBlock) : Asm.targets b.header = [] := by
  unfold header
  split
  · rfl
  all_goals
    induction b.params with
    | nil => rfl
    | cons p params ih => exact ih

/-- The code of the entry point. -/
def entryCode (exit : Label) (content : List Asm) : List Asm :=
  [.op (.loadName "__name__"), .op (.loadConst (.string "__main__")), .op (.compare .eq)] ++
    [.op (.jumpIfFalse exit)] ++ content ++ [.mark exit]

theorem finish_entry {b : FunctionBlock} {exit : Label} (hr : b.role = .entry exit)
    (chunks : List Chunk) : b.finish chunks = .ok (entryCode exit b.content, chunks) := by
  unfold finish header
  simp only [hr]
  rfl

theorem entryCode_piece {n : Nat} (exit : Label) {content : List Asm} (h : Piece n [] content) :
    Piece n [] (entryCode exit content) where
  effects := by
    rw [entryCode, Asm.effects_append, Asm.effects_append]
    show (Asm.effects n content []).bind _ = _
    rw [h.effects]
    rfl
  used := by
    intro l hl
    have hl : l ∈ Asm.marks content ∨ l = exit := by simpa [entryCode] using hl
    rcases hl with hl | rfl
    · simp [entryCode, h.used l hl]
    · simp [entryCode, Instr.target?]
  placed := by
    intro l hl
    have hl : l = exit ∨ l ∈ Asm.targets content := by simpa [entryCode, Instr.target?] using hl
    rcases hl with rfl | hl
    · simp [entryCode]
    · rcases h.placed l hl with hl | hl
      · simp [entryCode, hl]
      · cases hl

/-- The code that binds a chunk to the name of its function. -/
def bindCode (index : Nat) (name : String) : List Asm :=
  [.op (.loadConst (.chunk index)), .op (.makeFunction name), .op (.storeName name)]

theorem bindCode_piece {n index : Nat} (h : index < n) (outer : List Label) (name : String) :
    Piece n outer (bindCode index name) := by
  refine .of_straight ?_ rfl rfl
  simp [bindCode, Asm.effect, Instr.effect, constSlot, h, takeChunk, takeValues]

/-- **A named function becomes a chunk**, whose code is verified. -/
theorem finish_named {b : FunctionBlock} {name : String} {chunks : List Chunk}
    (hr : b.role = .named name) (h : Piece chunks.length [] b.content)
    (hd : (Asm.marks b.content).Nodup) :
    ∃ code, b.finish chunks =
        .ok (bindCode chunks.length name, chunks ++ [⟨name, b.params, code, b.line⟩]) ∧
      Verified chunks.length (List.replicate b.params.length .value) code := by
  have he : Asm.effects chunks.length b.header (List.replicate b.params.length .value) =
      some [] := by
    unfold header
    simp only [hr]
    exact effects_header b.params
  obtain ⟨code, hok, hv⟩ := Piece.assemble he b.marks_header b.targets_header h hd
  refine ⟨code, ?_, hv⟩
  simp only [finish, hr, close, hok]
  rfl

/-- A function without a name and parameters is its body. -/
theorem finish_anonymous {b : FunctionBlock} (hr : b.role = .anonymous) (hp : b.params = [])
    (chunks : List Chunk) : b.finish chunks = .ok (b.content, chunks) := by
  unfold finish header
  simp only [hr, hp]
  rfl

end FunctionBlock

end Naskah
