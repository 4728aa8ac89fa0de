/-
  Chunks on a desk.  Every chunk that is complete is loaded once in all of the code, finished or
  not (`Move.once`): the code of a block is handed over to the block around it as a whole, and that
  of a function to its chunk.  For chains this takes some care, since a clause without a guard
  drops what comes after it; only the last clause has none (`Move.guarded`).
-/
import Naskah.Proofs.Desk.Register

namespace Naskah

/-! ## Chains -/

/-- A chain in which only the latest clause can be without a guard, and no clause follows one that
    is. -/
structure Chain.Guarded (c : Chain) : Prop where
  nonempty : c.clauses ≠ []
  guard : ∀ cl ∈ c.clauses, cl.kind ≠ .last → cl.guard.isSome = true
  former : ∀ cl ∈ c.clauses.tail, cl.guard.isSome = true
  chained : c.state = .chained → ∀ cl ∈ c.clauses.head?, cl.kind ≠ .last

namespace Chain.Guarded

variable {c : Chain} {cl : Clause}

theorem add (h : c.Guarded) (code : List Asm) : (c.add code).Guarded := by
  obtain ⟨clauses, state⟩ := c
  cases clauses with
  | nil => exact h
  | cons cl cls =>
    obtain ⟨-, hg, hf, hc⟩ := h
    rw [List.forall_mem_cons] at hg
    refine ⟨by simp [Chain.add], List.forall_mem_cons.2 ⟨hg.1, hg.2⟩, hf, fun hs => ?_⟩
    rintro _ ⟨⟩
    exact hc hs cl rfl

/-- Another clause can follow the latest one, if that has a guard. -/
theorem push (h : c.Guarded) (hs : c.state = .chained)
    (hg : cl.kind ≠ .last → cl.guard.isSome = true) : Guarded ⟨cl :: c.clauses, .filling⟩ := by
  refine ⟨by simp, List.forall_mem_cons.2 ⟨hg, h.guard⟩, fun cl' hcl => ?_, nofun⟩
  have hcl : cl' ∈ c.clauses := hcl
  obtain ⟨first, rest, he⟩ := List.exists_cons_of_ne_nil h.nonempty
  rw [he] at hcl
  rcases List.mem_cons.1 hcl with rfl | hcl
  · exact h.guard cl' (by simp [he]) (h.chained hs cl' (by simp [he]))
  · exact h.former cl' (by simpa [he] using hcl)

end Chain.Guarded

namespace Desk

variable {c : Cursor} {d d' : Desk} {code : List Asm}

/-- All chains under construction are guarded. -/
def Guarded (d : Desk) : Prop :=
  ∀ c, .chain c ∈ d.blocks → c.Guarded

theorem Guarded.added (h : d.Guarded) (code : List Asm) : (d.added code).Guarded := by
  unfold Desk.added
  split
  · exact h
  · next b bs he =>
    intro c hc
    rcases List.mem_cons.1 hc with hb | hc
    · cases b with
      | function b | loop b => cases hb
      | chain c' =>
        cases hb
        exact (h c' (by simp [he])).add code
    · exact h c (by simp [he, hc])

theorem Guarded.setNames (h : d.Guarded) (names : Names) : (d.setNames names).Guarded := by
  unfold Desk.setNames
  split
  · next bs hr =>
    obtain ⟨inner, b, outer, he, rfl, -⟩ := replaceNames?_eq_some hr
    intro c hc
    refine h c ?_
    rw [he]
    simpa using hc
  · exact h

theorem Move.guarded {awaited : Option Token} (hm : Move c d awaited d') (h : d.Guarded) :
    d'.Guarded := by
  have cons : ∀ {b : Block} {bs : List Block}, d.blocks = b :: bs → ∀ c, .chain c ∈ bs →
      c.Guarded := fun hb c hc => h c (by rw [hb]; exact List.mem_cons_of_mem _ hc)
  cases hm with
  | stay | collect | openRound | closeRound | closeHeader | openString | closeString => exact h
  | statement _ _ _ _ hd =>
    rcases hd with rfl | ⟨names, rfl⟩
    · exact Guarded.added (d := d.clear) h _
    · exact Guarded.added (Guarded.setNames (d := d.clear) h names) _
  | openHole | beginFunction | beginEntry | beginLoop =>
    intro c hc
    rcases List.mem_cons.1 hc with hb | hc
    · cases hb
    · exact h c hc
  | closeHole _ _ hb => exact cons hb
  | beginChain =>
    intro c hc
    rcases List.mem_cons.1 hc with hb | hc
    · cases hb
      exact ⟨by simp [Chain.start], by simp [Chain.start], by simp [Chain.start], nofun⟩
    · exact h c hc
  | beginFurther _ hb hs =>
    intro c hc
    rcases List.mem_cons.1 hc with he | hc
    · cases he
      exact (h _ (by simp [hb])).push hs fun _ => rfl
    · exact cons hb c hc
  | beginLast _ _ _ hb hs =>
    intro c hc
    rcases List.mem_cons.1 hc with he | hc
    · cases he
      exact (h _ (by simp [hb])).push hs fun hk => absurd rfl hk
    · exact cons hb c hc
  | @endFunction nesting b blocks code chunks _ _ _ hb =>
    exact Guarded.added (d := { d with nesting, blocks, chunks }) (cons hb) _
  | @endLoop nesting b blocks _ _ _ hb =>
    exact Guarded.added (d := { d with nesting, blocks }) (cons hb) _
  | @endClause nesting chain blocks _ _ _ hb _ hk =>
    intro c hc
    rcases List.mem_cons.1 hc with he | hc
    · cases he
      obtain ⟨hn, hg, hf, -⟩ := h chain (by rw [hb]; simp)
      exact ⟨hn, hg, hf, fun _ => hk⟩
    · exact cons hb c hc
  | @endChain nesting chain blocks _ _ _ hb =>
    exact Guarded.added (d := { d with nesting, blocks, labels := chain.supplyAfter d.labels })
      (cons hb) _

end Desk

/-! ## Counting -/

/-- How often code loads a chunk. -/
def Asm.loads (k : Nat) (code : List Asm) : Nat :=
  (Asm.instrs code).count (.loadConst (.chunk k))

/-- How often the code of a block loads a chunk. -/
def Block.loads (k : Nat) (b : Block) : Nat :=
  Asm.loads k b.codes.flatten

section
variable {k : Nat} {a b code : List Asm}

@[simp] theorem Asm.loads_nil : Asm.loads k [] = 0 := rfl

@[simp] theorem Asm.loads_append : Asm.loads k (a ++ b) = Asm.loads k a + Asm.loads k b := by
  rw [loads, instrs_append, List.count_append]
  rfl

/-- An entry that binds no function loads no chunk. -/
theorem Asm.loads_cons {i : Instr Label} (hi : i.binds = false) :
    Asm.loads k (.op i :: code) = Asm.loads k code := by
  rw [loads, instrs_op, List.count_cons_of_ne]
  · rfl
  · rintro rfl
    cases hi

@[simp] theorem Asm.loads_mark (l : Label) : Asm.loads k (.mark l :: code) = Asm.loads k code := rfl

theorem ExpressionCode.loads (h : ExpressionCode code) : Asm.loads k code = 0 := by
  refine List.count_eq_zero.2 fun hm => ?_
  obtain ⟨a, ha, hia⟩ := List.mem_filterMap.1 hm
  obtain ⟨i, rfl, hi⟩ := h.computes a ha
  cases hia
  cases hi

theorem LoopBlock.loads_finish (b : LoopBlock) : Asm.loads k b.finish = (Block.loop b).loads k := by
  simp only [finish, Block.loads, Block.codes, Asm.loads_append, Asm.loads_mark, Asm.loads_nil,
    Asm.loads_cons (i := .jumpIfFalse b.stop) rfl, Asm.loads_cons (i := .jump b.start) rfl,
    List.flatten_cons, List.flatten_nil]
  omega

theorem FunctionBlock.loads_entryCode (exit : Label) :
    Asm.loads k (entryCode exit code) = Asm.loads k code := by
  rw [entryCode, Asm.loads_append, Asm.loads_append, Asm.loads_append,
    Asm.loads_cons (i := .loadName "__name__") rfl,
    Asm.loads_cons (i := .loadConst (.string "__main__")) rfl,
    Asm.loads_cons (i := .compare .eq) rfl, Asm.loads_cons (i := .jumpIfFalse exit) rfl]
  simp

theorem FunctionBlock.loads_bindCode {n : Nat} {name : String} :
    Asm.loads k (bindCode n name) = if n = k then 1 else 0 := by
  have hm : Asm.loads k [.op (.makeFunction name), .op (.storeName name)] = 0 := by
    simp [Asm.loads]
  have hc : Asm.loads k (bindCode n name) =
      Asm.loads k [.op (.makeFunction name), .op (.storeName name)] + if n = k then 1 else 0 := by
    simp [bindCode, Asm.loads, List.count_cons]
  rw [hc, hm, Nat.zero_add]

/-- The loads of clauses of which each has a guard. -/
theorem Chain.loads_emitClauses (exit : Label) : ∀ {cls : List Clause} {rest : List Asm}
    {labels : LabelSupply}, (∀ cl ∈ cls, cl.guard.isSome = true) →
      Asm.loads k (emitClauses exit cls rest labels).1 =
        Asm.loads k (cls.flatMap fun cl => cl.guard.toList ++ [cl.body]).flatten +
          Asm.loads k rest
  | [], _, _, _ => by simp [emitClauses]
  | cl :: cls, rest, labels, h => by
    rw [List.forall_mem_cons] at h
    obtain ⟨g, hg⟩ := Option.isSome_iff_exists.1 h.1
    rw [emitClauses_cons, loads_emitClauses exit h.2]
    have hj : Asm.loads k [.op (.jump exit), .mark labels.fresh.1] = 0 := rfl
    have hf : Asm.loads k [.op (.jumpIfFalse labels.fresh.1)] = 0 := rfl
    simp only [emitClause, hg, Asm.loads_append, hj, hf, List.flatMap_cons, Option.toList_some,
      List.flatten_append, List.flatten_cons, List.flatten_nil, Asm.loads_nil]
    omega

/-- **A chain hands over all of its code.** -/
theorem Chain.loads_code {c : Chain} (h : c.Guarded) (labels : LabelSupply) :
    Asm.loads k (c.code labels) = (Block.chain c).loads k := by
  obtain ⟨clauses, state⟩ := c
  cases clauses with
  | nil => exact absurd rfl h.nonempty
  | cons cl cls =>
    have hcl : ∀ labels' : LabelSupply, Asm.loads k (emitClause labels.fresh.1 cl [] labels').1 =
        Asm.loads k (cl.guard.toList ++ [cl.body]).flatten := by
      intro labels'
      have hj : Asm.loads k [.op (.jump labels.fresh.1), .mark labels'.fresh.1] = 0 := rfl
      have hf : Asm.loads k [.op (.jumpIfFalse labels'.fresh.1)] = 0 := rfl
      unfold emitClause
      split
      · next hg => simp [hg]
      · next g hg =>
        simp only [hg, Asm.loads_append, hj, hf, Asm.loads_nil, Option.toList_some,
          List.flatten_append, List.flatten_cons, List.flatten_nil]
        omega
    have hcls : ∀ cl' ∈ cls, cl'.guard.isSome = true := h.former
    simp only [code, emitClauses_cons, Asm.loads_append, loads_emitClauses _ hcls, hcl,
      Block.loads, Block.codes, List.flatMap_cons, List.flatten_append,
      Asm.loads_mark, Asm.loads_nil]
    omega

theorem Block.loads_add {b : Block} (h : ∀ c, b = .chain c → c.clauses ≠ []) :
    (b.add code).loads k = b.loads k + Asm.loads k code := by
  cases b with
  | function b => simp [Block.loads, Block.codes, Block.add, FunctionBlock.add]
  | loop b =>
    simp [Block.loads, Block.codes, Block.add, LoopBlock.add]
    omega
  | chain c =>
    obtain ⟨clauses, state⟩ := c
    cases clauses with
    | nil => exact absurd rfl (h _ rfl)
    | cons cl cls =>
      simp [Block.loads, Block.codes, Block.add, Chain.add]
      omega

end

namespace Desk

variable {c : Cursor} {d d' : Desk} {code : List Asm} {k : Nat}

/-- How often the code on a desk loads a chunk. -/
def loads (k : Nat) (d : Desk) : Nat :=
  Asm.loads k d.code + Asm.loads k (d.blocks.flatMap fun b => b.codes.flatten) +
    (d.chunks.flatMap Chunk.code).count (.loadConst (.chunk k))

/-- Every chunk that is complete is loaded once, and no other. -/
def Once (d : Desk) : Prop :=
  ∀ k, d.loads k = if k < d.chunks.length then 1 else 0

theorem loads_added (h : d.Guarded) : (d.added code).loads k = d.loads k + Asm.loads k code := by
  unfold added loads
  split
  · next he =>
    simp only [he, Asm.loads_append]
    omega
  · next b bs he =>
    have hb : (b.add code).loads k = b.loads k + Asm.loads k code :=
      Block.loads_add fun c hc => (h c (by rw [he, hc]; simp)).nonempty
    rw [Block.loads, Block.loads] at hb
    simp only [he, List.flatMap_cons, Asm.loads_append, hb]
    omega

theorem loads_setNames (names : Names) : (d.setNames names).loads k = d.loads k := by
  unfold setNames
  split
  · next bs hr =>
    obtain ⟨inner, b, outer, he, rfl, -⟩ := replaceNames?_eq_some hr
    simp only [loads, he, List.flatMap_append, List.flatMap_cons, Block.codes]
  · rfl

/-- The code of a statement loads no chunks. -/
theorem Does.loads {R : String → Prop} {tokens : List Token} {d₁ : Desk}
    (h : d.Does R tokens code d₁) : Asm.loads k code = 0 := by
  cases h with
  | declares _ he | assigns _ he => rw [Asm.loads_append, he.loads]; rfl
  | drops he | returns he => rw [Asm.loads_append, he.loads]; rfl
  | leaves => rfl

theorem Once.of_eq (h : d.Once) (hl : ∀ k, d'.loads k = d.loads k) (hc : d'.chunks = d.chunks) :
    d'.Once := by
  intro k
  rw [hl, hc]
  exact h k

/-- A block is finished without a new chunk. -/
theorem Once.finish {b : Block} {bs : List Block} {nesting : Nesting} {labels : LabelSupply}
    (h : d.Once) (hg : d.Guarded) (hb : d.blocks = b :: bs)
    (hc : ∀ k, Asm.loads k code = b.loads k) :
    ({ d with nesting, blocks := bs, labels }.added code).Once := by
  refine h.of_eq (fun k => ?_) chunks_added
  have hg' : Guarded { d with nesting, blocks := bs, labels } :=
    fun c hc => hg c (by rw [hb]; exact List.mem_cons_of_mem _ hc)
  rw [loads_added hg', hc]
  simp only [loads, hb, List.flatMap_cons, Asm.loads_append, Block.loads]
  omega

theorem count_relabel {f : Label → Nat} {code : List (Instr Label)} :
    (code.map (Instr.relabel f)).count (.loadConst (.chunk k)) =
      code.count (.loadConst (.chunk k)) := by
  induction code with
  | nil => rfl
  | cons i code ih =>
    have hi : (i.relabel f == .loadConst (.chunk k)) = (i == .loadConst (.chunk k)) := by
      rw [Bool.eq_iff_iff, beq_iff_eq, beq_iff_eq]
      cases i <;> simp [Instr.relabel]
    rw [List.map_cons, List.count_cons, List.count_cons, ih, hi]

theorem loads_params (params : List Param) :
    Asm.loads k (params.map fun p => .op (.storeName p.name)) = 0 := by
  induction params with
  | nil => rfl
  | cons p params ih => exact (Asm.loads_cons rfl).trans ih

theorem loads_assemble {content : List Asm} {params : List Param} {assembled : List Instruction}
    (h : Asm.assemble (params.map (fun p => .op (.storeName p.name)) ++ content ++
      FunctionBlock.returnNull) = .ok assembled) :
    assembled.count (.loadConst (.chunk k)) = Asm.loads k content := by
  obtain ⟨-, -, -, rfl⟩ := Asm.assemble_eq_ok_iff.1 h
  have hr : Asm.loads k FunctionBlock.returnNull = 0 := rfl
  rw [count_relabel]
  show Asm.loads k _ = _
  rw [Asm.loads_append, Asm.loads_append, loads_params, hr]
  omega

/-- A function becomes a chunk. -/
theorem Once.finish_named {b : FunctionBlock} {bs : List Block} {nesting : Nesting} {name : String}
    {assembled : List Instruction} (h : d.Once) (hg : d.Guarded) (hb : d.blocks = .function b :: bs)
    (ha : Asm.assemble (b.params.map (fun p => .op (.storeName p.name)) ++ b.content ++
      FunctionBlock.returnNull) = .ok assembled) :
    (Desk.added { d with
      nesting
      blocks := bs
      chunks := d.chunks ++ [(⟨name, b.params, assembled, b.line⟩ : Chunk)] }
        (FunctionBlock.bindCode d.chunks.length name)).Once := by
  intro k
  have hk := h k
  rw [loads_added fun c hc => hg c (by rw [hb]; exact List.mem_cons_of_mem _ hc), chunks_added,
    FunctionBlock.loads_bindCode]
  simp only [loads, hb, Block.codes, List.flatMap_cons, List.flatMap_nil, List.flatMap_append,
    List.flatten_cons, List.flatten_nil, List.append_nil, Asm.loads_append, List.count_append,
    loads_assemble ha, List.length_append, List.length_cons, List.length_nil] at hk ⊢
  by_cases he : d.chunks.length = k
  · rw [if_neg (by omega)] at hk
    rw [if_pos he, if_pos (by omega)]
    omega
  · rw [if_neg he]
    by_cases hlt : k < d.chunks.length
    · rw [if_pos hlt] at hk
      rw [if_pos (by omega)]
      omega
    · rw [if_neg hlt] at hk
      rw [if_neg (by omega)]
      omega

/-- **Every chunk that is complete is loaded once.** -/
theorem Move.once {awaited : Option Token} (hm : Move c d awaited d') (hs : d.Shape awaited)
    (hd : d.Sound) (hp : d.Pending) (hg : d.Guarded) (h : d.Once) : d'.Once := by
  cases hm with
  | stay | collect | openRound | closeRound | closeHeader | openString | closeString => exact h
  | statement _ _ _ _ hd₁ hst =>
    have hl := fun k => (hp.does hd hst).loads (k := k)
    rcases hd₁ with rfl | ⟨names, rfl⟩
    · exact h.of_eq (fun k => by rw [loads_added (d := d.clear) hg, hl]; rfl) chunks_added
    · refine h.of_eq (fun k => ?_) (chunks_added.trans (chunks_setNames names))
      rw [loads_added (Guarded.setNames (d := d.clear) hg names), hl, loads_setNames]
      rfl
  | openHole | beginFunction | beginEntry =>
    refine h.of_eq (fun k => ?_) rfl
    simp [loads, Block.codes]
  | closeHole _ ho hb =>
    refine h.of_eq (fun k => ?_) rfl
    obtain ⟨-, hc⟩ := hs.of_hole ho hb
    simp [loads, hb, Block.codes, hc]
  | beginChain hh | beginLoop hh =>
    have he : ExpressionCode _ := hd.header _ hh
    refine h.of_eq (fun k => ?_) rfl
    simp [loads, Block.codes, Chain.start, LoopBlock.begin, he.loads]
  | beginFurther hh hb =>
    have he : ExpressionCode _ := hd.header _ hh
    refine h.of_eq (fun k => ?_) rfl
    simp [loads, hb, Block.codes, he.loads]
  | beginLast _ _ _ hb =>
    refine h.of_eq (fun k => ?_) rfl
    simp [loads, clear, hb, Block.codes]
  | endFunction _ _ _ hb hr hf =>
    rcases finish_cases hr hf with ⟨exit, -, rfl, rfl⟩ | ⟨name, assembled, -, ha, rfl, rfl⟩
    · refine h.finish hg hb fun k => ?_
      rw [FunctionBlock.loads_entryCode]
      simp [Block.loads, Block.codes]
    · exact h.finish_named hg hb ha
  | endLoop _ _ _ hb => exact h.finish hg hb fun k => LoopBlock.loads_finish _
  | endClause _ _ _ hb =>
    refine h.of_eq (fun k => ?_) rfl
    simp only [loads, hb, List.flatMap_cons, Block.codes]
  | endChain _ _ _ hb =>
    exact h.finish hg hb fun k => Chain.loads_code (hg _ (by rw [hb]; simp)) _

end Desk

end Naskah
