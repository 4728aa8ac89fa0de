/-
  The code on a desk, piece by piece.  A property of code that holds of jumps and marks, and of two
  pieces together if it holds of each, is kept by all moves as long as statements, guards and the
  code that binds functions have it (`Move.made`).  The property may depend on the blocks around
  the code.
-/
import Naskah.Proofs.Desk.Pending

namespace Naskah

/-- The pieces of code that a block holds. -/
def Block.codes : Block → List (List Asm)
  | function b => [b.content]
  | loop b => [b.guard, b.body]
  | chain c => c.clauses.flatMap fun cl => cl.guard.toList ++ [cl.body]

/-- All code in blocks, the innermost first, has a property that may depend on the blocks. -/
def Made (Q : List Block → List Asm → Prop) : List Block → Prop
  | [] => True
  | b :: bs => (∀ code ∈ b.codes, Q (b :: bs) code) ∧ Made Q bs

/-- A property of code that is put together from pieces.  What a block holds makes no difference,
    and code that has the property in a loop or a chain has it in the block around. -/
structure Additive (Q : List Block → List Asm → Prop) : Prop where
  nil (bs : List Block) : Q bs []
  append {bs : List Block} {a b : List Asm} (ha : Q bs a) (hb : Q bs b) : Q bs (a ++ b)
  jump (bs : List Block) (l : Label) : Q bs [.op (.jump l)]
  jumpIfFalse (bs : List Block) (l : Label) : Q bs [.op (.jumpIfFalse l)]
  mark (bs : List Block) (l : Label) : Q bs [.mark l]
  content {b : FunctionBlock} {bs : List Block} {code : List Asm} (content : List Asm)
    (h : Q (.function b :: bs) code) : Q (.function { b with content } :: bs) code
  loop {b b' : LoopBlock} {bs : List Block} {code : List Asm} (h : Q (.loop b :: bs) code) :
    Q (.loop b' :: bs) code
  chain {c c' : Chain} {bs : List Block} {code : List Asm} (h : Q (.chain c :: bs) code) :
    Q (.chain c' :: bs) code
  leaveLoop {b : LoopBlock} {bs : List Block} {code : List Asm} (h : Q (.loop b :: bs) code) :
    Q bs code
  leaveChain {c : Chain} {bs : List Block} {code : List Asm} (h : Q (.chain c :: bs) code) :
    Q bs code

section
variable {Q : List Block → List Asm → Prop} {bs : List Block} {code : List Asm}

theorem Made.imp {Q' : List Block → List Asm → Prop} (h : Made Q bs)
    (hQ : ∀ bs code, Q bs code → Q' bs code) : Made Q' bs := by
  induction bs with
  | nil => trivial
  | cons b bs ih => exact ⟨fun code hc => hQ _ code (h.1 code hc), ih h.2⟩

/-- Code can be added to the innermost block. -/
theorem Made.add {b : Block} (hQ : Additive Q) (h : Made Q (b :: bs)) (hc : Q (b :: bs) code) :
    Made Q (b.add code :: bs) := by
  refine ⟨?_, h.2⟩
  have hb := h.1
  cases b with
  | function b =>
    simp only [Block.codes, List.forall_mem_singleton, Block.add, FunctionBlock.add] at hb ⊢
    exact hQ.content _ (hQ.append hb hc)
  | loop b =>
    simp only [Block.codes, List.forall_mem_cons, Block.add, LoopBlock.add] at hb ⊢
    exact ⟨hQ.loop hb.1, hQ.loop (hQ.append hb.2.1 hc), by simp⟩
  | chain c =>
    obtain ⟨clauses, state⟩ := c
    cases clauses with
    | nil => simp [Block.codes, Block.add, Chain.add]
    | cons cl cls =>
      simp only [Block.codes, List.flatMap_cons, List.forall_mem_append, List.forall_mem_singleton,
        Block.add, Chain.add] at hb ⊢
      exact ⟨⟨fun g hg => hQ.chain (hb.1.1 g hg), hQ.chain (hQ.append hb.1.2 hc)⟩,
        fun code' hc' => hQ.chain (hb.2 code' hc')⟩

theorem LoopBlock.finish_made {b : LoopBlock} (hQ : Additive Q) (h : Made Q (.loop b :: bs)) :
    Q bs b.finish := by
  have hb := h.1
  simp only [Block.codes, List.forall_mem_cons] at hb
  have hend : Q bs ([.op (.jump b.start)] ++ [.mark b.stop]) :=
    hQ.append (hQ.jump _ _) (hQ.mark _ _)
  refine hQ.append (hQ.append (hQ.append (hQ.append (hQ.mark _ _) ?_) (hQ.jumpIfFalse _ _)) ?_) hend
  · exact hQ.leaveLoop hb.1
  · exact hQ.leaveLoop hb.2.1

theorem Chain.emitClauses_made (hQ : Additive Q) (exit : Label) : ∀ {cls : List Clause}
    {rest : List Asm} {labels : LabelSupply}, (∀ cl ∈ cls, (∀ g ∈ cl.guard, Q bs g) ∧ Q bs cl.body) →
      Q bs rest → Q bs (emitClauses exit cls rest labels).1
  | [], _, _, _, hr => hr
  | cl :: cls, rest, labels, h, hr => by
    rw [List.forall_mem_cons] at h
    rw [emitClauses_cons]
    refine emitClauses_made hQ exit h.2 ?_
    unfold emitClause
    split
    · exact h.1.2
    · next g hg =>
      have hend : Q bs ([.op (.jump exit)] ++ [.mark labels.fresh.1]) :=
        hQ.append (hQ.jump _ _) (hQ.mark _ _)
      exact hQ.append (hQ.append (hQ.append (hQ.append (h.1.1 g hg) (hQ.jumpIfFalse _ _)) h.1.2)
        hend) hr

theorem Chain.code_made {c : Chain} (hQ : Additive Q) (h : Made Q (.chain c :: bs))
    (labels : LabelSupply) : Q bs (c.code labels) := by
  have hb := h.1
  refine hQ.append (emitClauses_made hQ _ (fun cl hcl => ⟨fun g hg => ?_, ?_⟩) (hQ.nil _))
    (hQ.mark _ _)
  · exact hQ.leaveChain (hb g (List.mem_flatMap.2 ⟨cl, hcl, by simp [Option.mem_def.1 hg]⟩))
  · exact hQ.leaveChain (hb cl.body (List.mem_flatMap.2 ⟨cl, hcl, by simp⟩))

/-- A clause can be added to a chain. -/
theorem Made.pushClause {chain : Chain} {cl : Clause} {state : ChainState} (hQ : Additive Q)
    (h : Made Q (.chain chain :: bs))
    (hg : ∀ g ∈ cl.guard, Q (.chain ⟨cl :: chain.clauses, state⟩ :: bs) g) (hb : cl.body = []) :
    Made Q (.chain ⟨cl :: chain.clauses, state⟩ :: bs) := by
  refine ⟨?_, h.2⟩
  simp only [Block.codes, List.flatMap_cons, List.forall_mem_append, List.forall_mem_singleton]
  refine ⟨⟨fun g hm => hg g (by simpa using hm), ?_⟩, fun code hc => hQ.chain (h.1 code hc)⟩
  rw [hb]
  exact hQ.nil _

end

namespace Desk

variable {Q : List Block → List Asm → Prop} {base : List Asm} {c : Cursor} {d d' : Desk}

/-- All code on a desk has a property, but for the code that the module begins with. -/
structure Holds (Q : List Block → List Asm → Prop) (base : List Asm) (d : Desk) : Prop where
  code : ∃ code, d.code = base ++ code ∧ Q [] code
  blocks : Made Q d.blocks

theorem Holds.all (h : d.Holds Q []) : Q [] d.code := by
  obtain ⟨code, he, hc⟩ := h.code
  rw [he]
  exact hc

theorem Holds.imp {Q' : List Block → List Asm → Prop} (h : d.Holds Q base)
    (hQ : ∀ bs code, Q bs code → Q' bs code) : d.Holds Q' base := by
  obtain ⟨code, he, hc⟩ := h.code
  exact ⟨⟨code, he, hQ _ _ hc⟩, h.blocks.imp hQ⟩

theorem Holds.clear (h : d.Holds Q base) : d.clear.Holds Q base :=
  ⟨h.code, h.blocks⟩

theorem Holds.added {code : List Asm} (hQ : Additive Q) (h : d.Holds Q base)
    (hc : Q d.blocks code) : (d.added code).Holds Q base := by
  unfold Desk.added
  split
  · next he =>
    rw [he] at hc
    obtain ⟨code₀, hcode, h₀⟩ := h.code
    exact ⟨⟨code₀ ++ code, by rw [hcode, List.append_assoc], hQ.append h₀ hc⟩, h.blocks⟩
  · next b bs he =>
    rw [he] at hc
    have hb := h.blocks
    rw [he] at hb
    exact ⟨h.code, hb.add hQ hc⟩

/-- Names make no difference to code, if the property does not depend on them. -/
theorem Made.names {b : FunctionBlock} {names : Names} {outer : List Block}
    (hQ : ∀ {bs code}, Q (bs ++ .function b :: outer) code →
      Q (bs ++ .function { b with names } :: outer) code) :
    ∀ {inner : List Block}, Made Q (inner ++ .function b :: outer) →
      Made Q (inner ++ .function { b with names } :: outer)
  | [], h => ⟨fun code hc => @hQ [] code (h.1 code hc), h.2⟩
  | x :: inner, h => ⟨fun code hc => @hQ (x :: inner) code (h.1 code hc), Made.names hQ h.2⟩

theorem Holds.setNames {names : Names} (h : d.Holds Q base)
    (hQ : ∀ {inner b outer}, d.blocks = inner ++ .function b :: outer → b.isAnonymous = false →
      (∀ x ∈ inner, x.names? = none) → ∀ {bs code}, Q (bs ++ .function b :: outer) code →
        Q (bs ++ .function { b with names } :: outer) code) : (d.setNames names).Holds Q base := by
  unfold Desk.setNames
  split
  · next bs hr =>
    obtain ⟨inner, b, outer, he, rfl, hb, hi⟩ := replaceNames?_eq_some hr
    have hm := h.blocks
    rw [he] at hm
    exact ⟨h.code, Made.names (hQ he hb hi) hm⟩
  · exact ⟨h.code, h.blocks⟩

/-- The function that has been finished last. -/
theorem finish_cases {b : FunctionBlock} {code : List Asm} {chunks chunks' : List Chunk}
    (hr : b.isAnonymous = false) (hf : b.finish chunks = .ok (code, chunks')) :
    (∃ exit, b.role = .entry exit ∧ code = FunctionBlock.entryCode exit b.content ∧
        chunks' = chunks) ∨
      ∃ name assembled, b.role = .named name ∧
        Asm.assemble (b.params.map (fun p => .op (.storeName p.name)) ++ b.content ++
          FunctionBlock.returnNull) = .ok assembled ∧
        code = FunctionBlock.bindCode chunks.length name ∧
        chunks' = chunks ++ [⟨name, b.params, assembled, b.line⟩] := by
  cases hrole : b.role with
  | anonymous => simp [FunctionBlock.isAnonymous, hrole] at hr
  | entry exit =>
    rw [FunctionBlock.finish_entry hrole] at hf
    cases hf
    exact .inl ⟨exit, rfl, rfl, rfl⟩
  | named name =>
    simp only [FunctionBlock.finish, hrole, FunctionBlock.close] at hf
    split at hf
    · cases hf
    · next assembled ha =>
      cases hf
      refine .inr ⟨name, assembled, rfl, ?_, rfl, rfl⟩
      rw [FunctionBlock.header] at ha
      simpa only [hrole] using ha

theorem chunks_added {code : List Asm} : (d.added code).chunks = d.chunks := by
  unfold added
  split <;> rfl

/-- A chunk is added when a named function ends. -/
theorem Move.chunks_cases {awaited : Option Token} (hm : Move c d awaited d') :
    d'.chunks = d.chunks ∨ ∃ b bs name assembled, d.blocks = .function b :: bs ∧
      b.role = .named name ∧
      Asm.assemble (b.params.map (fun p => .op (.storeName p.name)) ++ b.content ++
        FunctionBlock.returnNull) = .ok assembled ∧
      d'.chunks = d.chunks ++ [⟨name, b.params, assembled, b.line⟩] := by
  cases hm with
  | statement _ _ _ _ hd =>
    left
    rw [chunks_added]
    rcases hd with rfl | ⟨names, rfl⟩
    · rfl
    · exact chunks_setNames names
  | endFunction _ _ _ hb hr hf =>
    rw [chunks_added]
    rcases finish_cases hr hf with ⟨exit, -, -, rfl⟩ | ⟨name, assembled, hrole, ha, -, rfl⟩
    · exact .inl rfl
    · exact .inr ⟨_, _, name, assembled, hb, hrole, ha, rfl⟩
  | endLoop | endChain => exact .inl chunks_added
  | _ => exact .inl rfl

/-- **Moves keep a property of all code**, if what they add has it. -/
theorem Move.holds (hQ : Additive Q) {awaited : Option Token} (hm : Move c d awaited d')
    (h : d.Holds Q base)
    (hstatement : ∀ {line code d₁}, d.nesting.inString = false → d.outer = [] →
      d.run.rounds = [] → d.clear.statement line d.run.tokens = .ok (code, d₁) →
        d₁.Holds Q base ∧ Q d₁.blocks code)
    (hguard : ∀ {kind guard line b bs}, d.header = some (.guarded kind guard line) →
      b.names? = none → (b :: bs).findSome? Block.names? = d.blocks.findSome? Block.names? →
        Q (b :: bs) guard)
    (hentry : ∀ {exit b bs}, d.blocks = .function b :: bs → b.role = .entry exit →
      Q (.function b :: bs) b.content → Q bs (FunctionBlock.entryCode exit b.content))
    (hbind : ∀ {name b bs assembled}, d.blocks = .function b :: bs → b.role = .named name →
      d'.chunks = d.chunks ++ [⟨name, b.params, assembled, b.line⟩] →
        Q bs (FunctionBlock.bindCode d.chunks.length name)) : d'.Holds Q base := by
  have hbl := h.blocks
  cases hm with
  | stay | collect | openRound | closeRound | closeHeader | openString | closeString =>
    exact ⟨h.code, h.blocks⟩
  | statement hq ho hr _ _ hs =>
    obtain ⟨h₁, hc⟩ := hstatement hq ho hr hs
    exact h₁.added hQ hc
  | openHole => exact ⟨h.code, List.forall_mem_singleton.2 (hQ.nil _), hbl⟩
  | closeHole _ _ hb =>
    rw [hb] at hbl
    exact ⟨h.code, hbl.2⟩
  | beginFunction => exact ⟨h.code, List.forall_mem_singleton.2 (hQ.nil _), hbl⟩
  | beginEntry => exact ⟨h.code, List.forall_mem_singleton.2 (hQ.nil _), hbl⟩
  | beginChain hh =>
    refine ⟨h.code, ?_, hbl⟩
    simp only [Chain.start, Block.codes, List.flatMap_cons, List.flatMap_nil, Option.toList_some,
      List.append_nil, List.cons_append, List.nil_append, List.forall_mem_cons]
    exact ⟨hguard hh rfl rfl, hQ.nil _, by simp⟩
  | beginLoop hh =>
    refine ⟨h.code, ?_, hbl⟩
    simp only [LoopBlock.begin, Block.codes, List.forall_mem_cons]
    exact ⟨hguard hh rfl rfl, hQ.nil _, by simp⟩
  | beginFurther hh hb =>
    rw [hb] at hbl
    refine ⟨h.code, hbl.pushClause hQ ?_ rfl⟩
    rintro g ⟨⟩
    exact hguard hh rfl (by rw [hb]; rfl)
  | beginLast _ _ _ hb =>
    rw [hb] at hbl
    exact ⟨h.code, hbl.pushClause hQ (by simp) rfl⟩
  | @endFunction nesting b blocks code chunks _ _ _ hb hr hf =>
    rw [hb] at hbl
    refine Holds.added (d := { d with nesting, blocks, chunks }) hQ ⟨h.code, hbl.2⟩ ?_
    rcases finish_cases hr hf with ⟨exit, hrole, rfl, -⟩ | ⟨name, assembled, hrole, -, rfl, rfl⟩
    · exact hentry hb hrole (List.forall_mem_singleton.1 hbl.1)
    · exact hbind hb hrole chunks_added
  | @endLoop nesting b blocks _ _ _ hb =>
    rw [hb] at hbl
    exact Holds.added (d := { d with nesting, blocks }) hQ ⟨h.code, hbl.2⟩
      (LoopBlock.finish_made hQ hbl)
  | endClause _ _ _ hb =>
    rw [hb] at hbl
    exact ⟨h.code, fun code hc => hQ.chain (hbl.1 code hc), hbl.2⟩
  | @endChain nesting chain blocks _ _ _ hb =>
    rw [hb] at hbl
    exact Holds.added (d := { d with nesting, blocks, labels := chain.supplyAfter d.labels }) hQ
      ⟨h.code, hbl.2⟩ (Chain.code_made hQ hbl d.labels)

end Desk

end Naskah
