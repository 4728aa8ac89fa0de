/-
  Compiled programs are well-formed (`Program.WellFormed`).

  All code ends by returning null, and no jump leads past its end.  Every chunk is loaded at one
  place, in the module or in a later chunk, and there a function is bound to the name of the chunk.
  Names of chunks and of the parameters of a chunk are different, and the code of a chunk begins by
  storing its parameters.  Constants can be written down or are chunks, and names are legal.

  Targets and places of chunks are what they stand for, numbers of 32 bits, in programs with fewer
  than `2 ^ 32` labels, instructions and chunks.
-/
import Naskah.Proofs.Compile.Rendered
import Naskah.Proofs.Desk.Loads

namespace Naskah

/-! ## Programs -/

/-- All code of a program, that of the module first. -/
def Program.codes (p : Program) : List (List Instruction) :=
  p.code :: p.chunks.map Chunk.code

/-- What is true of the code of every program that comes from a source. -/
structure Program.WellFormed (p : Program) : Prop where
  /-- All code ends by returning null. -/
  returns : ∀ code ∈ p.codes, [.loadConst .null, .ret] <:+ code
  /-- Jumps stay inside their code. -/
  jumps : ∀ code ∈ p.codes, ∀ i ∈ code, ∀ t ∈ i.target?, t < code.length
  /-- Every chunk is loaded once in all of the program, and no other one is. -/
  once : ∀ k, p.codes.flatten.count (.loadConst (.chunk k)) =
    if k < p.chunks.length then 1 else 0
  /-- A chunk is loaded by the module or by a later chunk. -/
  later : ∀ n (chunk : Chunk), p.chunks[n]? = some chunk →
    ∀ k, .loadConst (.chunk k) ∈ chunk.code → k < n
  /-- A chunk is loaded to bind a function to its name. -/
  bound : ∀ code ∈ p.codes, ∀ n k, code[n]? = some (.loadConst (.chunk k)) →
    ∃ chunk, p.chunks[k]? = some chunk ∧ code[n + 1]? = some (.makeFunction chunk.name) ∧
      code[n + 2]? = some (.storeName chunk.name)
  names : (p.chunks.map Chunk.name).Nodup
  params : ∀ chunk ∈ p.chunks, (chunk.params.map Param.name).Nodup ∧
    (chunk.params.map fun q => .storeName q.name) <+: chunk.code
  constants : ∀ code ∈ p.codes, ∀ v, .loadConst v ∈ code → v.isPlain = true ∨ ∃ k, v = .chunk k
  loaded : ∀ code ∈ p.codes, ∀ x, .loadName x ∈ code → LegalName x ∨ x = Builtin.print.name
  stored : ∀ code ∈ p.codes, ∀ x, .storeName x ∈ code → LegalName x

/-! ## Assembled code -/

section
variable {c : List Asm} {code : List Instruction}

theorem assemble_returns (h : Asm.assemble (c ++ FunctionBlock.returnNull) = .ok code) :
    [.loadConst .null, .ret] <:+ code := by
  obtain ⟨-, -, -, rfl⟩ := Asm.assemble_eq_ok_iff.1 h
  rw [Asm.instrs_append, List.map_append]
  exact List.suffix_append _ _

/-- Labels stand in front of the code that returns null. -/
theorem assemble_jumps (h : Asm.assemble (c ++ FunctionBlock.returnNull) = .ok code) :
    ∀ i ∈ code, ∀ t ∈ i.target?, t < code.length := by
  obtain ⟨-, -, hm, rfl⟩ := Asm.assemble_eq_ok_iff.1 h
  intro i hi t ht
  obtain ⟨i', hi', rfl⟩ := List.mem_map.1 hi
  rw [Instr.target?_relabel] at ht
  obtain ⟨l, hl, rfl⟩ := Option.map_eq_some_iff.1 ht
  have hl : l ∈ Asm.marks c := by
    have hl := hm l (Asm.mem_targets.2 ⟨i', hi', hl⟩)
    rwa [Asm.marks_append, returnNull_marks, List.append_nil] at hl
  have hle := Asm.place_le (b := FunctionBlock.returnNull) hl
  have hlen : (Asm.instrs (c ++ FunctionBlock.returnNull)).length =
      (Asm.instrs c).length + 2 := by
    rw [Asm.instrs_append, List.length_append]
    rfl
  rw [List.length_map, hlen]
  omega

/-- Orderly code stays orderly when it is assembled. -/
theorem assemble_orderly {chunks : List Chunk} (hc : Orderly chunks c)
    (h : Asm.assemble (c ++ FunctionBlock.returnNull) = .ok code) :
    Linked (chunkName? chunks) code ∧ ∀ i ∈ code, i.Proper := by
  obtain ⟨-, -, -, rfl⟩ := Asm.assemble_eq_ok_iff.1 h
  have hr : Orderly chunks FunctionBlock.returnNull :=
    Orderly.append (a := [.op (.loadConst .null)]) (b := [.op .ret]) (.single rfl (.inl rfl))
      (.single rfl trivial)
  obtain ⟨hl, hp⟩ := hc.append hr
  refine ⟨hl.map_relabel _, fun i hi => ?_⟩
  obtain ⟨i', hi', rfl⟩ := List.mem_map.1 hi
  exact (Instr.proper_relabel _ i').2 (hp i' hi')

end

/-! ## Chunks -/

/-- A chunk whose code was assembled from the storing of its parameters and an orderly body, and
    that loads earlier chunks only. -/
structure Chunk.Registered (chunks : List Chunk) (n : Nat) (chunk : Chunk) : Prop where
  code : ∃ content, Orderly chunks content ∧
    Asm.assemble (chunk.params.map (fun q => .op (.storeName q.name)) ++ content ++
      FunctionBlock.returnNull) = .ok chunk.code
  legal : ∀ q ∈ chunk.params, LegalName q.name
  nodup : (chunk.params.map Param.name).Nodup
  later : ∀ k, .loadConst (.chunk k) ∈ chunk.code → k < n

theorem Chunk.Registered.mono {chunks : List Chunk} {n : Nat} {chunk : Chunk}
    (h : chunk.Registered chunks n) (new : Chunk) : chunk.Registered (chunks ++ [new]) n := by
  obtain ⟨⟨content, ho, ha⟩, hl, hn, hb⟩ := h
  exact ⟨⟨content, ho.mono new, ha⟩, hl, hn, hb⟩

theorem orderly_params {chunks : List Chunk} {params : List Param}
    (h : ∀ q ∈ params, LegalName q.name) :
    Orderly chunks (params.map fun q => .op (.storeName q.name)) := by
  induction params with
  | nil => exact ⟨.nil, by simp⟩
  | cons q params ih =>
    rw [List.forall_mem_cons] at h
    exact Orderly.append (a := [.op (.storeName q.name)]) (.single rfl h.1) (ih h.2)

namespace Desk

variable {c : Cursor} {d d' : Desk} {code : List Asm}

/-- The functions under construction have legal names, and parameters that are legal and all
    different. -/
def Named (d : Desk) : Prop :=
  ∀ b, .function b ∈ d.blocks → (∀ name, b.role = .named name → LegalName name) ∧
    (∀ q ∈ b.params, LegalName q.name) ∧ (b.params.map Param.name).Nodup

theorem Named.added (h : d.Named) (code : List Asm) : (d.added code).Named := by
  unfold Desk.added
  split
  · exact h
  · next b bs he =>
    intro b' hb'
    rcases List.mem_cons.1 hb' with hb | hb'
    · cases b with
      | function b =>
        cases hb
        exact h b (by simp [he])
      | loop b | chain c => cases hb
    · exact h b' (by simp [he, hb'])

theorem Named.setNames (h : d.Named) (names : Names) : (d.setNames names).Named := by
  unfold Desk.setNames
  split
  · next bs hr =>
    obtain ⟨inner, b, outer, he, rfl, -⟩ := replaceNames?_eq_some hr
    intro b' hb'
    rcases List.mem_append.1 hb' with hb' | hb'
    · exact h b' (by simp [he, hb'])
    · rcases List.mem_cons.1 hb' with hb | hb'
      · cases hb
        exact h b (by simp [he])
      · exact h b' (by simp [he, hb'])
  · exact h

theorem Move.named {awaited : Option Token} (hm : Move c d awaited d') (hp : d.Pending)
    (h : d.Named) : d'.Named := by
  have cons : ∀ {b : Block} {bs : List Block}, d.blocks = b :: bs → ∀ b', .function b' ∈ bs →
      .function b' ∈ d.blocks := fun hb b' hb' => by rw [hb]; exact List.mem_cons_of_mem _ hb'
  cases hm with
  | stay | collect | openRound | closeRound | closeHeader | openString | closeString => exact h
  | statement _ _ _ _ hd =>
    rcases hd with rfl | ⟨names, rfl⟩
    · exact Named.added (d := d.clear) h _
    · exact Named.added (Named.setNames (d := d.clear) h names) _
  | openHole | beginEntry =>
    intro b hb
    rcases List.mem_cons.1 hb with hb | hb
    · cases hb
      exact ⟨nofun, by simp, .nil⟩
    · exact h b hb
  | beginFunction hh hn =>
    intro b hb
    rcases List.mem_cons.1 hb with hb | hb
    · cases hb
      obtain ⟨hl, hps⟩ := hp.header _ hh
      refine ⟨?_, hps, (FunctionBlock.of_declareParams hn).1⟩
      rintro _ ⟨⟩
      exact hl
    · exact h b hb
  | beginChain | beginLoop =>
    intro b hb
    rcases List.mem_cons.1 hb with hb | hb
    · cases hb
    · exact h b hb
  | closeHole _ _ hb => exact fun b hb' => h b (cons hb b hb')
  | beginFurther _ hb | beginLast _ _ _ hb | endClause _ _ _ hb =>
    intro b hb'
    rcases List.mem_cons.1 hb' with he | hb'
    · cases he
    · exact h b (cons hb b hb')
  | @endFunction nesting b blocks code chunks _ _ _ hb =>
    exact Named.added (d := { d with nesting, blocks, chunks }) (fun b hb' => h b (cons hb b hb')) _
  | @endLoop nesting b blocks _ _ _ hb =>
    exact Named.added (d := { d with nesting, blocks }) (fun b hb' => h b (cons hb b hb')) _
  | @endChain nesting chain blocks _ _ _ hb =>
    exact Named.added (d := { d with nesting, blocks, labels := chain.supplyAfter d.labels })
      (fun b hb' => h b (cons hb b hb')) _

/-! ## Desks -/

/-- What is true of all functions and all code on a desk. -/
structure Regular (d : Desk) : Prop where
  pending : d.Pending
  named : d.Named
  orderly : d.Holds (fun _ => Orderly d.chunks) []
  guarded : d.Guarded
  unique : d.Unique
  once : d.Once
  chunks : ∀ n (chunk : Chunk), d.chunks[n]? = some chunk → chunk.Registered d.chunks n

theorem regular_empty : ({} : Desk).Regular where
  pending := Quiet.pending ⟨rfl, rfl, rfl, rfl⟩
  named := by simp [Named]
  orderly := ⟨⟨[], rfl, .nil, by simp⟩, trivial⟩
  guarded := by simp [Guarded]
  unique := fun f => by simp [definitions]
  once := fun k => by simp [loads]
  chunks := by simp

/-- The code on a desk is orderly, also once the chunk of the function that ends is added. -/
theorem Move.orderly {awaited : Option Token} (hm : Move c d awaited d') (hd : d.Sound)
    (h : d.Regular) : d'.Holds (fun _ => Orderly d'.chunks) [] := by
  have ho : d.Holds (fun _ => Orderly d'.chunks) [] := by
    rcases hm.chunks_cases with hc | ⟨b, bs, name, assembled, -, -, -, hc⟩
    · rw [hc]
      exact h.orderly
    · rw [hc]
      exact h.orderly.imp fun _ _ hq => hq.mono _
  refine hm.holds (orderly_additive d'.chunks) ho ?_ ?_ ?_ ?_
  · intro line code d₁ _ _ _ hs
    have hdoes := h.pending.does hd hs
    refine ⟨?_, hdoes.orderly h.pending⟩
    cases hdoes with
    | declares => exact ho.clear.setNames fun _ _ _ _ _ hq => hq
    | assigns | drops | returns | leaves => exact ho.clear
  · intro kind guard line b bs hh _ _
    have hr : Reads d.Allows guard := h.pending.awaits.header _ hh
    exact ExpressionCode.orderly (hd.header _ hh) (hr.mono fun _ => Allows.legal)
  · exact fun _ _ hq => FunctionBlock.entryCode_orderly _ hq
  · intro name b bs assembled hb hr hc
    refine FunctionBlock.bindCode_orderly ?_ ((h.named b (by rw [hb]; simp)).1 name hr)
    rw [chunkName?, hc, List.getElem?_append_right (Nat.le_refl _), Nat.sub_self]
    rfl

/-- A new chunk is made of the function that ends. -/
theorem Move.registered {awaited : Option Token} (hm : Move c d awaited d') (h : d.Regular) :
    ∀ n (chunk : Chunk), d'.chunks[n]? = some chunk → chunk.Registered d'.chunks n := by
  rcases hm.chunks_cases with hc | ⟨b, bs, name, assembled, hb, hr, ha, hc⟩
  · rw [hc]
    exact h.chunks
  · rw [hc]
    intro n chunk hn
    rcases Nat.lt_or_ge n d.chunks.length with hlt | hge
    · rw [List.getElem?_append_left hlt] at hn
      exact (h.chunks n chunk hn).mono _
    · rw [List.getElem?_append_right hge] at hn
      obtain ⟨hle, hn⟩ := List.getElem?_eq_some_iff.1 hn
      obtain rfl : n = d.chunks.length := by simp at hle; omega
      simp only [Nat.sub_self, List.getElem_cons_zero] at hn
      subst hn
      obtain ⟨-, hl, hnd⟩ := h.named b (by rw [hb]; simp)
      have ho := h.orderly.blocks
      rw [hb] at ho
      refine ⟨⟨b.content, (ho.1 _ (by simp [Block.codes])).mono _, ha⟩, hl, hnd, fun k hk => ?_⟩
      -- what the body loads is loaded on the desk, and so is complete
      have hk : 0 < Asm.loads k b.content := by
        rw [← loads_assemble ha]
        exact List.count_pos_iff.2 hk
      have hone := h.once k
      simp only [loads, hb, List.flatMap_cons, Block.codes, List.flatten_cons,
        Asm.loads_append] at hone
      split at hone
      · assumption
      · omega

/-- **Moves keep a desk regular.** -/
theorem Move.regular {awaited : Option Token} (hm : Move c d awaited d') (hs : d.Shape awaited)
    (hd : d.Sound) (h : d.Regular) : d'.Regular where
  pending := hm.pending hs h.pending
  named := hm.named h.pending h.named
  orderly := hm.orderly hd h
  guarded := hm.guarded h.guarded
  unique := hm.unique hs h.unique
  once := hm.once hs hd h.pending h.guarded h.once
  chunks := hm.registered h

end Desk

/-- All desks that a source leads to are regular. -/
theorem Passes.regular {text : String} {d : Desk} {c : Cursor} (h : Passes text d c) : d.Regular :=
  (Desk.Leads.keeps (P := fun d _ => d.Regular) h (Desk.standing_empty _) Desk.sound_empty
    Desk.regular_empty fun _ _ hm hs hd hr => hm.regular hs hd hr).2.2

/-! ## Compiled programs -/

/-- The code of the module and of a chunk is assembled in the same way. -/
theorem Desk.Regular.codes {d : Desk} {p : Program} (h : d.Regular) (hc : p.chunks = d.chunks)
    (ha : Asm.assemble (d.code ++ FunctionBlock.returnNull) = .ok p.code) :
    ∀ code ∈ p.codes, ∃ c, Orderly p.chunks c ∧
      Asm.assemble (c ++ FunctionBlock.returnNull) = .ok code := by
  intro code hm
  rcases List.mem_cons.1 hm with rfl | hm
  · exact ⟨d.code, by rw [hc]; exact h.orderly.all, ha⟩
  · obtain ⟨chunk, hch, rfl⟩ := List.mem_map.1 hm
    rw [hc] at hch ⊢
    obtain ⟨n, hn⟩ := List.getElem?_of_mem hch
    obtain ⟨⟨content, ho, hcode⟩, hl, -, -⟩ := h.chunks n chunk hn
    exact ⟨_, (orderly_params hl).append ho, hcode⟩

theorem Desk.Unique.nodup {d : Desk} (h : d.Unique) : (d.chunks.map Chunk.name).Nodup := by
  rw [List.nodup_iff_count_le_one]
  intro f
  have hf := h f
  simp only [definitions, List.count_append] at hf
  split at hf <;> omega

/-- What is finished on a regular desk is well-formed. -/
theorem Desk.Regular.finish {d : Desk} {c : Cursor} {p : Program} (hr : d.Regular)
    (hf : d.finish c = .ok p) : p.WellFormed := by
  obtain ⟨hb, -, hc, ha⟩ := Desk.of_finish hf
  have hcodes := hr.codes hc ha
  constructor
  case returns =>
    intro code hm
    obtain ⟨c, -, hcode⟩ := hcodes code hm
    exact assemble_returns hcode
  case jumps =>
    intro code hm
    obtain ⟨c, -, hcode⟩ := hcodes code hm
    exact assemble_jumps hcode
  case once =>
    intro k
    have ha : Asm.assemble (([] : List Param).map (fun q => .op (.storeName q.name)) ++ d.code ++
        FunctionBlock.returnNull) = .ok p.code := ha
    have hmodule := Desk.loads_assemble (k := k) ha
    have hone := hr.once k
    rw [Desk.loads, hb, List.flatMap_nil, Asm.loads_nil, Nat.add_zero] at hone
    rw [Program.codes, List.flatten_cons, List.count_append, hmodule, hc]
    exact hone
  case later =>
    rw [hc]
    exact fun n chunk hn => (hr.chunks n chunk hn).later
  case bound =>
    intro code hm n k hn
    obtain ⟨c, ho, hcode⟩ := hcodes code hm
    obtain ⟨name, hk, h₁, h₂⟩ := (assemble_orderly ho hcode).1.of_chunk hn
    obtain ⟨chunk, hch, rfl⟩ := Option.map_eq_some_iff.1 hk
    exact ⟨chunk, hch, h₁, h₂⟩
  case names =>
    rw [hc]
    exact hr.unique.nodup
  case params =>
    intro chunk hch
    rw [hc] at hch
    obtain ⟨n, hn⟩ := List.getElem?_of_mem hch
    obtain ⟨⟨content, -, hcode⟩, -, hnd, -⟩ := hr.chunks n chunk hn
    refine ⟨hnd, ?_⟩
    obtain ⟨-, -, -, he⟩ := Asm.assemble_eq_ok_iff.1 hcode
    rw [he, List.append_assoc, Asm.instrs_append, List.map_append]
    have hstores : ∀ {f : Label → Nat} {params : List Param},
        (Asm.instrs (params.map fun q => .op (.storeName q.name))).map (Instr.relabel f) =
          params.map fun q => .storeName q.name := by
      intro f params
      induction params with
      | nil => rfl
      | cons q params ih => exact congrArg (_ :: ·) ih
    rw [hstores]
    exact List.prefix_append _ _
  case constants =>
    intro code hm v hv
    obtain ⟨c, ho, hcode⟩ := hcodes code hm
    exact (assemble_orderly ho hcode).2 _ hv
  case loaded =>
    intro code hm x hx
    obtain ⟨c, ho, hcode⟩ := hcodes code hm
    exact ((assemble_orderly ho hcode).2 _ hx).symm
  case stored =>
    intro code hm x hx
    obtain ⟨c, ho, hcode⟩ := hcodes code hm
    exact (assemble_orderly ho hcode).2 _ hx

/-- **Compiled programs are well-formed**; in 32 bits, those with fewer than `2 ^ 32` labels,
    instructions and chunks. -/
theorem compile_wellFormed {text : String} {p : Program} (h : compile text = .ok p) :
    p.WellFormed := by
  obtain ⟨d, c, c', hd, -, hf⟩ := exists_of_compile h
  exact hd.regular.finish hf

open Naskah.Tree in
/-- The compiled multiples are well-formed. -/
theorem multiples_wellFormed : compile Script.multiples.render = .ok Script.multiples.generate ∧
    Script.multiples.generate.WellFormed := by
  have hfits : Script.multiples.fits = true := rfl
  obtain ⟨cs, hb, hcs⟩ := toList_withEndMark Script.multiples.render
  have hc : compile Script.multiples.render = .ok Script.multiples.generate :=
    Script.compileBuffer_render hfits hb hcs
  exact ⟨hc, compile_wellFormed hc⟩

end Naskah
