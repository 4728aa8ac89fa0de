/-
  The code on a desk.  All code that is collected while a source is compiled is made of pieces: the
  code of the module, the bodies of loops, clauses and functions, and the chunks that are complete.
  A jump leads to a label of the same piece or of the loop around it, no label is marked twice, and
  labels that have not been handed out are not marked at all.  Moves keep this (`Move.sound`).
-/
import Naskah.Proofs.Desk.Moves
import Naskah.Proofs.Desk.Statements
import Mathlib.Data.List.Nodup

namespace Naskah

@[simp] theorem exits_nil : exits [] = [] := rfl

@[simp] theorem exits_function (b : FunctionBlock) (bs : List Block) :
    exits (.function b :: bs) = [] := rfl

@[simp] theorem exits_loop (b : LoopBlock) (bs : List Block) :
    exits (.loop b :: bs) = [b.start, b.stop] := rfl

@[simp] theorem exits_chain (c : Chain) (bs : List Block) : exits (.chain c :: bs) = exits bs := rfl

/-! ## Blocks made of pieces -/

/-- A block made of pieces, inside a loop with the labels `outer`. -/
def Block.Built (n : Nat) (outer : List Label) : Block → Prop
  | function b => Piece n [] b.content
  | loop b => b.Built n
  | chain c => c.Built n outer

/-- Blocks made of pieces, the innermost first. -/
def Built (n : Nat) : List Block → Prop
  | [] => True
  | b :: bs => b.Built n (exits bs) ∧ Built n bs

/-- The labels that are marked in a block, or will be when it is finished. -/
def Block.labels : Block → List Label
  | function ⟨.entry exit, _, _, _, content⟩ => exit :: Asm.marks content
  | function b => Asm.marks b.content
  | loop b => b.start :: b.stop :: Asm.marks b.body
  | chain c => c.clauses.flatMap fun cl => Asm.marks cl.body

section
variable {n n' : Nat} {outer : List Label} {code : List Asm} {bs : List Block} {l : Label}

theorem Block.Built.mono (hn : n ≤ n') {b : Block} (h : b.Built n outer) : b.Built n' outer := by
  cases b with
  | function b => exact Piece.mono hn h
  | loop b => exact ⟨h.guard, h.body.mono hn⟩
  | chain c => exact ⟨fun cl hcl => ⟨(h.clauses cl hcl).guard, (h.clauses cl hcl).body.mono hn⟩, h.first⟩

theorem Built.mono (hn : n ≤ n') (h : Built n bs) : Built n' bs := by
  induction bs with
  | nil => trivial
  | cons b bs ih => exact ⟨h.1.mono hn, ih h.2⟩

/-- A piece can be added to the innermost block. -/
theorem Built.add {b : Block} (h : Built n (b :: bs)) (hc : Piece n (exits (b :: bs)) code) :
    Built n (b.add code :: bs) := by
  refine ⟨?_, h.2⟩
  cases b with
  | function b => exact Piece.append h.1 hc
  | loop b => exact ⟨h.1.guard, h.1.body.append hc⟩
  | chain c =>
    obtain ⟨clauses, state⟩ := c
    obtain ⟨hcl, cl₀, hl, hg⟩ := h.1
    cases clauses with
    | nil => cases hl
    | cons cl cls =>
      obtain ⟨hb, hcls⟩ := List.forall_mem_cons.1 hcl
      refine ⟨List.forall_mem_cons.2 ⟨⟨hb.guard, hb.body.append hc⟩, hcls⟩, ?_⟩
      cases cls with
      | nil =>
        cases hl
        exact ⟨_, rfl, hg⟩
      | cons cl' cls => exact ⟨cl₀, hl, hg⟩

theorem Block.count_labels_add (b : Block) (code : List Asm) (l : Label) :
    (b.add code).labels.count l ≤ b.labels.count l + (Asm.marks code).count l := by
  cases b with
  | function b =>
    obtain ⟨role, params, names, line, content⟩ := b
    cases role <;>
      simp only [Block.add, FunctionBlock.add, Block.labels, Asm.marks_append, List.count_cons,
        List.count_append] <;> omega
  | loop b =>
    simp only [Block.add, LoopBlock.add, Block.labels, Asm.marks_append, List.count_cons,
      List.count_append]
    omega
  | chain c =>
    obtain ⟨clauses, state⟩ := c
    cases clauses with
    | nil => simp [Block.add, Chain.add, Block.labels]
    | cons cl cls =>
      simp only [Block.add, Chain.add, Block.labels, List.flatMap_cons, Asm.marks_append,
        List.count_append]
      omega

/-- Whether a function has other names makes no difference to the loop around. -/
theorem exits_names {b : FunctionBlock} (names : Names) : ∀ inner : List Block,
    exits (inner ++ .function { b with names } :: bs) = exits (inner ++ .function b :: bs)
  | [] => rfl
  | .function _ :: _ => rfl
  | .loop _ :: _ => rfl
  | .chain _ :: inner => exits_names names inner

theorem Built.names {b : FunctionBlock} (names : Names) : ∀ {inner : List Block},
    Built n (inner ++ .function b :: bs) → Built n (inner ++ .function { b with names } :: bs)
  | [], h => h
  | x :: inner, h => by
    refine ⟨?_, Built.names names h.2⟩
    show x.Built n (exits (inner ++ .function { b with names } :: bs))
    rw [exits_names]
    exact h.1

theorem Block.labels_names (b : FunctionBlock) (names : Names) :
    (Block.function { b with names }).labels = (Block.function b).labels := by
  obtain ⟨role, params, names', line, content⟩ := b
  cases role <;> rfl

end

namespace Desk

/-! ## Desks -/

/-- The labels that are marked on a desk, or will be when its blocks are finished. -/
def labelList (d : Desk) : List Label :=
  Asm.marks d.code ++ d.blocks.flatMap Block.labels

/-- No label is marked twice, and none that has not been handed out. -/
def Distinct (d : Desk) : Prop :=
  ∀ l, d.labelList.count l ≤ if l.index < d.labels.next then 1 else 0

/-- All code is made of pieces. -/
structure Crafted (d : Desk) : Prop where
  code : Piece d.chunks.length [] d.code
  blocks : Built d.chunks.length d.blocks
  chunks : ∀ c ∈ d.chunks,
    Verified d.chunks.length (List.replicate c.params.length .value) c.code

variable {d : Desk} {code : List Asm}

theorem Crafted.added (h : d.Crafted) (hc : Piece d.chunks.length (exits d.blocks) code) :
    (d.added code).Crafted := by
  have hb := h.blocks
  unfold Desk.added
  split
  · next he =>
    rw [he] at hc
    exact ⟨h.code.append hc, by simp only [he]; trivial, h.chunks⟩
  · next b bs he =>
    rw [he] at hc hb
    exact ⟨h.code, hb.add hc, h.chunks⟩

theorem count_labelList_added (l : Label) :
    (d.added code).labelList.count l ≤ d.labelList.count l + (Asm.marks code).count l := by
  unfold Desk.added
  split
  · next he =>
    simp only [labelList, he, Asm.marks_append, List.flatMap_nil, List.append_nil,
      List.count_append]
    omega
  · next b bs he =>
    have hb := b.count_labels_add code l
    simp only [labelList, he, List.flatMap_cons, List.count_append]
    omega

theorem labels_added : (d.added code).labels = d.labels := by
  unfold Desk.added
  split <;> rfl

/-- Code with new labels can be added. -/
theorem Distinct.added (h : ∀ l, d.labelList.count l + (Asm.marks code).count l ≤
    if l.index < d.labels.next then 1 else 0) : (d.added code).Distinct := by
  intro l
  rw [labels_added]
  exact Nat.le_trans (count_labelList_added l) (h l)

theorem Crafted.setNames (h : d.Crafted) (names : Names) : (d.setNames names).Crafted := by
  have hb := h.blocks
  unfold Desk.setNames
  split
  · next bs hr =>
    obtain ⟨inner, b, outer, he, rfl, -⟩ := replaceNames?_eq_some hr
    rw [he] at hb
    exact ⟨h.code, hb.names names, h.chunks⟩
  · exact ⟨h.code, hb, h.chunks⟩

theorem labelList_setNames (names : Names) : (d.setNames names).labelList = d.labelList := by
  unfold Desk.setNames
  split
  · next bs hr =>
    obtain ⟨inner, b, outer, he, rfl, -⟩ := replaceNames?_eq_some hr
    simp only [labelList, he, List.flatMap_append, List.flatMap_cons, Block.labels_names]
  · rfl

theorem exits_setNames (names : Names) : exits (d.setNames names).blocks = exits d.blocks := by
  unfold Desk.setNames
  split
  · next bs hr =>
    obtain ⟨inner, b, outer, he, rfl, -⟩ := replaceNames?_eq_some hr
    simp only [he, exits_names]
  · rfl

theorem chunks_setNames (names : Names) : (d.setNames names).chunks = d.chunks := by
  unfold Desk.setNames
  split <;> rfl

theorem labels_setNames (names : Names) : (d.setNames names).labels = d.labels := by
  unfold Desk.setNames
  split <;> rfl

/-! ## Moves -/

end Desk

/-- A header with the code of an expression for its guard. -/
def Header.Sound : Header → Prop
  | guarded _ guard _ => ExpressionCode guard
  | _ => True

namespace Desk

/-- A desk on which all code is what it should be. -/
structure Sound (d : Desk) : Prop where
  run : ∀ t ∈ d.run.tokens, t.Sound
  outer : ∀ r ∈ d.outer, ∀ t ∈ r.tokens, t.Sound
  parts : ∀ s ∈ d.strings, ∀ part ∈ s.parts, part.Sound
  header : ∀ h ∈ d.header, h.Sound
  crafted : d.Crafted
  distinct : d.Distinct

section
variable {c : Cursor} {d d' : Desk}

/-- Only what is being read changes; the code stays as it is. -/
theorem Sound.read {functions : Functions} {hasEntry : Bool} {nesting : Nesting} {run : Run}
    {strings : List Draft} {header : Option Header} (h : d.Sound)
    (hr : ∀ t ∈ run.tokens, t.Sound) (hp : ∀ s ∈ strings, ∀ part ∈ s.parts, part.Sound)
    (hh : ∀ h ∈ header, h.Sound) :
    Sound { d with functions, hasEntry, nesting, run, strings, header } where
  run := hr
  outer := h.outer
  parts := hp
  header := hh
  crafted := ⟨h.crafted.code, h.crafted.blocks, h.crafted.chunks⟩
  distinct := h.distinct

theorem Sound.clear (h : d.Sound) : d.clear.Sound :=
  h.read nofun h.parts h.header

theorem Sound.setNames (h : d.Sound) (names : Names) : (d.setNames names).Sound := by
  have hd : (d.setNames names).Distinct := by
    intro l
    rw [labelList_setNames, labels_setNames]
    exact h.distinct l
  have hc := h.crafted.setNames names
  revert hd hc
  unfold Desk.setNames
  split <;> exact fun hd hc => ⟨h.run, h.outer, h.parts, h.header, hc, hd⟩

/-- Code is added to a desk of which the rest is sound. -/
theorem Sound.added {code : List Asm} (ht : ∀ t ∈ d.run.tokens, t.Sound)
    (ho : ∀ r ∈ d.outer, ∀ t ∈ r.tokens, t.Sound)
    (hp : ∀ s ∈ d.strings, ∀ part ∈ s.parts, part.Sound) (hh : ∀ h ∈ d.header, h.Sound)
    (hc : d.Crafted) (hcode : Piece d.chunks.length (exits d.blocks) code)
    (hl : ∀ l, d.labelList.count l + (Asm.marks code).count l ≤
      if l.index < d.labels.next then 1 else 0) : (d.added code).Sound := by
  have hcr := hc.added hcode
  have hdi := Distinct.added hl
  revert hcr hdi
  unfold Desk.added
  split <;> exact fun hcr hdi => ⟨ht, ho, hp, hh, hcr, hdi⟩

theorem Sound.push {t : Token} (h : d.Sound) (ht : t.Sound) : (d.push t).Sound :=
  h.read (List.forall_mem_append.2 ⟨h.run, List.forall_mem_singleton.2 ht⟩) h.parts h.header

/-- Tokens that are read off a source have no holes. -/
theorem sound_of_isCollected {t : Token} (h : t.isCollected = true) : t.Sound := by
  cases t with
  | string s => cases h
  | _ => trivial

theorem closingParts_sound {parts : List StringPart} (h : ∀ part ∈ parts, part.Sound)
    (text : String) : ∀ part ∈ closingParts parts text, part.Sound := by
  unfold closingParts
  split
  · exact List.forall_mem_append.2 ⟨h, List.forall_mem_singleton.2 trivial⟩
  · exact h

theorem Sound.header_of_heads {line : UInt32} {round : Round} {h : Header} (hd : d.Sound)
    (hh : d.Heads line round h) : h.Sound := by
  unfold Heads at hh
  simp only at hh
  split at hh
  · obtain ⟨_, _, rfl⟩ := hh; trivial
  · subst hh; trivial
  · obtain ⟨guard, hg, rfl⟩ := hh
    refine (Expression.compile_yields _ line fun t ht => ?_).of_ok hg
    exact hd.run t (List.mem_of_mem_drop ht)
  · cases hh
  · cases hh

theorem Sound.statement {d₁ : Desk} {code : List Asm} {line : UInt32} (h : d.Sound)
    (hs : d.clear.statement line d.run.tokens = .ok (code, d₁)) : (d₁.added code).Sound := by
  obtain ⟨⟨hp, hm, hd⟩, -⟩ := (statement_yields d.chunks.length h.run).of_ok hs
  have h₁ : d₁.Sound ∧ exits d₁.blocks = exits d.blocks ∧ d₁.chunks = d.chunks := by
    rcases hd with rfl | ⟨names, rfl⟩
    · exact ⟨h.clear, rfl, rfl⟩
    · exact ⟨h.clear.setNames names, exits_setNames names, chunks_setNames names⟩
  obtain ⟨h₁, he, hc⟩ := h₁
  refine Sound.added h₁.run h₁.outer h₁.parts h₁.header h₁.crafted ?_ ?_
  · rw [he, hc]; exact hp
  · rw [hm]; exact h₁.distinct

/-- A block begins. -/
theorem Sound.begin {b : Block} {bs : List Block} {labels : LabelSupply} {nesting : Nesting}
    (h : d.Sound) (hb : b.Built d.chunks.length (exits bs)) (hbs : Built d.chunks.length bs)
    (hl : ∀ l, (Asm.marks d.code ++ (b :: bs).flatMap Block.labels).count l ≤
      if l.index < labels.next then 1 else 0) :
    Sound { d with header := none, labels, blocks := b :: bs, nesting } where
  run := h.run
  outer := h.outer
  parts := h.parts
  header := by simp
  crafted := ⟨h.crafted.code, ⟨hb, hbs⟩, h.crafted.chunks⟩
  distinct := hl

/-- The innermost block and the blocks around it. -/
theorem Sound.built {b : Block} {bs : List Block} (h : d.Sound) (hb : d.blocks = b :: bs) :
    Built d.chunks.length (b :: bs) := by
  rw [← hb]
  exact h.crafted.blocks

/-- The parts of the innermost string and of the strings around it. -/
theorem Sound.drafted {s : Draft} {strings : List Draft} (h : d.Sound)
    (hs : d.strings = s :: strings) : (∀ part ∈ s.parts, part.Sound) ∧
      ∀ s ∈ strings, ∀ part ∈ s.parts, part.Sound := by
  have hp := h.parts
  rw [hs] at hp
  exact List.forall_mem_cons.1 hp

/-- The labels of the blocks around the innermost one. -/
theorem Distinct.tail {b : Block} {bs : List Block} (h : d.Distinct) (hb : d.blocks = b :: bs)
    (l : Label) :
    (Asm.marks d.code ++ bs.flatMap Block.labels).count l + b.labels.count l ≤
      if l.index < d.labels.next then 1 else 0 := by
  have hl := h l
  simp only [labelList, hb, List.flatMap_cons, List.count_append] at hl
  rw [List.count_append]
  omega

theorem Distinct.nodup_content {b : FunctionBlock} {bs : List Block} (h : d.Distinct)
    (hb : d.blocks = .function b :: bs) : (Asm.marks b.content).Nodup := by
  rw [List.nodup_iff_count_le_one]
  intro l
  have hl := h.tail hb l
  have hle : (Asm.marks b.content).count l ≤ (Block.function b).labels.count l := by
    obtain ⟨role, params, names, line, content⟩ := b
    cases role with
    | entry exit => simp only [Block.labels, List.count_cons]; omega
    | named name | anonymous => exact Nat.le_refl _
  split at hl <;> omega

/-- The code of a finished function is sound. -/
theorem Sound.endFunction {nesting : Nesting} {b : FunctionBlock} {blocks : List Block}
    {code : List Asm} {chunks : List Chunk} (h : d.Sound) (hb : d.blocks = .function b :: blocks)
    (hr : b.isAnonymous = false) (hf : b.finish d.chunks = .ok (code, chunks)) :
    ({ d with nesting, blocks, chunks }.added code).Sound := by
  have hbl := h.built hb
  have hl := h.distinct.tail hb
  cases hrole : b.role with
  | anonymous => simp [FunctionBlock.isAnonymous, hrole] at hr
  | entry exit =>
    rw [FunctionBlock.finish_entry hrole] at hf
    obtain ⟨rfl, rfl⟩ := Prod.mk.inj (Except.ok.inj hf)
    refine Sound.added h.run h.outer h.parts h.header ⟨h.crafted.code, hbl.2, h.crafted.chunks⟩ ?_ ?_
    · have hp := FunctionBlock.entryCode_piece exit hbl.1
      exact ⟨hp.effects, hp.used, fun l hl => (hp.placed l hl).imp_right (by simp)⟩
    · intro l
      have hl := hl l
      obtain ⟨role, params, names, line, content⟩ := b
      subst hrole
      simp only [labelList, FunctionBlock.entryCode, Block.labels, Asm.marks_append, Asm.marks_op,
        Asm.marks_mark, Asm.marks_nil, List.nil_append, List.count_append, List.count_cons,
        List.count_nil] at hl ⊢
      omega
  | named name =>
    obtain ⟨code', hfin, hv⟩ := FunctionBlock.finish_named hrole hbl.1 (h.distinct.nodup_content hb)
    rw [hfin] at hf
    obtain ⟨rfl, rfl⟩ := Prod.mk.inj (Except.ok.inj hf)
    have hn : d.chunks.length ≤
        (d.chunks ++ [(⟨name, b.params, code', b.line⟩ : Chunk)]).length := by simp
    refine Sound.added h.run h.outer h.parts h.header ?_
      (FunctionBlock.bindCode_piece (by simp) _ name) ?_
    · refine ⟨h.crafted.code.mono hn, hbl.2.mono hn, ?_⟩
      exact List.forall_mem_append.2 ⟨fun ch hch => (h.crafted.chunks ch hch).mono hn,
        List.forall_mem_singleton.2 (hv.mono hn)⟩
    · intro l
      exact Nat.le_trans (Nat.le_add_right _ _) (hl l)

theorem Sound.endLoop {nesting : Nesting} {b : LoopBlock} {blocks : List Block} (h : d.Sound)
    (hb : d.blocks = .loop b :: blocks) : ({ d with nesting, blocks }.added b.finish).Sound := by
  have hbl := h.built hb
  refine Sound.added h.run h.outer h.parts h.header ⟨h.crafted.code, hbl.2, h.crafted.chunks⟩
    (LoopBlock.finish_piece hbl.1) fun l => ?_
  have hl := h.distinct.tail hb l
  rw [LoopBlock.marks_finish hbl.1]
  simp only [labelList, Block.labels, List.count_append, List.count_cons, List.count_nil] at hl ⊢
  omega

theorem Sound.endChain {nesting : Nesting} {chain : Chain} {blocks : List Block} (h : d.Sound)
    (hb : d.blocks = .chain chain :: blocks) :
    ({ d with nesting, blocks, labels := chain.supplyAfter d.labels }.added
      (chain.code d.labels)).Sound := by
  have hbl := h.built hb
  refine Sound.added h.run h.outer h.parts h.header ⟨h.crafted.code, hbl.2, h.crafted.chunks⟩
    (Chain.code_piece d.labels hbl.1) fun l => ?_
  have hl := h.distinct.tail hb l
  obtain ⟨hle, hc⟩ := Chain.count_code d.labels l fun cl hcl => (hbl.1.clauses cl hcl).guard
  simp only [labelList, Block.labels, Chain.handedOut, List.count_append] at hl hc ⊢
  grind

/-- Another clause can be added to a chain. -/
theorem Built.pushClause {n : Nat} {chain : Chain} {bs : List Block} (cl : Clause)
    (h : Built n (.chain chain :: bs)) (hg : ∀ g ∈ cl.guard, ExpressionCode g)
    (hb : cl.body = []) (state : ChainState) :
    Built n (.chain ⟨cl :: chain.clauses, state⟩ :: bs) := by
  obtain ⟨⟨hcl, cl₀, hl, hf⟩, hbs⟩ := h
  refine ⟨⟨List.forall_mem_cons.2 ⟨⟨hg, by rw [hb]; exact .nil⟩, hcl⟩, cl₀, ?_, hf⟩, hbs⟩
  rw [List.getLast?_cons, hl]
  rfl

/-- The marks of a chain and of the chain with an empty clause are the same. -/
theorem labels_pushClause {chain : Chain} {cl : Clause} (hb : cl.body = []) (state : ChainState) :
    (Block.chain ⟨cl :: chain.clauses, state⟩).labels = (Block.chain chain).labels := by
  simp [Block.labels, hb]

/-- The labels are still distinct when a chain gets a clause without code. -/
theorem Distinct.pushClause {chain : Chain} {bs : List Block} {cl : Clause} (h : d.Distinct)
    (hb : d.blocks = .chain chain :: bs) (hc : cl.body = []) (state : ChainState) (l : Label) :
    (Asm.marks d.code ++ (.chain ⟨cl :: chain.clauses, state⟩ :: bs).flatMap Block.labels).count l ≤
      if l.index < d.labels.next then 1 else 0 := by
  have hl := h l
  rw [labelList, hb] at hl
  rwa [List.flatMap_cons, labels_pushClause hc]

/-- A hole begins behind a text, and nothing of it has been read. -/
theorem Sound.openHole {s : Draft} {strings : List Draft} (h : d.Sound)
    (hs : d.strings = s :: strings) (text : String) (line : UInt32) : Sound { d with
      strings := { s with parts := s.parts ++ [.text text] } :: strings
      blocks := .function ⟨.anonymous, [], {}, line, []⟩ :: d.blocks
      run := {}
      outer := d.run :: d.outer
      nesting := .curly :: d.nesting } := by
  obtain ⟨hs, hp⟩ := h.drafted hs
  have hs' : ∀ part ∈ s.parts ++ [.text text], part.Sound :=
    List.forall_mem_append.2 ⟨hs, List.forall_mem_singleton.2 trivial⟩
  exact ⟨nofun, List.forall_mem_cons.2 ⟨h.run, h.outer⟩, List.forall_mem_cons.2 ⟨hs', hp⟩,
    h.header, ⟨h.crafted.code, ⟨.nil, h.crafted.blocks⟩, h.crafted.chunks⟩, h.distinct⟩

/-- A hole ends, and its code becomes a part of the string. -/
theorem Sound.closeHole {run : Run} {outer : List Run} {b : FunctionBlock} {blocks : List Block}
    {s : Draft} {strings : List Draft} {code : List Asm} {line : UInt32} (h : d.Sound)
    (ho : d.outer = run :: outer) (hb : d.blocks = .function b :: blocks)
    (hs : d.strings = s :: strings) (he : d.expression line d.run.tokens = .ok code) :
    Sound { d with
      run, outer, blocks
      strings := { s with parts := s.parts ++ [.hole code] } :: strings
      nesting := d.nesting.tail } := by
  obtain ⟨hs, hp⟩ := h.drafted hs
  have hs' : ∀ part ∈ s.parts ++ [.hole code], part.Sound :=
    List.forall_mem_append.2 ⟨hs, List.forall_mem_singleton.2
      ((Expression.compile_yields _ _ h.run).of_ok he)⟩
  have hout := h.outer
  rw [ho] at hout
  obtain ⟨hr, hout⟩ := List.forall_mem_cons.1 hout
  exact ⟨hr, hout, List.forall_mem_cons.2 ⟨hs', hp⟩, h.header,
    ⟨h.crafted.code, (h.built hb).2, h.crafted.chunks⟩,
    fun l => Nat.le_trans (Nat.le_add_right _ _) (h.distinct.tail hb l)⟩

/-- **Moves keep the code on a desk sound.** -/
theorem Move.sound {awaited : Option Token} (hm : Move c d awaited d') (h : d.Sound) :
    d'.Sound := by
  cases hm with
  | stay => exact h
  | collect ht => exact h.push (sound_of_isCollected ht)
  | openRound =>
    exact h.read (h.push (t := .bracket .openRound) trivial).run h.parts h.header
  | closeRound =>
    exact Sound.push (d := d.unround _ _) (h.read h.run h.parts h.header) trivial
  | closeHeader _ _ hh =>
    refine h.read nofun h.parts fun h' he => ?_
    cases he
    exact h.header_of_heads hh
  | statement _ _ _ _ _ hs => exact h.statement hs
  | openString => exact h.read h.run (List.forall_mem_cons.2 ⟨nofun, h.parts⟩) h.header
  | closeString text _ hs =>
    obtain ⟨hs, hp⟩ := h.drafted hs
    exact (h.read h.run hp h.header).push (t := .string _) (closingParts_sound hs text)
  | openHole text _ hs => exact h.openHole hs text c.line
  | closeHole _ ho hb hs he => exact h.closeHole ho hb hs he
  | beginFunction => exact h.begin .nil h.crafted.blocks h.distinct
  | beginEntry =>
    refine h.begin .nil h.crafted.blocks fun l => ?_
    have hl := h.distinct l
    simp only [labelList, Block.labels, List.flatMap_cons, Asm.marks_nil, List.count_append,
      List.count_cons, List.count_nil, LabelSupply.fresh] at hl ⊢
    grind
  | beginChain hh =>
    have hg : ExpressionCode _ := h.header _ hh
    refine h.begin ⟨List.forall_mem_singleton.2 ⟨fun g he => ?_, .nil⟩, _, rfl, rfl⟩
      h.crafted.blocks h.distinct
    cases he
    exact hg
  | beginLoop hh =>
    have hg : ExpressionCode _ := h.header _ hh
    refine h.begin ⟨hg, .nil⟩ h.crafted.blocks fun l => ?_
    have hl := h.distinct l
    simp only [labelList, Block.labels, LoopBlock.begin, List.flatMap_cons, Asm.marks_nil,
      List.count_append, List.count_cons, List.count_nil, LabelSupply.fresh] at hl ⊢
    grind
  | @beginFurther guard line chain blocks hh hb =>
    have hg : ExpressionCode guard := h.header _ hh
    have hbl := Built.pushClause ⟨.further, some guard, [], line⟩ (h.built hb)
      (fun g he => by cases he; exact hg) rfl .filling
    exact h.begin hbl.1 hbl.2 (h.distinct.pushClause hb rfl .filling)
  | beginLast _ _ _ hb =>
    exact ⟨h.clear.run, h.outer, h.parts, h.header, ⟨h.crafted.code,
      Built.pushClause _ (h.built hb) (by simp) rfl .filling, h.crafted.chunks⟩,
      h.distinct.pushClause hb rfl .filling⟩
  | endFunction _ _ _ hb hr hf => exact h.endFunction hb hr hf
  | endLoop _ _ _ hb => exact h.endLoop hb
  | endClause _ _ _ hb =>
    have hbl := h.built hb
    refine ⟨h.run, h.outer, h.parts, h.header, ⟨h.crafted.code,
      ⟨⟨hbl.1.clauses, hbl.1.first⟩, hbl.2⟩, h.crafted.chunks⟩, fun l => ?_⟩
    have hl := h.distinct l
    rwa [labelList, hb] at hl
  | endChain _ _ _ hb => exact h.endChain hb

/-! ## The code of the module -/

theorem code_added {n : Nat} {code : List Asm} (hc : Piece n (exits d.blocks) code) :
    (d.added code).code = d.code ∨
      ∃ new, (d.added code).code = d.code ++ new ∧ Piece n [] new := by
  unfold added
  split
  · next he =>
    rw [he] at hc
    exact .inr ⟨code, rfl, hc⟩
  · exact .inl rfl

theorem code_setNames (names : Names) : (d.setNames names).code = d.code := by
  unfold Desk.setNames
  split <;> rfl

/-- **What a move adds to the code of the module is a piece of its own.** -/
theorem Move.code_cases {awaited : Option Token} (hm : Move c d awaited d') (h : d.Sound) :
    d'.code = d.code ∨ ∃ n new, d'.code = d.code ++ new ∧ Piece n [] new := by
  have of_added : ∀ (d₁ : Desk) {n : Nat} {code : List Asm}, d₁.code = d.code →
      Piece n (exits d₁.blocks) code → (d₁.added code).code = d.code ∨
        ∃ n new, (d₁.added code).code = d.code ++ new ∧ Piece n [] new := by
    intro d₁ n code hd hc
    rcases code_added hc with he | ⟨new, he, hn⟩
    · exact .inl (he.trans hd)
    · exact .inr ⟨n, new, by rw [he, hd], hn⟩
  cases hm with
  | @statement code d₁ _ _ _ _ _ hs =>
    obtain ⟨⟨hp, -, hd⟩, -⟩ := (statement_yields d.chunks.length h.run).of_ok hs
    rcases hd with rfl | ⟨names, rfl⟩
    · exact of_added _ rfl hp
    · exact of_added _ (code_setNames names) (by rw [exits_setNames]; exact hp)
  | @endFunction nesting b blocks code chunks _ _ _ hb hr hf =>
    have hbl := h.crafted.blocks
    rw [hb] at hbl
    refine of_added { d with nesting, blocks, chunks } (n := chunks.length) rfl ?_
    cases hrole : b.role with
    | anonymous => simp [FunctionBlock.isAnonymous, hrole] at hr
    | entry exit =>
      rw [FunctionBlock.finish_entry hrole] at hf
      cases hf
      have hp := FunctionBlock.entryCode_piece exit hbl.1
      exact ⟨hp.effects, hp.used, fun l hl => (hp.placed l hl).imp_right (by simp)⟩
    | named name =>
      obtain ⟨code', hfin, -⟩ :=
        FunctionBlock.finish_named hrole hbl.1 (h.distinct.nodup_content hb)
      rw [hfin] at hf
      cases hf
      exact FunctionBlock.bindCode_piece (by simp) _ name
  | @endLoop nesting b blocks _ _ _ hb =>
    have hbl := h.crafted.blocks
    rw [hb] at hbl
    exact of_added { d with nesting, blocks } rfl (LoopBlock.finish_piece hbl.1)
  | @endChain nesting chain blocks _ _ _ hb =>
    have hbl := h.crafted.blocks
    rw [hb] at hbl
    exact of_added { d with nesting, blocks, labels := chain.supplyAfter d.labels } rfl
      (Chain.code_piece d.labels hbl.1)
  | _ => exact .inl rfl

end

end Desk

end Naskah
