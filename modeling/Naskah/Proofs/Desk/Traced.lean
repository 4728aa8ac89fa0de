/-
  The code on a desk flows, with the sights that a source has come to (`Traced`).  A step of the
  source that uses only names in sight keeps this, whatever it does to the desk (`Move.traced`).
-/
import Naskah.Proofs.Block.Flow
import Naskah.Proofs.Desk.Framed
import Naskah.Proofs.Desk.Sights

namespace Naskah

/-! ## Statements -/

namespace Desk

section
variable {L : Ledger} {inModule : Bool} {d d' d₁ : Desk} {s t : Sight} {ss : List Sight}
  {line : UInt32} {tokens : List Token} {code : List Asm}

/-- A statement that binds a name ends by storing it. -/
theorem statement_stores {x : String} (hx : boundName? tokens = some x) :
    Ensures (d.statement line tokens) fun r => ∃ value, r.1 = value ++ [.op (.storeName x)] := by
  have declared : ∀ {kind : NameKind} {l : Literal} {rest : List Token}, l.text = x →
      Ensures (d.declaration kind line (.identifier l :: rest))
        fun r => ∃ value, r.1 = value ++ [.op (.storeName x)] := by
    rintro kind l rest rfl
    refine Ensures.after fun r _ => ?_
    refine Ensures.after fun value _ => ?_
    refine Ensures.after fun names _ => ?_
    exact .pure ⟨value, rfl⟩
  unfold boundName? at hx
  split at hx
  · exact declared (Option.some.inj hx)
  · exact declared (Option.some.inj hx)
  · next l rest =>
    cases hx
    refine Ensures.bind (P := fun code => ∃ value, code = value ++ [.op (.storeName l.text)]) ?_
      fun code _ hc => .pure hc
    refine Ensures.after fun _ _ => ?_
    refine Ensures.after fun value _ => ?_
    exact .pure ⟨value, rfl⟩
  · cases hx

/-- A statement flows to the sight with the name that it binds. -/
theorem Does.flows {R : String → Prop} (h : d.Does R tokens code d₁)
    (hR : ∀ x, R x → s.Sees x ∨ x = Builtin.print.name)
    (hb : ∀ x ∈ boundName? tokens, ∃ value, code = value ++ [.op (.storeName x)])
    (hl : ∀ l ∈ exits d.blocks, L.Meets l s) :
    Flows L inModule s code (s.bindAll inModule (boundName? tokens).toList) := by
  have value : ∀ {v : List Asm}, ExpressionCode v → Reads R v → Flows L inModule s v s :=
    fun he hr => .expression he (hr.mono hR)
  -- the last instruction is the one that stores the name
  have store : ∀ {v : List Asm} {y : String}, Flows L inModule s v s →
      code = v ++ [.op (.storeName y)] →
        Flows L inModule s code (s.bindAll inModule (boundName? tokens).toList) := by
    rintro v y hv rfl
    refine (hv.append .store).to_le ?_
    cases hx : boundName? tokens with
    | none => exact s.le_bind
    | some x =>
      obtain ⟨w, hw⟩ := hb x hx
      cases (List.append_inj' hw rfl).2
      exact le_refl _
  have unbound : ∀ {v : List Asm} {i : Instr Label}, code = v ++ [.op i] →
      (∀ y, i ≠ .storeName y) → boundName? tokens = none := by
    rintro v i rfl hi
    rw [Option.eq_none_iff_forall_ne_some]
    intro x hx
    obtain ⟨w, hw⟩ := hb x hx
    cases (List.append_inj' hw rfl).2
    exact hi x rfl
  cases h with
  | declares _ he hr | assigns _ he hr => exact store (value he hr) rfl
  | drops he hr | returns he hr =>
    rw [unbound rfl nofun]
    exact (value he hr).append (.single trivial nofun)
  | leaves hm =>
    rw [unbound (v := []) rfl nofun]
    exact .jump (hl _ hm)

end

end Desk

/-! ## Desks -/

/-- The sights that chunks begin with: the own name of the function, and from there all code
    flows. -/
structure Ledger.Enters (L : Ledger) (chunks : List Chunk) : Prop where
  length_eq : L.entries.length = chunks.length
  flows : ∀ (k : Nat) (chunk : Chunk), chunks[k]? = some chunk → ∃ e code u, L.entries[k]? = some e ∧
    e.own = [chunk.name] ∧ Asm.assemble code = .ok chunk.code ∧ Flows L false e code u

section
variable {L : Ledger} {chunks : List Chunk}

theorem Ledger.Enters.mark {n : Nat} {t : Sight} (h : L.Enters chunks) :
    (L.mark n t).Enters chunks := by
  refine ⟨h.length_eq, fun k chunk hk => ?_⟩
  obtain ⟨e, code, u, he, ho, ha, hf⟩ := h.flows k chunk hk
  exact ⟨e, code, u, he, ho, ha, hf.mono le_mark⟩

theorem Ledger.Enters.enter {chunk : Chunk} {e u : Sight} {code : List Asm} (h : L.Enters chunks)
    (ho : e.own = [chunk.name]) (ha : Asm.assemble code = .ok chunk.code)
    (hf : Flows L false e code u) : (L.enter e).Enters (chunks ++ [chunk]) := by
  constructor
  · show (L.entries ++ [e]).length = (chunks ++ [chunk]).length
    simp [h.length_eq]
  · intro k chunk' hk
    by_cases hlt : k < chunks.length
    · rw [List.getElem?_append_left hlt] at hk
      obtain ⟨e', code', u', he, ho, ha, hf⟩ := h.flows k chunk' hk
      exact ⟨e', code', u', getElem?_of_extends le_enter.1 he, ho, ha, hf.mono le_enter⟩
    · have hlen := (List.getElem?_eq_some_iff.1 hk).1
      rw [List.length_append, List.length_singleton] at hlen
      obtain rfl : k = chunks.length := by omega
      rw [List.getElem?_concat_length] at hk
      cases hk
      refine ⟨e, code, u, ?_, ho, ha, hf.mono le_enter⟩
      show (L.entries ++ [e])[chunks.length]? = some e
      rw [← h.length_eq, List.getElem?_concat_length]

end

namespace Desk

/-- All code on a desk flows, with the sights of its blocks. -/
structure Traced (L : Ledger) (d : Desk) (ss : List Sight) : Prop where
  labels : L.labels.length = d.labels.next
  enters : L.Enters d.chunks
  named : ∀ s ∈ ss, "__name__" ∈ s.shared
  framed : Framed L d.code d.blocks ss
  awaits : ∀ s ∈ ss.head?, d.Awaits fun x => s.Sees x ∨ x = Builtin.print.name

section
variable {L L' : Ledger} {c : Cursor} {d d' d₁ : Desk} {s t : Sight} {ss : List Sight} {b : Block}
  {bs : List Block} {code : List Asm}

/-- A move that touches no code. -/
theorem Traced.keep (h : Traced L d (s :: ss)) (hl : d'.labels = d.labels)
    (hcode : d'.code = d.code) (hb : d'.blocks = d.blocks) (hc : d'.chunks = d.chunks)
    (hn : d.Completes d' → d'.header = none → boundName? d.run.tokens = none)
    (hw : d'.Awaits fun x => s.Sees x ∨ x = Builtin.print.name) :
    Traced L d' (d.see d' (s :: ss)) := by
  have hs : d'.chained?.isSome = true → ss.headD s = s := by
    intro hch
    obtain ⟨⟨c, bs⟩, hch⟩ := Option.isSome_iff_exists.1 hch
    obtain ⟨hblocks, hstate⟩ := chained?_eq_some_iff.1 hch
    have hf := h.framed
    rw [← hb, hblocks] at hf
    obtain ⟨t, rest, rfl, hframe, -⟩ := hf.of_cons
    exact (hframe.1 hstate).symm
  rw [see_of_not_bound (by rw [hb]) hs hn]
  refine ⟨by rw [hl]; exact h.labels, by rw [hc]; exact h.enters, h.named, ?_, ?_⟩
  · rw [hcode, hb]
    exact h.framed
  · rintro _ ⟨⟩
    exact hw

theorem shared_inner (d : Desk) (s : Sight) : s.shared ⊆ (d.inner s).shared := by
  unfold inner
  split
  · exact (Sight.le_bind ⟨_, s.shared⟩).2
  · exact List.Subset.refl _

/-- A block begins. -/
theorem Traced.begin {n : Nat} {u : Sight} (h : Traced L d (s :: ss))
    (hl : d'.labels.next = d.labels.next + n) (hcode : d'.code = d.code)
    (hb : d'.blocks = b :: d.blocks) (hc : d'.chunks = d.chunks)
    (hf : b.Framed (L.mark n u) (Exposed d.blocks) s (d.inner s))
    (hw : d'.Awaits fun x => (d.inner s).Sees x ∨ x = Builtin.print.name) :
    Traced (L.mark n u) d' (d.see d' (s :: ss)) := by
  rw [see_of_cons hb]
  refine ⟨?_, by rw [hc]; exact h.enters.mark, ?_, ?_, ?_⟩
  · show (L.labels ++ List.replicate n u).length = _
    rw [List.length_append, List.length_replicate, h.labels, hl]
  · exact List.forall_mem_cons.2 ⟨shared_inner d s (h.named s List.mem_cons_self), h.named⟩
  · rw [hcode, hb]
    exact ⟨hf, h.framed.mono Ledger.le_mark⟩
  · rintro _ ⟨⟩
    exact hw

theorem length_blocks_added : (d.added code).blocks.length = d.blocks.length := by
  unfold added
  split
  · rfl
  · next he => simp [he]

theorem exposed_added : Exposed (d.added code).blocks ↔ Exposed d.blocks := by
  unfold added
  split
  · rfl
  · next b bs he =>
    rw [he]
    exact exposed_congr (b.defines_add code)

/-- A block ends.  Its code goes on to the block around it, and binds the functions that have
    become chunks. -/
theorem Traced.finish {nesting : Nesting} {labels : LabelSupply} {chunks : List Chunk}
    (new : List Chunk) (h : Traced L d (s :: t :: ss)) (hq : d.Quiet) (hb : d.blocks = b :: bs)
    (ho : ∀ b ∈ bs, b.isOpen = true) (hL : L ≤ L') (hl : L'.labels.length = labels.next)
    (hn : chunks = d.chunks ++ new) (he : L'.Enters chunks)
    (hc : Flows L' (Exposed bs) t code (t.bindAll (Exposed bs) (new.map Chunk.name))) :
    Traced L' ({ d with nesting, blocks := bs, labels, chunks }.added code)
      (d.see ({ d with nesting, blocks := bs, labels, chunks }.added code) (s :: t :: ss)) := by
  rw [see_of_tail hb length_blocks_added, chunks_added, decide_eq_decide.2 exposed_added]
  simp only [hn, List.drop_left]
  refine ⟨?_, by rw [chunks_added, ← hn]; exact he, ?_, ?_, ?_⟩
  · rw [labels_added]
    exact hl
  · have hn := List.forall_mem_cons.1 (List.forall_mem_cons.1 h.named).2
    exact List.forall_mem_cons.2 ⟨Sight.le_bindAll.2 hn.1, hn.2⟩
  · have hf := h.framed
    rw [hb] at hf
    exact framed_added (hf.2.mono hL) ho hc Sight.le_bindAll
  · rintro _ ⟨⟩
    exact (hq.finish code).awaits

/-- Another clause begins. -/
theorem Traced.clause {chain : Chain} {cl : Clause} (h : Traced L d (s :: ss))
    (hl : d'.labels = d.labels) (hcode : d'.code = d.code) (hc : d'.chunks = d.chunks)
    (hb : d.blocks = .chain chain :: bs)
    (hb' : d'.blocks = .chain ⟨cl :: chain.clauses, .filling⟩ :: bs) (hst : chain.state = .chained)
    (hg : ∀ g ∈ cl.guard, Flows L (Exposed d.blocks) s g s) (he : cl.body = [])
    (hn : boundName? d.run.tokens = none)
    (hw : d'.Awaits fun x => s.Sees x ∨ x = Builtin.print.name) :
    Traced L d' (d.see d' (s :: ss)) := by
  have hch : d'.chained?.isSome = true → ss.headD s = s := by
    intro hch
    obtain ⟨⟨c, bs'⟩, hch⟩ := Option.isSome_iff_exists.1 hch
    obtain ⟨hblocks, hstate⟩ := chained?_eq_some_iff.1 hch
    rw [hb'] at hblocks
    cases hblocks
    cases hstate
  rw [see_of_not_bound (by rw [hb, hb']; rfl) hch fun _ _ => hn]
  refine ⟨by rw [hl]; exact h.labels, by rw [hc]; exact h.enters, h.named, ?_, ?_⟩
  · have hf := h.framed
    rw [hb] at hf hg
    have hguard : ∀ g ∈ cl.guard, Flows L (Exposed bs) s g s := by
      rw [decide_eq_decide.2 (exposed_tail (b := .chain chain) rfl)]
      exact hg
    obtain ⟨t, rest, rfl, ⟨hs, hle, hcl, -⟩, hbs⟩ := hf.of_cons
    obtain rfl := hs hst
    have hbody : Flows L (Exposed bs) s cl.body s := by
      rw [he]
      exact le_refl s
    rw [hcode, hb']
    refine ⟨⟨nofun, hle, ?_, ?_⟩, hbs⟩
    · exact List.forall_mem_cons.2 ⟨⟨hguard, hbody⟩, hcl⟩
    · rintro _ ⟨⟩
      exact hbody
  · rintro _ ⟨⟩
    exact hw

/-- The blocks around one that ends are open. -/
theorem Shape.isOpen_tail {nesting : Nesting} (hs : d.Shape none)
    (hn : d.nesting = .curly :: nesting) (hi : d.nesting.inHole = false) (ht : d.run.tokens = [])
    (hb : d.blocks = b :: bs) : ∀ b ∈ bs, b.isOpen = true := by
  cases hs with
  | ready h =>
    obtain ⟨m', -, -, -, -, ho⟩ := h.of_end hn hi ht
    rw [hb] at ho
    exact ho.tail.isOpen

/-- The blocks are open at the end of a statement. -/
theorem Shape.open_of_statement (hs : d.Shape none) (ho : d.outer = [])
    (hf : d.run.tokens.head? ≠ some (.keyword .otherwise)) : ∃ m, Open m d.blocks := by
  cases hs with
  | @ready m chained h =>
    have hc : chained = false := by
      rw [Bool.eq_false_iff, Ne, ← h.first, firstToken?_of_outer ho]
      exact hf
    subst hc
    exact ⟨m, Stacked.eq_opened h.stacked (by rw [ho]; rfl)⟩

theorem consumed_of_quiet (ho : d.outer = []) (hq : d'.Quiet) :
    d.consumed d' = used d.run.tokens := by
  have hc : d.Completes d' := ⟨by rw [hq.outer, ho], by rw [hq.run]⟩
  rw [consumed, if_neg (by simp [hq.outer, ho]), if_pos hc, hq.header]

theorem inner_eq (h : ∀ name params line, d.header ≠ some (.function name params line)) :
    d.inner s = s := by
  unfold inner
  split
  · next hh => exact absurd hh (h _ _ _)
  · rfl

/-- A statement ends. -/
theorem Traced.statement {line : UInt32} (h : Traced L d (s :: ss)) (hs : d.Shape none)
    (hd : d.Sound) (hq : d.nesting.inString = false) (ho : d.outer = []) (hr : d.run.rounds = [])
    (hf : d.run.tokens.head? ≠ some (.keyword .otherwise))
    (hd₁ : d₁ = d.clear ∨ ∃ names, d₁ = d.clear.setNames names)
    (hst : d.clear.statement line d.run.tokens = .ok (code, d₁))
    (hR : ∀ l, .identifier l ∈ d.consumed (d₁.added code) → s.Sees l.text) :
    Traced L (d₁.added code) (d.see (d₁.added code) (s :: ss)) := by
  have hquiet := (hs.of_statement hq ho hr).statement code hd₁
  obtain ⟨m, hopen⟩ := hs.open_of_statement ho hf
  rw [consumed_of_quiet ho hquiet] at hR
  have hdoes := statement_does (d := d.clear) (.inr rfl) hd.run
    ((h.awaits s rfl).refers (fun t ht => mem_of_mem_used ht) fun l hl _ => .inl (hR l hl)) _ hst
  have hflows : Flows L (Exposed d.blocks) s code
      (s.bindAll (Exposed d.blocks) (boundName? d.run.tokens).toList) :=
    hdoes.flows (fun _ hx => hx) (fun x hx => statement_stores hx _ hst)
      fun l hl => h.framed.meets hl
  -- a name that is declared makes no difference
  have h₁ : Framed L d₁.code d₁.blocks (s :: ss) ∧ Open m d₁.blocks ∧
      (Exposed d₁.blocks ↔ Exposed d.blocks) ∧ d₁.labels = d.labels ∧ d₁.chunks = d.chunks := by
    rcases hd₁ with rfl | ⟨names, rfl⟩
    · exact ⟨h.framed, hopen, Iff.rfl, rfl, rfl⟩
    · exact ⟨framed_setNames (d := d.clear) h.framed names, Open.setNames (d := d.clear) hopen names,
        exposed_setNames (d := d.clear) names, labels_setNames (d := d.clear) names,
        chunks_setNames (d := d.clear) names⟩
  obtain ⟨hframed, hopen₁, hexp, hlab, hch⟩ := h₁
  have hopen' := Open.added hopen₁ code
  rw [see_of_statement (hopen'.length_eq.trans hopen.length_eq.symm)
    (Stacked.not_chained? (.opened hopen') rfl)
    ⟨by rw [hquiet.outer, ho], by rw [hquiet.run]⟩ hquiet.header]
  refine ⟨?_, ?_, ?_, ?_, ?_⟩
  · rw [labels_added, hlab]
    exact h.labels
  · rw [chunks_added, hch]
    exact h.enters
  · have hn := List.forall_mem_cons.1 h.named
    exact List.forall_mem_cons.2 ⟨Sight.le_bindAll.2 hn.1, hn.2⟩
  · refine framed_added hframed hopen₁.isOpen ?_ Sight.le_bindAll
    rw [decide_eq_decide.2 hexp]
    exact hflows
  · rintro _ ⟨⟩
    exact hquiet.awaits

theorem Traced.of_cons (h : Traced L d (s :: ss)) (hb : d.blocks = b :: bs) : ∃ t rest,
    ss = t :: rest ∧ b.Framed L (Exposed bs) t s ∧ Framed L d.code bs (t :: rest) := by
  have hf := h.framed
  rw [hb] at hf
  exact hf.of_cons

/-- A hole ends. -/
theorem Traced.closeHole {b : FunctionBlock} (h : Traced L d (s :: ss)) (hr : b.role = .anonymous)
    (hb : d.blocks = .function b :: bs) (hl : d'.labels = d.labels) (hcode : d'.code = d.code)
    (hc : d'.chunks = d.chunks) (hb' : d'.blocks = bs)
    (hw : d'.Awaits fun x => s.Sees x ∨ x = Builtin.print.name) :
    Traced L d' (d.see d' (s :: ss)) := by
  obtain ⟨t, rest, rfl, hframe, hbs⟩ := h.of_cons hb
  obtain rfl : s = t := by
    unfold Block.Framed at hframe
    simpa only [hr] using hframe
  rw [see_of_tail hb (by rw [hb']), hc, List.drop_length]
  refine ⟨by rw [hl]; exact h.labels, by rw [hc]; exact h.enters,
    (List.forall_mem_cons.1 h.named).2, ?_, ?_⟩
  · rw [hcode, hb']
    exact hbs
  · rintro _ ⟨⟩
    exact hw

/-- A function ends. -/
theorem Traced.endFunction {b : FunctionBlock} {nesting : Nesting} {chunks : List Chunk}
    (h : Traced L d (s :: ss)) (hq : d.Quiet) (hb : d.blocks = .function b :: bs)
    (ho : ∀ b ∈ bs, b.isOpen = true) (hr : b.isAnonymous = false)
    (hf : b.finish d.chunks = .ok (code, chunks)) :
    ∃ L', Traced L' ({ d with nesting, blocks := bs, chunks }.added code)
      (d.see ({ d with nesting, blocks := bs, chunks }.added code) (s :: ss)) := by
  obtain ⟨t, rest, rfl, hframe, -⟩ := h.of_cons hb
  rcases finish_cases hr hf with ⟨exit, hrole, rfl, rfl⟩ | ⟨name, assembled, hrole, ha, rfl, rfl⟩
  · unfold Block.Framed at hframe
    simp only [hrole] at hframe
    obtain ⟨hx, hle, hcontent⟩ := hframe
    have hname : "__name__" ∈ t.shared := h.named t (by simp)
    exact ⟨L, h.finish [] hq hb ho (le_refl L) h.labels (by simp) h.enters
      (FunctionBlock.entryCode_flows hname hx hle hcontent)⟩
  · unfold Block.Framed at hframe
    simp only [hrole] at hframe
    refine ⟨_, h.finish [_] hq hb ho Ledger.le_enter h.labels rfl
      (h.enters.enter rfl ha (hframe.append .returnNull)) (FunctionBlock.bindCode_flows ?_)⟩
    rw [← h.enters.length_eq]
    exact List.getElem?_concat_length

/-- A clause ends, and another one follows. -/
theorem Traced.endClause {chain : Chain} {nesting : Nesting} (h : Traced L d (s :: ss))
    (hq : d.Quiet) (hb : d.blocks = .chain chain :: bs) :
    Traced L { d with nesting, blocks := .chain ⟨chain.clauses, .chained⟩ :: bs }
      (d.see { d with nesting, blocks := .chain ⟨chain.clauses, .chained⟩ :: bs } (s :: ss)) := by
  obtain ⟨t, rest, rfl, ⟨-, hle, hcl, hhead⟩, hbs⟩ := h.of_cons hb
  rw [see_of_chained (by rw [hb]; rfl) (by rw [chained?_eq_some_iff.2 ⟨rfl, rfl⟩]; rfl)]
  have hnamed := (List.forall_mem_cons.1 h.named).2
  refine ⟨h.labels, h.enters, List.forall_mem_cons.2 ⟨hnamed t (by simp), hnamed⟩, ⟨?_, hbs⟩, ?_⟩
  · exact ⟨fun _ => rfl, le_refl t, hcl, fun cl hm => (hhead cl hm).to_le hle⟩
  · rintro _ ⟨⟩
    obtain ⟨hr, ho, hst, hh⟩ := hq
    exact Quiet.awaits ⟨hr, ho, hst, hh⟩

/-- A chain ends. -/
theorem Traced.endChain {chain : Chain} {nesting : Nesting} (h : Traced L d (s :: ss))
    (hq : d.Quiet) (hb : d.blocks = .chain chain :: bs) (ho : ∀ b ∈ bs, b.isOpen = true) :
    ∃ L', Traced L'
      ({ d with nesting, blocks := bs, labels := chain.supplyAfter d.labels }.added
        (chain.code d.labels))
      (d.see ({ d with nesting, blocks := bs, labels := chain.supplyAfter d.labels }.added
        (chain.code d.labels)) (s :: ss)) := by
  obtain ⟨t, rest, rfl, ⟨-, -, hcl, -⟩, -⟩ := h.of_cons hb
  have hle : d.labels.next ≤ (chain.supplyAfter d.labels).next :=
    Nat.le_of_succ_le (Chain.next_le_emitClauses _ chain.clauses [] _)
  refine ⟨L.mark ((chain.supplyAfter d.labels).next - d.labels.next) t,
    h.finish [] hq hb ho Ledger.le_mark ?_ (by simp) h.enters.mark
      (Chain.code_flows ?_ fun cl hm => ?_)⟩
  · show (L.labels ++ List.replicate _ t).length = _
    rw [List.length_append, List.length_replicate, h.labels]
    omega
  · intro i h₁ h₂
    exact Ledger.getElem?_mark (by rw [h.labels]; exact h₁) (by rw [h.labels]; omega)
  · exact ⟨fun g hg => ((hcl cl hm).1 g hg).mono Ledger.le_mark, (hcl cl hm).2.mono Ledger.le_mark⟩

/-- **The code on a desk flows along every move** that uses only names in sight. -/
theorem Move.traced {awaited : Option Token} (hm : Move c d awaited d') (hs : d.Shape awaited)
    (hd : d.Sound) (h : Traced L d (s :: ss))
    (hR : ∀ l, .identifier l ∈ d.consumed d' → s.Sees l.text) :
    ∃ L', Traced L' d' (d.see d' (s :: ss)) := by
  have hw : d'.Awaits fun x => s.Sees x ∨ x = Builtin.print.name :=
    hm.awaits hs (.inr rfl) (fun l hl _ => .inl (hR l hl)) (h.awaits s rfl)
  -- the guard of a block that begins
  have guard : ∀ {L₁ : Ledger} {kind : GuardKind} {g : List Asm} {line : UInt32} {inModule : Bool},
      d.header = some (.guarded kind g line) → Flows L₁ inModule s g s := fun hh =>
    .expression (hd.header _ hh) ((h.awaits s rfl).header _ hh)
  -- all blocks but functions begin with what is in sight around them
  have begins : ∀ {b : Block} {n : Nat}, (∀ name params line,
      d.header ≠ some (.function name params line)) →
      d'.labels.next = d.labels.next + n → d'.code = d.code → d'.blocks = b :: d.blocks →
      d'.chunks = d.chunks → b.Framed (L.mark n s) (Exposed d.blocks) s s →
        ∃ L', Traced L' d' (d.see d' (s :: ss)) := by
    intro b n hh hl hcode hb hc hf
    have hi : d.inner s = s := inner_eq hh
    exact ⟨_, h.begin (u := s) hl hcode hb hc (by rw [hi]; exact hf) (by rw [hi]; exact hw)⟩
  cases hm with
  | stay | openString =>
    exact ⟨L, h.keep rfl rfl rfl rfl (fun hc _ => by rw [show d.run.tokens = [] from hc.2]; rfl) hw⟩
  | collect | openRound | closeRound | closeString =>
    exact ⟨L, h.keep rfl rfl rfl rfl (fun hc _ => by simp [Completes, push] at hc) hw⟩
  | closeHeader => exact ⟨L, h.keep rfl rfl rfl rfl (fun _ h => by cases h) hw⟩
  | statement hq ho hr hf hd₁ hst => exact ⟨L, h.statement hs hd hq ho hr hf hd₁ hst hR⟩
  | openHole =>
    cases hs with
    | ready hs => exact begins (n := 0) (by simp [hs.header]) rfl rfl rfl rfl rfl
  | closeHole _ ho hb => exact ⟨L, h.closeHole (hs.of_hole ho hb).1 hb rfl rfl rfl rfl hw⟩
  | @beginFunction name params line names hh =>
    have hi : d.inner s = Sight.bind (Exposed d.blocks) name ⟨params.map Param.name, s.shared⟩ := by
      rw [inner, hh]
    obtain ⟨hr, ho, hst⟩ := hs.of_begin
    refine ⟨_, h.begin (n := 0) (u := s) rfl rfl rfl rfl ?_ (Quiet.awaits ⟨hr, ho, hst, rfl⟩)⟩
    have hparams : Flows (L.mark 0 s) false (s.entry (Exposed d.blocks) name)
        (params.map fun p => .op (.storeName p.name)) (d.inner s) := by
      rw [hi]
      exact .params params (List.Subset.refl _) (List.Subset.refl _)
    exact hparams.append .nil
  | beginEntry hh =>
    refine begins (n := 1) (by simp [hh]) rfl rfl rfl rfl ⟨?_, le_refl s, .nil⟩
    exact Ledger.getElem?_mark (i := d.labels.next) (Nat.le_of_eq h.labels) (by rw [h.labels]; omega)
  | beginChain hh =>
    refine begins (n := 0) (by simp [hh]) rfl rfl rfl rfl
      ⟨(fun h => by cases h), le_refl s, ?_, ?_⟩
    · refine List.forall_mem_cons.2 ⟨⟨?_, .nil⟩, by simp⟩
      rintro _ ⟨⟩
      exact guard hh
    · rintro _ ⟨⟩
      exact .nil
  | beginLoop hh =>
    refine begins (n := 2) (by simp [hh]) rfl rfl rfl rfl ⟨?_, ?_, le_refl s, guard hh, .nil⟩
    · exact Ledger.getElem?_mark (i := d.labels.next) (Nat.le_of_eq h.labels)
        (by rw [h.labels]; omega)
    · exact Ledger.getElem?_mark (i := d.labels.next + 1) (by rw [h.labels]; omega)
        (by rw [h.labels]; omega)
  | beginFurther hh hb hst =>
    refine ⟨L, h.clause rfl rfl rfl hb rfl hst ?_ rfl (by rw [hs.of_begin.1]; rfl) hw⟩
    rintro _ ⟨⟩
    exact guard hh
  | beginLast _ ht _ hb hst =>
    exact ⟨L, h.clause rfl rfl rfl hb rfl hst (fun _ h => by cases h) rfl (by rw [ht]; rfl) hw⟩
  | endFunction hn hi ht hb hr hf =>
    exact h.endFunction (hs.of_end hn hi ht) hb (hs.isOpen_tail hn hi ht hb) hr hf
  | endLoop hn hi ht hb =>
    obtain ⟨t, rest, rfl, hframe, -⟩ := h.of_cons hb
    obtain ⟨h₁, h₂, hle, hg, hbody⟩ := hframe
    exact ⟨L, h.finish [] (hs.of_end hn hi ht) hb (hs.isOpen_tail hn hi ht hb) (le_refl L) h.labels
      (by simp) h.enters (LoopBlock.finish_flows h₁ h₂ hle hg hbody)⟩
  | endClause hn hi ht hb => exact ⟨L, h.endClause (hs.of_end hn hi ht) hb⟩
  | endChain hn hi ht hb =>
    exact h.endChain (hs.of_end hn hi ht) hb (hs.isOpen_tail hn hi ht hb)

end

end Desk

end Naskah
