/-
  Builders against blocks that own their code.  Whatever is done with a builder does the same with
  its block, and leaves all buffers alone but its own and new ones (`Builder.Makes`).
-/
import Naskah.Block.Builder
import Naskah.Proofs.Block.Pieces

namespace Naskah

variable {a a' : Arena} {ids : List BufferId}

/-! ## Arenas -/

/-- Buffers are never lost, and only those of `ids` and new ones are different. -/
structure Arena.Changes (ids : List BufferId) (a a' : Arena) : Prop where
  size : a.size ≤ a'.size
  get : ∀ id, id.index < a.size → id ∉ ids → a'.get id = a.get id

namespace Arena.Changes

theorem refl (ids : List BufferId) (a : Arena) : Changes ids a a :=
  ⟨Nat.le_refl _, fun _ _ _ => rfl⟩

theorem trans {ids' : List BufferId} {b : Arena} (h : Changes ids a b) (h' : Changes ids' b a') :
    Changes (ids ++ ids') a a' where
  size := Nat.le_trans h.size h'.size
  get id hlt hid := by
    rw [List.mem_append, not_or] at hid
    rw [h'.get id (Nat.lt_of_lt_of_le hlt h.size) hid.2, h.get id hlt hid.1]

theorem mono {ids' : List BufferId} (h : Changes ids a a') (hs : ∀ id ∈ ids, id ∈ ids') :
    Changes ids' a a' :=
  ⟨h.size, fun id hlt hid => h.get id hlt fun hm => hid (hs id hm)⟩

theorem alloc (a : Arena) (code : List Asm) : Changes [] a (a.alloc code).2 :=
  ⟨by simp, fun _ hlt _ => get_alloc_of_lt hlt⟩

theorem extend (a : Arena) (id : BufferId) (code : List Asm) : Changes [id] a (a.extend id code) :=
  ⟨by simp, fun _ _ hid => get_extend_of_ne (by simpa using hid)⟩

theorem take (a : Arena) (id : BufferId) : Changes [id] a (a.take id).2 :=
  ⟨by simp, fun _ _ hid => get_take_of_ne (by simpa using hid)⟩

end Arena.Changes

/-- Two new buffers with code in them. -/
structure Arena.Adds (a : Arena) (i j : BufferId) (c d : List Asm) (a' : Arena) : Prop where
  changes : Changes [] a a'
  ne : i ≠ j
  old_le : a.size ≤ i.index ∧ a.size ≤ j.index
  lt : i.index < a'.size ∧ j.index < a'.size
  get : a'.get i = c ∧ a'.get j = d

theorem Arena.adds (a : Arena) (c d : List Asm) :
    ∃ i j b a', a.alloc c = (i, b) ∧ b.alloc d = (j, a') ∧ a.Adds i j c d a' := by
  have hi : (a.alloc c).1.index = a.size := index_alloc
  have hj : ((a.alloc c).2.alloc d).1.index = a.size + 1 := size_alloc
  refine ⟨(a.alloc c).1, ((a.alloc c).2.alloc d).1, (a.alloc c).2, ((a.alloc c).2.alloc d).2, rfl,
    rfl, (Changes.alloc a c).trans (.alloc _ d), fun he => ?_, ?_, ?_, ?_, get_alloc⟩
  · rw [← he, hi] at hj
    omega
  · rw [hi, hj]
    omega
  · rw [hi, hj, size_alloc, size_alloc]
    omega
  · rw [get_alloc_of_lt (by rw [hi, size_alloc]; omega), get_alloc]

/-! ## Buffers of builders -/

/-- The buffers of a clause. -/
def ClauseBuilder.buffers (c : ClauseBuilder) : List BufferId :=
  c.body :: c.guard.toList

namespace Builder

/-- The buffers of a builder. -/
def buffers : Builder → List BufferId
  | function b => [b.header, b.content]
  | loop b => [b.guard, b.body]
  | chain c => c.clauses.flatMap ClauseBuilder.buffers

/-- A builder whose buffers are in an arena.  The header of a function is not added to. -/
structure Placed (a : Arena) (b : Builder) : Prop where
  nodup : b.buffers.Nodup
  lt : ∀ id ∈ b.buffers, id.index < a.size
  header : ∀ f, b = .function f → a.get f.header = (f.block a).header

/-- A builder that has come of one with the buffers `ids`. -/
structure Makes (ids : List BufferId) (a a' : Arena) (b : Builder) : Prop where
  changes : Arena.Changes ids a a'
  placed : b.Placed a'
  new : ∀ id ∈ b.buffers, id ∈ ids ∨ a.size ≤ id.index

theorem Makes.of_nil {b : Builder} (h : b.Makes [] a a') (ids : List BufferId) :
    b.Makes ids a a' :=
  ⟨h.changes.mono (by simp), h.placed, fun id hid => .inr (by simpa using h.new id hid)⟩

end Builder

theorem ClauseBuilder.block_congr {c : ClauseBuilder}
    (h : ∀ id ∈ c.buffers, a'.get id = a.get id) : c.block a' = c.block a := by
  have hg : c.guard.map a'.get = c.guard.map a.get :=
    Option.map_congr fun id hid => h id (by simp [buffers, hid])
  rw [block, block, hg, h c.body (by simp [buffers])]

theorem Builder.block_congr {b : Builder} (h : ∀ id ∈ b.buffers, a'.get id = a.get id) :
    b.block a' = b.block a := by
  cases b with
  | function b =>
    simp only [block, FunctionBuilder.block, h b.content (by simp [buffers])]
  | loop b =>
    simp only [block, LoopBuilder.block, h b.guard (by simp [buffers]),
      h b.body (by simp [buffers])]
  | chain c =>
    have hc : c.clauses.map (ClauseBuilder.block a') = c.clauses.map (ClauseBuilder.block a) :=
      List.map_congr_left fun cl hcl => ClauseBuilder.block_congr fun id hid =>
        h id (List.mem_flatMap.2 ⟨cl, hcl, hid⟩)
    simp only [block, ChainBuilder.block, hc]

/-- A builder keeps its place and its block when buffers of others change. -/
theorem Builder.Placed.of_changes {b : Builder} (h : b.Placed a) (hc : Arena.Changes ids a a')
    (hd : ∀ id ∈ b.buffers, id ∉ ids) : b.Placed a' ∧ b.block a' = b.block a := by
  have hget : ∀ id ∈ b.buffers, a'.get id = a.get id := fun id hid =>
    hc.get id (h.lt id hid) (hd id hid)
  refine ⟨⟨h.nodup, fun id hid => Nat.lt_of_lt_of_le (h.lt id hid) hc.size, ?_⟩, block_congr hget⟩
  rintro f rfl
  rw [hget f.header (by simp [buffers]), h.header f rfl]
  rfl

/-! ## Functions and loops -/

/-- A builder with two new buffers. -/
theorem Arena.Adds.makes {i j : BufferId} {c d : List Asm} (h : a.Adds i j c d a') {b : Builder}
    (hb : b.buffers = [i, j]) (hh : ∀ f, b = .function f → a'.get f.header = (f.block a').header) :
    b.Makes [] a a' := by
  refine ⟨h.changes, ⟨?_, ?_, hh⟩, ?_⟩
  · simpa [hb] using h.ne
  · simpa [hb] using h.lt
  · simpa [hb] using h.old_le

theorem FunctionBlock.of_begin {kind : FunctionKind} {params : List Param} {line : UInt32}
    {labels labels' : LabelSupply} {f : FunctionBlock}
    (h : begin kind params line labels = .ok (f, labels')) :
    f.params = params ∧ f.line = line ∧ f.content = [] ∧
      match kind with
      | .entry => f.role = .entry labels.fresh.1 ∧ labels' = labels.fresh.2
      | .named name => f.role = .named name ∧ labels' = labels
      | .anonymous => f.role = .anonymous ∧ labels' = labels := by
  unfold begin at h
  cases hn : declareParams params line with
  | error e => rw [hn] at h; cases h
  | ok names =>
    rw [hn] at h
    cases kind <;> cases h <;> exact ⟨rfl, rfl, rfl, rfl, rfl⟩

/-- A function is begun as one that owns its code is. -/
theorem FunctionBuilder.begin_eq (kind : FunctionKind) (params : List Param) (line : UInt32)
    (labels : LabelSupply) (a : Arena) :
    match FunctionBlock.begin kind params line labels with
    | .error e => begin kind params line labels a = .error e
    | .ok (f, labels') => ∃ b a', begin kind params line labels a = .ok (b, labels', a') ∧
        b.block a' = f ∧ (Builder.function b).Makes [] a a' := by
  cases hf : FunctionBlock.begin kind params line labels with
  | error e => simp only [begin, hf]; rfl
  | ok p =>
    obtain ⟨f, labels'⟩ := p
    obtain ⟨i, j, b, a', h₁, h₂, h⟩ := a.adds f.header []
    have hblock : (FunctionBuilder.mk f.role f.params f.names f.line i j).block a' = f := by
      simp only [block, h.get.2, ← (FunctionBlock.of_begin hf).2.2.1]
    refine ⟨⟨f.role, f.params, f.names, f.line, i, j⟩, a', ?_, hblock, h.makes rfl ?_⟩
    · simp only [begin, hf, bind, Except.bind, h₁, h₂]
      rfl
    · rintro _ ⟨⟩
      rw [hblock]
      exact h.get.1

theorem LoopBuilder.begin_eq (guard : List Asm) (line : UInt32) (labels : LabelSupply) (a : Arena) :
    ∃ b a', begin guard line labels a = (b, (LoopBlock.begin guard line labels).2, a') ∧
      b.block a' = (LoopBlock.begin guard line labels).1 ∧ (Builder.loop b).Makes [] a a' := by
  obtain ⟨i, j, b, a', h₁, h₂, h⟩ := a.adds guard []
  refine ⟨⟨i, j, labels.fresh.1, labels.fresh.2.fresh.1, line⟩, a', ?_, ?_, h.makes rfl nofun⟩
  · simp only [begin, h₁, h₂]
    rfl
  · simp only [block, h.get.1, h.get.2]
    rfl

theorem FunctionBuilder.finish_eq {b : FunctionBuilder} (h : Builder.Placed a (.function b))
    (chunks : List Chunk) :
    (b.finish chunks a).1 = (b.block a).finish chunks ∧
      Arena.Changes (Builder.function b).buffers a (b.finish chunks a).2 := by
  have hne : b.content ≠ b.header := fun he => by simpa [Builder.buffers, he] using h.nodup
  refine ⟨?_, (Arena.Changes.take a b.header).trans (.take _ b.content)⟩
  show FunctionBlock.close _ _ _ (a.get b.header) ((a.take b.header).2.get b.content) chunks = _
  rw [h.header b rfl, Arena.get_take_of_ne hne]
  rfl

theorem LoopBuilder.finish_eq {b : LoopBuilder} (h : Builder.Placed a (.loop b)) :
    (b.finish a).1 = (b.block a).finish ∧
      Arena.Changes (Builder.loop b).buffers a (b.finish a).2 := by
  have hne : b.body ≠ b.guard := fun he => by simpa [Builder.buffers, he] using h.nodup
  refine ⟨?_, (Arena.Changes.take a b.guard).trans (.take _ b.body)⟩
  show LoopBlock.finish ⟨a.get b.guard, (a.take b.guard).2.get b.body, _, _, _⟩ = _
  rw [Arena.get_take_of_ne hne]
  rfl

/-! ## Chains -/

/-- The buffers of a clause with a guard are new. -/
theorem Arena.Adds.clause {i j : BufferId} {c d : List Asm} (h : a.Adds i j c d a')
    (kind : ClauseKind) (line : UInt32) :
    (ClauseBuilder.buffers ⟨kind, some i, j, line⟩).Nodup ∧
      ∀ id ∈ ClauseBuilder.buffers ⟨kind, some i, j, line⟩,
        a.size ≤ id.index ∧ id.index < a'.size := by
  refine ⟨?_, ?_⟩
  · simpa [ClauseBuilder.buffers] using h.ne.symm
  · simpa [ClauseBuilder.buffers] using ⟨⟨h.old_le.2, h.lt.2⟩, h.old_le.1, h.lt.1⟩

/-- A clause in new buffers. -/
theorem ChainBuilder.makes_cons {c : ChainBuilder} (h : (Builder.chain c).Placed a)
    (hc : Arena.Changes [] a a') {cl : ClauseBuilder} (hn : cl.buffers.Nodup)
    (hlt : ∀ id ∈ cl.buffers, a.size ≤ id.index ∧ id.index < a'.size) (state : ChainState) :
    block a' ⟨cl :: c.clauses, state⟩ = ⟨cl.block a' :: (c.block a).clauses, state⟩ ∧
      (Builder.chain ⟨cl :: c.clauses, state⟩).Makes (Builder.chain c).buffers a a' := by
  obtain ⟨hp, hb⟩ := h.of_changes hc (by simp)
  have hblock : c.block a' = c.block a := by simpa [Builder.block] using hb
  have hbuf : (Builder.chain ⟨cl :: c.clauses, state⟩).buffers =
      cl.buffers ++ (Builder.chain c).buffers := List.flatMap_cons
  refine ⟨?_, hc.mono (by simp), ⟨?_, ?_, nofun⟩, ?_⟩
  · rw [← hblock]
    rfl
  · rw [hbuf]
    refine List.nodup_append.2 ⟨hn, h.nodup, fun id hid id' hid' he => ?_⟩
    have hge := (hlt id hid).1
    have hlt' := h.lt id' hid'
    rw [he] at hge
    omega
  · rw [hbuf]
    exact List.forall_mem_append.2 ⟨fun id hid => (hlt id hid).2, hp.lt⟩
  · rw [hbuf]
    exact List.forall_mem_append.2 ⟨fun id hid => .inr (hlt id hid).1, fun id hid => .inl hid⟩

theorem ChainBuilder.start_eq (guard : List Asm) (line : UInt32) (a : Arena) :
    ∃ c a', start guard line a = (c, a') ∧ c.block a' = Chain.start guard line ∧
      (Builder.chain c).Makes [] a a' := by
  obtain ⟨i, j, b, a', h₁, h₂, h⟩ := a.adds guard []
  refine ⟨⟨[⟨.first, some i, j, line⟩], .filling⟩, a', ?_, ?_, ?_⟩
  · simp only [start, h₁, h₂]
  · simp only [block, ClauseBuilder.block, List.map_cons, List.map_nil, Option.map_some, h.get.1,
      h.get.2]
    rfl
  · obtain ⟨hn, hlt⟩ := h.clause .first line
    exact (makes_cons (c := ⟨[], .filling⟩) ⟨.nil, by simp [Builder.buffers], nofun⟩ h.changes
      hn hlt _).2

theorem ChainBuilder.closeClause_eq {c : ChainBuilder} (h : (Builder.chain c).Placed a)
    (follows : Bool) :
    (c.closeClause follows).block a = (c.block a).closeClause follows ∧
      (Builder.chain (c.closeClause follows)).Makes (Builder.chain c).buffers a a := by
  refine ⟨?_, .refl _ a, ⟨h.nodup, h.lt, nofun⟩, fun id hid => .inl hid⟩
  obtain ⟨clauses, state⟩ := c
  cases clauses <;> rfl

/-- A clause is added as to a chain that owns its code. -/
theorem ChainBuilder.pushClause_eq {c : ChainBuilder} (h : (Builder.chain c).Placed a)
    (kind : ClauseKind) (guard : Option (List Asm)) (line : UInt32) :
    match (c.block a).pushClause kind guard line with
    | .error e => c.pushClause kind guard line a = .error e (c, a)
    | .ok c' => ∃ b a', c.pushClause kind guard line a = .ok () (b, a') ∧ b.block a' = c' ∧
        (Builder.chain b).Makes (Builder.chain c).buffers a a' := by
  by_cases hs : c.state = .chained
  · have hs' : (c.block a).state = .chained := hs
    match kind, guard with
    | .last, none =>
      have hlt : ∀ id ∈ ClauseBuilder.buffers ⟨.last, none, (a.alloc []).1, line⟩,
          a.size ≤ id.index ∧ id.index < (a.alloc []).2.size := by
        simp [ClauseBuilder.buffers, Arena.index_alloc]
      obtain ⟨hb, hm⟩ := makes_cons h (.alloc a []) (by simp [ClauseBuilder.buffers]) hlt .filling
      simp only [Chain.pushClause, hs', ne_eq, not_true_eq_false, if_false]
      refine ⟨_, _, ?_, ?_, hm⟩
      · simp [pushClause, hs]
      · rw [hb, ClauseBuilder.block, Arena.get_alloc]
        rfl
    | .further, some guard =>
      obtain ⟨i, j, b, a', h₁, h₂, hadds⟩ := a.adds guard []
      obtain ⟨hn, hlt⟩ := hadds.clause .further line
      obtain ⟨hb, hm⟩ := makes_cons h hadds.changes hn hlt .filling
      simp only [Chain.pushClause, hs', ne_eq, not_true_eq_false, if_false]
      refine ⟨_, _, ?_, ?_, hm⟩
      · simp [pushClause, hs, h₁, h₂]
      · rw [hb, ClauseBuilder.block, hadds.get.2, Option.map_some, hadds.get.1]
    | .first, _ | .last, some _ | .further, none =>
      simp [Chain.pushClause, pushClause, hs, hs', broken]
  · have hs' : (c.block a).state ≠ .chained := hs
    simp [Chain.pushClause, pushClause, hs, hs', refuse]

/-- The code of a clause is taken out of its buffers. -/
theorem ClauseBuilder.take_eq {c : ClauseBuilder} (h : c.buffers.Nodup) (a : Arena) :
    (c.take a).1 = c.block a ∧ Arena.Changes c.buffers a (c.take a).2 := by
  obtain ⟨kind, guard, body, line⟩ := c
  cases guard with
  | none => exact ⟨rfl, .take a body⟩
  | some id =>
    have hne : id ≠ body := fun he => by simp [buffers, he] at h
    refine ⟨?_, (Arena.Changes.take a body).trans (.take _ id)⟩
    show Clause.mk kind (some ((a.take body).2.get id)) (a.get body) line = _
    rw [Arena.get_take_of_ne hne]
    rfl

theorem ChainBuilder.takeAll_eq : ∀ {clauses : List ClauseBuilder} {a : Arena},
    (clauses.flatMap ClauseBuilder.buffers).Nodup →
    (∀ id ∈ clauses.flatMap ClauseBuilder.buffers, id.index < a.size) →
      (takeAll clauses a).1 = clauses.map (ClauseBuilder.block a) ∧
        Arena.Changes (clauses.flatMap ClauseBuilder.buffers) a (takeAll clauses a).2
  | [], a, _, _ => ⟨rfl, .refl _ a⟩
  | c :: clauses, a, hn, hlt => by
    rw [List.flatMap_cons] at hn hlt
    rw [List.forall_mem_append] at hlt
    obtain ⟨hc, hrest, hd⟩ := List.nodup_append.1 hn
    obtain ⟨htake, hch⟩ := ClauseBuilder.take_eq hc a
    obtain ⟨hall, hch'⟩ := takeAll_eq hrest fun id hid =>
      Nat.lt_of_lt_of_le (hlt.2 id hid) hch.size
    refine ⟨?_, hch.trans hch'⟩
    have hsame : clauses.map (ClauseBuilder.block (c.take a).2) =
        clauses.map (ClauseBuilder.block a) :=
      List.map_congr_left fun cl hcl => ClauseBuilder.block_congr fun id hid =>
        have hm := List.mem_flatMap.2 ⟨cl, hcl, hid⟩
        hch.get id (hlt.2 id hm) fun hid' => hd id hid' id hm rfl
    show (c.take a).1 :: (takeAll clauses (c.take a).2).1 = _
    rw [htake, hall, hsame, List.map_cons]

/-- The code of a chain is taken as that of a chain that owns it. -/
theorem ChainBuilder.emit_eq {c : ChainBuilder} (h : (Builder.chain c).Placed a)
    (labels : LabelSupply) :
    match (c.block a).emit labels with
    | .error e => c.emit labels a = .error e (c, labels, a)
    | .ok (code, c', labels') => ∃ b a', c.emit labels a = .ok code (b, labels', a') ∧
        b.block a' = c' ∧ (Builder.chain b).Makes (Builder.chain c).buffers a a' := by
  by_cases hs : c.state = .resolved
  · obtain ⟨htake, hch⟩ := takeAll_eq h.nodup h.lt
    rw [Chain.emit_eq labels (show (c.block a).state = _ from hs)]
    refine ⟨⟨[], .emitted⟩, (takeAll c.clauses a).2, ?_, rfl, hch, ⟨.nil, ?_, nofun⟩, ?_⟩
    · simp only [emit, hs, ne_eq, not_true_eq_false, if_false, htake]
      rfl
    · simp [Builder.buffers]
    · simp [Builder.buffers]
  · rw [Chain.emit, if_pos (show (c.block a).state ≠ _ from hs)]
    exact if_pos hs

/-! ## Adding code -/

theorem Builder.Placed.makes {b : Builder} (h : b.Placed a) (hc : Arena.Changes b.buffers a a')
    (hh : ∀ f, b = .function f → a'.get f.header = a.get f.header) : b.Makes b.buffers a a' where
  changes := hc
  placed := by
    refine ⟨h.nodup, fun id hid => Nat.lt_of_lt_of_le (h.lt id hid) hc.size, ?_⟩
    rintro f rfl
    rw [hh f rfl, h.header f rfl]
    rfl
  new _ hid := .inl hid

/-- Code is added as to a block that owns its code. -/
theorem Builder.add_eq {b : Builder} (h : b.Placed a) (code : List Asm) :
    b.block (b.add code a) = (b.block a).add code ∧ b.Makes b.buffers a (b.add code a) := by
  cases b with
  | function b =>
    have hne : b.header ≠ b.content := by simpa [buffers] using h.nodup
    have hget : (a.extend b.content code).get b.content = a.get b.content ++ code :=
      Arena.get_extend (h.lt b.content (by simp [buffers]))
    refine ⟨?_, h.makes ((Arena.Changes.extend a b.content code).mono (by simp [buffers])) ?_⟩
    · simp only [block, FunctionBuilder.block, add, hget]
      rfl
    · rintro _ ⟨⟩
      exact Arena.get_extend_of_ne hne
  | loop b =>
    have hne : b.guard ≠ b.body := by simpa [buffers] using h.nodup
    have hget : (a.extend b.body code).get b.body = a.get b.body ++ code :=
      Arena.get_extend (h.lt b.body (by simp [buffers]))
    refine ⟨?_, h.makes ((Arena.Changes.extend a b.body code).mono (by simp [buffers])) ?_⟩
    · simp only [block, LoopBuilder.block, add, hget, Arena.get_extend_of_ne hne]
      rfl
    · rintro _ ⟨⟩
  | chain c =>
    obtain ⟨clauses, state⟩ := c
    cases clauses with
    | nil => exact ⟨rfl, h.makes (.refl _ a) (by rintro _ ⟨⟩)⟩
    | cons cl clauses =>
      obtain ⟨kind, guard, body, line⟩ := cl
      have hn : body ∉ guard.toList ++ clauses.flatMap ClauseBuilder.buffers :=
        (List.nodup_cons.1 h.nodup).1
      have hne : ∀ id ∈ guard.toList ++ clauses.flatMap ClauseBuilder.buffers,
          (a.extend body code).get id = a.get id := fun id hid =>
        Arena.get_extend_of_ne fun he => hn (he ▸ hid)
      rw [List.forall_mem_append] at hne
      have hget : (a.extend body code).get body = a.get body ++ code :=
        Arena.get_extend (h.lt body (by simp [buffers, ClauseBuilder.buffers]))
      have hguard : guard.map (a.extend body code).get = guard.map a.get :=
        Option.map_congr fun id hid => hne.1 id (by simp [hid])
      have hrest : clauses.map (ClauseBuilder.block (a.extend body code)) =
          clauses.map (ClauseBuilder.block a) :=
        List.map_congr_left fun cl hcl => ClauseBuilder.block_congr fun id hid =>
          hne.2 id (List.mem_flatMap.2 ⟨cl, hcl, hid⟩)
      refine ⟨?_, h.makes ((Arena.Changes.extend a body code).mono ?_) (by rintro _ ⟨⟩)⟩
      · show Block.chain ⟨⟨kind, guard.map (a.extend body code).get,
          (a.extend body code).get body, line⟩ ::
            clauses.map (ClauseBuilder.block (a.extend body code)), state⟩ = _
        rw [hget, hguard, hrest]
        rfl
      · simp [buffers, ClauseBuilder.buffers]

end Naskah
