/-
  A workshop against a bench, on which every block owns its code.  In a workshop every buffer has
  at most one owner (`Workshop.Owned`), so that an act on one block leaves all others as they are:
  each act does in the workshop what it does on the bench (`Workshop.act_refines`).
-/
import Naskah.Block.Workshop
import Naskah.Proofs.Block.Builders

namespace Naskah

/-! ## Benches -/

/-- Blocks that own their code, by the slot they stand in. -/
structure Bench where
  labels : LabelSupply := {}
  chunks : List Chunk := []
  blocks : String → Option Block := fun _ => none
  last : List Asm := []

namespace Bench

/-- Changes what stands in a slot. -/
def put (b : Bench) (slot : String) (x : Option Block) : Bench :=
  { b with blocks := fun s => if s = slot then x else b.blocks s }

/-- Whether an act succeeds, and the bench after it. -/
def act (b : Bench) : Act → Except Diagnostic Unit × Bench
  | .fresh => (.ok (), { b with labels := b.labels.fresh.2 })
  | .beginFunction slot kind params line =>
    match FunctionBlock.begin kind params line b.labels with
    | .error e => (.error e, b)
    | .ok (f, labels) => (.ok (), { b.put slot (some (.function f)) with labels })
  | .beginLoop slot guard line =>
    let (l, labels) := LoopBlock.begin guard line b.labels
    (.ok (), { b.put slot (some (.loop l)) with labels })
  | .beginChain slot guard line => (.ok (), b.put slot (some (.chain (.start guard line))))
  | .add slot code =>
    match b.blocks slot with
    | some x => (.ok (), b.put slot (some (x.add code)))
    | none => (.ok (), b)
  | .addLast slot =>
    match b.blocks slot with
    | some x => (.ok (), { b.put slot (some (x.add b.last)) with last := [] })
    | none => (.ok (), b)
  | .closeClause slot follows =>
    match b.blocks slot with
    | some (.chain c) => (.ok (), b.put slot (some (.chain (c.closeClause follows))))
    | _ => (.ok (), b)
  | .pushClause slot kind guard line =>
    match b.blocks slot with
    | some (.chain c) =>
      match c.pushClause kind guard line with
      | .error e => (.error e, b)
      | .ok c => (.ok (), b.put slot (some (.chain c)))
    | _ => (.ok (), b)
  | .emit slot =>
    match b.blocks slot with
    | some (.chain c) =>
      match c.emit b.labels with
      | .error e => (.error e, b)
      | .ok (code, c, labels) =>
        (.ok (), { b.put slot (some (.chain c)) with labels, last := code })
    | _ => (.ok (), b)
  | .finish slot =>
    match b.blocks slot with
    | some (.function f) =>
      match f.finish b.chunks with
      | .error e => (.error e, b.put slot none)
      | .ok (code, chunks) => (.ok (), { b.put slot none with chunks, last := code })
    | some (.loop l) => (.ok (), { b.put slot none with last := l.finish })
    | _ => (.ok (), b)

end Bench

namespace Workshop

/-- What a workshop shows. -/
def bench (w : Workshop) : Bench :=
  ⟨w.labels, w.chunks, w.get?, w.last⟩

variable {w : Workshop} {slot : String} {b : Builder} {a : Arena}

/-! ## Ownership -/

/-- All buffers are in place, and no two builders have one in common. -/
structure Owned (w : Workshop) : Prop where
  placed : ∀ slot b, w.find? slot = some b → b.Placed w.arena
  disjoint : ∀ slot slot' b b', slot ≠ slot' → w.find? slot = some b → w.find? slot' = some b' →
    ∀ id ∈ b.buffers, id ∉ b'.buffers

/-- The buffers of what stands in a slot. -/
def buffersAt (w : Workshop) (slot : String) : List BufferId :=
  (w.find? slot).elim [] Builder.buffers

theorem owned_empty : Owned {} :=
  ⟨nofun, nofun⟩

theorem lookup_cons_ite {β : Type} (k s : String) (x : β) (slots : List (String × β)) :
    ((k, x) :: slots).lookup s = if s = k then some x else slots.lookup s := by
  by_cases h : s = k
  · rw [if_pos h, h, List.lookup_cons_self]
  · rw [if_neg h, List.lookup_cons, beq_eq_false_iff_ne.2 h]

theorem lookup_filter_ne {β : Type} (slots : List (String × β)) {s : String} (h : s ≠ slot) :
    (slots.filter fun p => p.1 ≠ slot).lookup s = slots.lookup s := by
  induction slots with
  | nil => rfl
  | cons p slots ih =>
    obtain ⟨k, x⟩ := p
    by_cases hk : k = slot
    · rw [List.filter_cons_of_neg (by simpa using hk), ih, lookup_cons_ite, if_neg (hk ▸ h)]
    · rw [List.filter_cons_of_pos (by simpa using hk), lookup_cons_ite, lookup_cons_ite, ih]

theorem lookup_put (slot : String) (b : Builder) (slots : List (String × Builder)) (s : String) :
    (put slot b slots).lookup s = if s = slot then some b else slots.lookup s := by
  induction slots with
  | nil => exact lookup_cons_ite slot s b []
  | cons p slots ih =>
    obtain ⟨k, x⟩ := p
    rw [put]
    split
    · next hk =>
      rw [lookup_cons_ite, lookup_cons_ite, show k = slot from hk]
      split <;> rfl
    · next hk =>
      rw [lookup_cons_ite, lookup_cons_ite, ih]
      split
      · next hs => rw [if_neg (hs ▸ hk)]
      · rfl

theorem find?_store (w : Workshop) (slot : String) (b : Builder) (a : Arena) (s : String) :
    (w.store slot b a).find? s = if s = slot then some b else w.find? s :=
  lookup_put slot b w.slots s

theorem put_of_lookup : ∀ {slots : List (String × Builder)}, slots.lookup slot = some b →
    put slot b slots = slots
  | [], h => by cases h
  | (k, x) :: slots, h => by
    rw [lookup_cons_ite] at h
    by_cases hk : k = slot
    · rw [if_pos hk.symm] at h
      cases h
      rw [put, if_pos hk, hk]
    · rw [if_neg (Ne.symm hk)] at h
      rw [put, if_neg hk, put_of_lookup h]

/-- What stands in a slot can be put there again. -/
theorem store_self (h : w.find? slot = some b) : w.store slot b w.arena = w := by
  rw [store, put_of_lookup h]

theorem find?_discard (w : Workshop) (slot : String) (a : Arena) (s : String) :
    (w.discard slot a).find? s = if s = slot then none else w.find? s := by
  show (w.slots.filter fun p => p.1 ≠ slot).lookup s = _
  split
  · next h =>
    subst h
    rw [List.lookup_eq_none_iff]
    simpa using fun k b _ hk he => hk he.symm
  · next h => exact lookup_filter_ne _ h

/-- What stands in other slots keeps its place and its code. -/
theorem Owned.others (h : w.Owned) (hc : Arena.Changes (w.buffersAt slot) w.arena a) {s : String}
    (hs : s ≠ slot) {b : Builder} (hb : w.find? s = some b) :
    b.Placed a ∧ b.block a = b.block w.arena := by
  refine (h.placed s b hb).of_changes hc fun id hid => ?_
  unfold buffersAt
  cases hf : w.find? slot with
  | none => simp
  | some b' => exact h.disjoint s slot b b' hs hb hf id hid

/-- The buffers of what comes into a slot belong to nothing in another one. -/
theorem Owned.disjoint_of_makes (h : w.Owned) (hm : b.Makes (w.buffersAt slot) w.arena a)
    {s : String} (hs : s ≠ slot) {b' : Builder} (hb : w.find? s = some b') :
    ∀ id ∈ b.buffers, id ∉ b'.buffers := by
  intro id hid hid'
  rcases hm.new id hid with hold | hnew
  · unfold buffersAt at hold
    cases hf : w.find? slot with
    | none => simp [hf] at hold
    | some old =>
      rw [hf] at hold
      exact h.disjoint s slot b' old hs hb hf id hid' hold
  · have hlt := (h.placed s b' hb).lt id hid'
    omega

/-- A workshop in which one slot holds something else. -/
theorem Owned.replace {w' : Workshop} {x : Option Builder} (h : w.Owned)
    (hc : Arena.Changes (w.buffersAt slot) w.arena w'.arena)
    (hx : ∀ b, x = some b → b.Makes (w.buffersAt slot) w.arena w'.arena)
    (hf : ∀ s, w'.find? s = if s = slot then x else w.find? s) :
    w'.Owned ∧ w'.get? = fun s => if s = slot then x.map (Builder.block w'.arena) else w.get? s := by
  refine ⟨⟨fun s b' hb => ?_, fun s s' b₁ b₂ hne h₁ h₂ => ?_⟩, funext fun s => ?_⟩
  · rw [hf] at hb
    split at hb
    · exact (hx b' hb).placed
    · next hs => exact (h.others hc hs hb).1
  · rw [hf] at h₁ h₂
    split at h₁ <;> split at h₂
    · next hs hs' => exact absurd (hs.trans hs'.symm) hne
    · next hs' => exact h.disjoint_of_makes (hx b₁ h₁) hs' h₂
    · next hs _ => exact fun id hid hid' => h.disjoint_of_makes (hx b₂ h₂) hs h₁ id hid' hid
    · exact h.disjoint s s' b₁ b₂ hne h₁ h₂
  · rw [get?, hf]
    split
    · rfl
    · next hs =>
      rw [get?]
      cases hb : w.find? s with
      | none => rfl
      | some b' => rw [Option.map_some, (h.others hc hs hb).2, Option.map_some]

theorem Owned.store (h : w.Owned) (hm : b.Makes (w.buffersAt slot) w.arena a) :
    (w.store slot b a).Owned ∧ (w.store slot b a).bench = w.bench.put slot (some (b.block a)) := by
  have hx : ∀ b', some b = some b' → b'.Makes (w.buffersAt slot) w.arena (w.store slot b a).arena := by
    rintro _ ⟨⟩
    exact hm
  obtain ⟨ho, hg⟩ := h.replace hm.changes hx (w.find?_store slot b a)
  refine ⟨ho, ?_⟩
  rw [bench, hg]
  rfl

theorem Owned.discard (h : w.Owned) (hc : Arena.Changes (w.buffersAt slot) w.arena a) :
    (w.discard slot a).Owned ∧ (w.discard slot a).bench = w.bench.put slot none := by
  have hx : ∀ b', (none : Option Builder) = some b' →
      b'.Makes (w.buffersAt slot) w.arena (w.discard slot a).arena := by
    rintro _ ⟨⟩
  obtain ⟨ho, hg⟩ := h.replace hc hx (w.find?_discard slot a)
  refine ⟨ho, ?_⟩
  rw [bench, hg]
  rfl

/-! ## Acts -/

theorem bench_blocks (w : Workshop) (slot : String) :
    w.bench.blocks slot = (w.find? slot).map (Builder.block w.arena) :=
  rfl

theorem buffersAt_eq (hf : w.find? slot = some b) : w.buffersAt slot = b.buffers := by
  rw [buffersAt, hf]
  rfl

/-- A workshop that shows a bench, after an act with the same outcome. -/
def Refines : EStateM.Result Diagnostic Workshop Unit → Except Diagnostic Unit × Bench → Prop
  | .ok _ w, r => w.Owned ∧ r = (.ok (), w.bench)
  | .error e w, r => w.Owned ∧ r = (.error e, w.bench)

theorem Owned.refines_ok {B : Bench} (h : w.Owned) (hb : w.bench = B) :
    Refines (.ok () w) (.ok (), B) :=
  ⟨h, by rw [hb]⟩

theorem beginFunction_refines (h : w.Owned) (slot : String) (kind : FunctionKind)
    (params : List Param) (line : UInt32) :
    Refines (act (.beginFunction slot kind params line) w)
      (w.bench.act (.beginFunction slot kind params line)) := by
  have hb := FunctionBuilder.begin_eq kind params line w.labels w.arena
  simp only [act, Bench.act, show w.bench.labels = w.labels from rfl]
  cases hf : FunctionBlock.begin kind params line w.labels with
  | error e =>
    rw [hf] at hb
    simp only [hb]
    exact ⟨h, rfl⟩
  | ok p =>
    rw [hf] at hb
    obtain ⟨b, a, hb, hblock, hm⟩ := hb
    obtain ⟨ho, hs⟩ := h.store (hm.of_nil (w.buffersAt slot))
    simp only [hb, ← hblock]
    exact ⟨⟨ho.placed, ho.disjoint⟩, congrArg (fun B : Bench => (_, { B with labels := p.2 })) hs.symm⟩

/-- Code that is added to what stands in a slot. -/
theorem Owned.add (h : w.Owned) (hf : w.find? slot = some b) (code : List Asm) :
    (w.store slot b (b.add code w.arena)).Owned ∧
      (w.store slot b (b.add code w.arena)).bench =
        w.bench.put slot (some ((b.block w.arena).add code)) := by
  obtain ⟨hblock, hm⟩ := Builder.add_eq (h.placed slot b hf) code
  rw [← hblock]
  exact h.store (buffersAt_eq hf ▸ hm)

theorem pushClause_refines (h : w.Owned) {c : ChainBuilder} (hf : w.find? slot = some (.chain c))
    (kind : ClauseKind) (guard : Option (List Asm)) (line : UInt32) :
    Refines (act (.pushClause slot kind guard line) w)
      (w.bench.act (.pushClause slot kind guard line)) := by
  have hc := ChainBuilder.pushClause_eq (h.placed slot _ hf) kind guard line
  simp only [act, Bench.act, bench_blocks, hf, Option.map_some, Builder.block]
  cases he : (c.block w.arena).pushClause kind guard line with
  | error e =>
    rw [he] at hc
    simp only [hc, store_self hf]
    exact ⟨h, rfl⟩
  | ok c' =>
    rw [he] at hc
    obtain ⟨b, a, hb, rfl, hm⟩ := hc
    obtain ⟨ho, hs⟩ := h.store (buffersAt_eq hf ▸ hm)
    simp only [hb]
    exact ho.refines_ok hs

theorem emit_refines (h : w.Owned) {c : ChainBuilder} (hf : w.find? slot = some (.chain c)) :
    Refines (act (.emit slot) w) (w.bench.act (.emit slot)) := by
  have hc := ChainBuilder.emit_eq (h.placed slot _ hf) w.labels
  simp only [act, Bench.act, bench_blocks, hf, Option.map_some, Builder.block,
    show w.bench.labels = w.labels from rfl]
  cases he : (c.block w.arena).emit w.labels with
  | error e =>
    rw [he] at hc
    simp only [hc, store_self hf]
    exact ⟨h, rfl⟩
  | ok p =>
    obtain ⟨code, c', labels⟩ := p
    rw [he] at hc
    obtain ⟨b, a, hb, rfl, hm⟩ := hc
    obtain ⟨ho, hs⟩ := h.store (buffersAt_eq hf ▸ hm)
    simp only [hb]
    exact ⟨⟨ho.placed, ho.disjoint⟩,
      congrArg (fun B : Bench => (_, { B with labels, last := code })) hs.symm⟩

theorem finishFunction_refines (h : w.Owned) {f : FunctionBuilder}
    (hf : w.find? slot = some (.function f)) :
    Refines (act (.finish slot) w) (w.bench.act (.finish slot)) := by
  obtain ⟨hcode, hc⟩ := FunctionBuilder.finish_eq (h.placed slot _ hf) w.chunks
  obtain ⟨ho, hs⟩ := h.discard (buffersAt_eq hf ▸ hc)
  simp only [act, Bench.act, bench_blocks, hf, Option.map_some, Builder.block,
    show w.bench.chunks = w.chunks from rfl, ← hcode]
  cases (f.finish w.chunks w.arena).1 with
  | error e => exact ⟨ho, congrArg (fun B : Bench => (_, B)) hs.symm⟩
  | ok p =>
    exact ⟨⟨ho.placed, ho.disjoint⟩,
      congrArg (fun B : Bench => (_, { B with chunks := p.2, last := p.1 })) hs.symm⟩

/-- **Acts in a workshop** do what they do on the bench. -/
theorem act_refines (h : w.Owned) (x : Act) : Refines (act x w) (w.bench.act x) := by
  cases x with
  | fresh => exact ⟨⟨h.placed, h.disjoint⟩, rfl⟩
  | beginFunction slot kind params line => exact beginFunction_refines h slot kind params line
  | beginLoop slot guard line =>
    obtain ⟨b, a, hb, hblock, hm⟩ := LoopBuilder.begin_eq guard line w.labels w.arena
    obtain ⟨ho, hs⟩ := h.store (hm.of_nil (w.buffersAt slot))
    simp only [act, Bench.act, show w.bench.labels = w.labels from rfl, hb, ← hblock]
    exact ⟨⟨ho.placed, ho.disjoint⟩, congrArg (fun B : Bench =>
      (_, { B with labels := (LoopBlock.begin guard line w.labels).2 })) hs.symm⟩
  | beginChain slot guard line =>
    obtain ⟨c, a, hc, hblock, hm⟩ := ChainBuilder.start_eq guard line w.arena
    obtain ⟨ho, hs⟩ := h.store (hm.of_nil (w.buffersAt slot))
    simp only [act, Bench.act, hc, ← hblock]
    exact ho.refines_ok hs
  | add slot code =>
    simp only [act, Bench.act, bench_blocks]
    cases hf : w.find? slot with
    | none => exact ⟨h, rfl⟩
    | some b =>
      obtain ⟨ho, hs⟩ := h.add hf code
      exact ho.refines_ok hs
  | addLast slot =>
    simp only [act, Bench.act, bench_blocks]
    cases hf : w.find? slot with
    | none => exact ⟨h, rfl⟩
    | some b =>
      obtain ⟨ho, hs⟩ := h.add hf w.last
      exact ⟨⟨ho.placed, ho.disjoint⟩,
        congrArg (fun B : Bench => (_, { B with last := [] })) hs.symm⟩
  | closeClause slot follows =>
    cases hf : w.find? slot with
    | none =>
      simp only [act, Bench.act, bench_blocks, hf]
      exact ⟨h, rfl⟩
    | some b =>
      cases b with
      | chain c =>
        obtain ⟨hblock, hm⟩ := ChainBuilder.closeClause_eq (h.placed slot _ hf) follows
        obtain ⟨ho, hs⟩ := h.store (buffersAt_eq hf ▸ hm)
        simp only [act, Bench.act, bench_blocks, hf, Option.map_some, Builder.block, ← hblock]
        exact ho.refines_ok hs
      | function | loop =>
        simp only [act, Bench.act, bench_blocks, hf]
        exact ⟨h, rfl⟩
  | pushClause slot kind guard line =>
    cases hf : w.find? slot with
    | none =>
      simp only [act, Bench.act, bench_blocks, hf]
      exact ⟨h, rfl⟩
    | some b =>
      cases b with
      | chain c => exact pushClause_refines h hf kind guard line
      | function | loop =>
        simp only [act, Bench.act, bench_blocks, hf]
        exact ⟨h, rfl⟩
  | emit slot =>
    cases hf : w.find? slot with
    | none =>
      simp only [act, Bench.act, bench_blocks, hf]
      exact ⟨h, rfl⟩
    | some b =>
      cases b with
      | chain c => exact emit_refines h hf
      | function | loop =>
        simp only [act, Bench.act, bench_blocks, hf]
        exact ⟨h, rfl⟩
  | finish slot =>
    cases hf : w.find? slot with
    | none =>
      simp only [act, Bench.act, bench_blocks, hf]
      exact ⟨h, rfl⟩
    | some b =>
      cases b with
      | function f => exact finishFunction_refines h hf
      | loop b =>
        obtain ⟨hcode, hc⟩ := LoopBuilder.finish_eq (h.placed slot _ hf)
        obtain ⟨ho, hs⟩ := h.discard (buffersAt_eq hf ▸ hc)
        simp only [act, Bench.act, bench_blocks, hf, Option.map_some, Builder.block, ← hcode]
        exact ⟨⟨ho.placed, ho.disjoint⟩,
          congrArg (fun B : Bench => (_, { B with last := (b.finish w.arena).1 })) hs.symm⟩
      | chain =>
        simp only [act, Bench.act, bench_blocks, hf]
        exact ⟨h, rfl⟩

end Workshop

end Naskah
