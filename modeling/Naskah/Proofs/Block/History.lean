/-
  Histories of blocks: what was given to a block since it was begun, in the order of the acts.  On
  a bench, what stands in a slot is always made of what its history tells (`Bench.note_tells`).
-/
import Naskah.Proofs.Block.Bench

namespace Naskah

/-! ## Histories -/

/-- What was given to a clause: its guard, and the code for its body in the order of the acts. -/
structure Part where
  guard : Option (List Asm)
  added : List (List Asm) := []

/-- What was given to a block since it was begun; the latest clause of a chain is the first. -/
inductive History
  | function (kind : FunctionKind) (params : List Param) (line : UInt32) (added : List (List Asm))
  | loop (guard : List Asm) (added : List (List Asm))
  | chain (parts : List Part)

namespace History

/-- Code is added to the block, or to the latest clause. -/
def add (code : List Asm) : History → History
  | function kind params line added => function kind params line (added ++ [code])
  | loop guard added => loop guard (added ++ [code])
  | chain [] => chain []
  | chain (p :: ps) => chain ({ p with added := p.added ++ [code] } :: ps)

/-- A clause is added to a chain. -/
def push (guard : Option (List Asm)) : History → History
  | chain ps => chain ({ guard } :: ps)
  | h => h

/-- The code of a chain is taken. -/
def emptied : History → History
  | chain _ => chain []
  | h => h

/-- A function or a loop ends. -/
def ended : History → Option History
  | chain ps => some (chain ps)
  | function .. | loop .. => none

/-- The history of a slot after an act that succeeds or not, when `last` is what was finished. -/
def note (slot : String) (ok : Bool) (last : List Asm) (h : Option History) :
    Act → Option History
  | .beginFunction s kind params line =>
    if s = slot ∧ ok then some (function kind params line []) else h
  | .beginLoop s guard _ => if s = slot then some (loop guard []) else h
  | .beginChain s guard _ => if s = slot then some (chain [{ guard := some guard }]) else h
  | .add s code => if s = slot then h.map (add code) else h
  | .addLast s => if s = slot then h.map (add last) else h
  | .pushClause s _ guard _ => if s = slot ∧ ok then h.map (push guard) else h
  | .emit s => if s = slot ∧ ok then h.map emptied else h
  | .finish s => if s = slot then h.bind ended else h
  | .fresh | .closeClause .. => h

end History

/-! ## Blocks and their histories -/

/-- The slot that an act is on. -/
def Act.slot? : Act → Option String
  | fresh => none
  | beginFunction slot .. | beginLoop slot .. | beginChain slot .. | add slot _ | addLast slot
  | closeClause slot _ | pushClause slot .. | emit slot | finish slot => some slot

/-- Only the latest clause can be without a guard, and no clause follows such a one. -/
structure Chain.Linked (c : Chain) : Prop where
  guarded : ∀ cl ∈ c.clauses, cl.kind ≠ .last → cl.guard.isSome = true
  tail : ∀ cl ∈ c.clauses.tail, cl.guard.isSome = true
  chained : c.state = .chained → ∀ cl ∈ c.clauses, cl.guard.isSome = true

/-- The kind that a role is of. -/
def FunctionRole.kind : FunctionRole → FunctionKind
  | entry _ => .entry
  | named name => .named name
  | anonymous => .anonymous

/-- A block that is made of what was given to it. -/
def History.Tells : History → Block → Prop
  | function kind params line added, .function b =>
    b.role.kind = kind ∧ b.params = params ∧ b.line = line ∧ b.content = added.flatten
  | loop guard added, .loop b => b.guard = guard ∧ b.body = added.flatten
  | chain parts, .chain c => c.Linked ∧
      c.clauses.map (fun cl => (cl.guard, cl.body)) = parts.map fun p => (p.guard, p.added.flatten)
  | _, _ => False

namespace Chain.Linked

variable {c : Chain}

theorem start (guard : List Asm) (line : UInt32) : (Chain.start guard line).Linked where
  guarded := by simp [Chain.start]
  tail := by simp [Chain.start]
  chained := by simp [Chain.start]

theorem add (h : c.Linked) (code : List Asm) : (c.add code).Linked := by
  obtain ⟨clauses, state⟩ := c
  cases clauses with
  | nil => exact h
  | cons cl clauses =>
    exact ⟨List.forall_mem_cons.2 ⟨(List.forall_mem_cons.1 h.guarded).1,
      (List.forall_mem_cons.1 h.guarded).2⟩, h.tail, fun hs => List.forall_mem_cons.2
        ⟨(List.forall_mem_cons.1 (h.chained hs)).1, (List.forall_mem_cons.1 (h.chained hs)).2⟩⟩

theorem closeClause (h : c.Linked) (follows : Bool) :
    (c.closeClause follows).Linked ∧ (c.closeClause follows).clauses = c.clauses := by
  rcases c.closeClause_cases follows with ⟨-, hk, he⟩ | he
  · rw [he]
    refine ⟨⟨h.guarded, h.tail, fun _ => ?_⟩, rfl⟩
    -- the latest clause has a guard because it is not the last
    have htail := h.tail
    cases hc : c.clauses with
    | nil => simp
    | cons cl clauses =>
      rw [hc] at hk htail
      exact List.forall_mem_cons.2 ⟨h.guarded cl (by simp [hc]) (hk cl rfl), htail⟩
  · rw [he]
    exact ⟨⟨h.guarded, h.tail, nofun⟩, rfl⟩

theorem pushClause {c' : Chain} {kind : ClauseKind} {guard : Option (List Asm)} {line : UInt32}
    (h : c.Linked) (hp : c.pushClause kind guard line = .ok c') :
    c'.Linked ∧ c'.clauses = ⟨kind, guard, [], line⟩ :: c.clauses := by
  unfold Chain.pushClause at hp
  split at hp
  · cases hp
  · next hs =>
    have hall := h.chained (not_not.1 hs)
    split at hp
    · cases hp
      exact ⟨⟨List.forall_mem_cons.2 ⟨by simp, h.guarded⟩, hall, nofun⟩, rfl⟩
    · cases hp
      exact ⟨⟨List.forall_mem_cons.2 ⟨by simp, h.guarded⟩, hall, nofun⟩, rfl⟩
    · cases hp

end Chain.Linked

namespace History.Tells

variable {h : History} {b : Block}

theorem add (ht : h.Tells b) (code : List Asm) : (h.add code).Tells (b.add code) := by
  match h, b, ht with
  | .function .., .function b, ⟨hk, hp, hl, hc⟩ =>
    refine ⟨hk, hp, hl, ?_⟩
    show b.content ++ code = _
    simp [hc]
  | .loop .., .loop b, ⟨hg, hb⟩ =>
    refine ⟨hg, ?_⟩
    show b.body ++ code = _
    simp [hb]
  | .chain ps, .chain ⟨clauses, state⟩, ⟨hl, hm⟩ =>
    match ps, clauses, hm with
    | [], [], hm => exact ⟨hl.add code, hm⟩
    | p :: ps, cl :: clauses, hm =>
      simp only [List.map_cons, List.cons.injEq, Prod.mk.injEq] at hm
      refine ⟨hl.add code, ?_⟩
      simp [Chain.add, hm]

theorem closeClause {c : Chain} (ht : h.Tells (.chain c)) (follows : Bool) :
    h.Tells (.chain (c.closeClause follows)) := by
  match h, ht with
  | .chain ps, ⟨hl, hm⟩ =>
    obtain ⟨hl', hc⟩ := hl.closeClause follows
    exact ⟨hl', by rw [hc, hm]⟩

theorem push {c c' : Chain} {kind : ClauseKind} {guard : Option (List Asm)} {line : UInt32}
    (ht : h.Tells (.chain c)) (hp : c.pushClause kind guard line = .ok c') :
    (h.push guard).Tells (.chain c') := by
  match h, ht with
  | .chain ps, ⟨hl, hm⟩ =>
    obtain ⟨hl', hc⟩ := hl.pushClause hp
    exact ⟨hl', by simp [hc, hm]⟩

theorem emptied {c c' : Chain} {labels labels' : LabelSupply} {code : List Asm}
    (ht : h.Tells (.chain c)) (he : c.emit labels = .ok (code, c', labels')) :
    h.emptied.Tells (.chain c') := by
  obtain ⟨-, -, rfl, -⟩ := Chain.of_emit he
  match h, ht with
  | .chain ps, _ => exact ⟨⟨nofun, nofun, nofun⟩, rfl⟩

end History.Tells

/-! ## Acts -/

namespace Bench

variable {B : Bench} {slot : String} {h : Option History}

/-- An act leaves other slots as they are. -/
theorem blocks_of_ne {x : Act} (hx : x.slot? ≠ some slot) :
    (B.act x).2.blocks slot = B.blocks slot := by
  cases x <;> grind [act, put, Act.slot?]

theorem note_of_ne {x : Act} (hx : x.slot? ≠ some slot) (ok : Bool) (last : List Asm) :
    History.note slot ok last h x = h := by
  cases x <;> grind [History.note, Act.slot?]

theorem blocks_put (B : Bench) (slot : String) (x : Option Block) :
    (B.put slot x).blocks slot = x :=
  if_pos rfl

theorem rel_add {b : Option Block} (ht : Option.Rel History.Tells h b) (code : List Asm) :
    Option.Rel History.Tells (h.map (History.add code)) (b.map (Block.add code)) := by
  cases ht with
  | none => exact .none
  | some ht => exact .some (ht.add code)

/-- What is left of a block that is finished: a chain stays. -/
def remains : Block → Option Block
  | .chain c => some (.chain c)
  | .function _ | .loop _ => none

theorem blocks_finish (B : Bench) (slot : String) :
    (B.act (.finish slot)).2.blocks slot = (B.blocks slot).bind remains := by
  cases hb : B.blocks slot with
  | none => simp only [act, hb, Option.bind_none]
  | some b =>
    cases b with
    | function f => cases hf : f.finish B.chunks <;> simp [act, hb, hf, put, remains]
    | loop l => simp [act, hb, put, remains]
    | chain c => simp only [act, hb, Option.bind_some, remains]

theorem rel_ended {b : Option Block} (ht : Option.Rel History.Tells h b) :
    Option.Rel History.Tells (h.bind History.ended) (b.bind remains) := by
  cases ht with
  | none => exact .none
  | @some h b ht =>
    match h, b, ht with
    | .chain ps, .chain c, ht => exact .some ht
    | .loop .., .loop _, _ | .function .., .function _, _ => exact .none

/-- A chain and its history, or something that has no clauses. -/
theorem chain_or_idle (ht : Option.Rel History.Tells h (B.blocks slot))
    (guard : Option (List Asm)) :
    (∃ c h', h = some h' ∧ B.blocks slot = some (.chain c) ∧ h'.Tells (.chain c)) ∨
      (∀ c, B.blocks slot ≠ some (.chain c)) ∧ h.map (History.push guard) = h ∧
        h.map History.emptied = h := by
  cases hb : B.blocks slot with
  | none =>
    rw [hb] at ht
    cases ht
    exact .inr ⟨nofun, rfl, rfl⟩
  | some b =>
    rw [hb] at ht
    cases ht with
    | @some h' _ ht =>
      cases b with
      | chain c => exact .inl ⟨c, h', rfl, rfl, ht⟩
      | function | loop =>
        refine .inr ⟨nofun, ?_⟩
        cases h' with
        | chain => exact ht.elim
        | function | loop => exact ⟨rfl, rfl⟩

/-- What stands in a slot keeps to its history. -/
theorem note_tells (ht : Option.Rel History.Tells h (B.blocks slot)) (x : Act) :
    Option.Rel History.Tells (History.note slot (B.act x).1.isOk B.last h x)
      ((B.act x).2.blocks slot) := by
  by_cases hx : x.slot? = some slot
  case neg => rwa [blocks_of_ne hx, note_of_ne hx]
  cases x with
  | fresh => cases hx
  | beginFunction s kind params line =>
    cases hx
    cases hf : FunctionBlock.begin kind params line B.labels with
    | error e =>
      simp only [act, hf, History.note, Except.isOk, Except.toBool]
      simpa using ht
    | ok p =>
      obtain ⟨f, labels⟩ := p
      obtain ⟨hp, hl, hc, hk⟩ := FunctionBlock.of_begin hf
      simp only [act, hf, History.note, Except.isOk, Except.toBool, blocks_put]
      refine .some ⟨?_, hp, hl, hc⟩
      cases kind <;> simp [hk.1, FunctionRole.kind]
  | beginLoop s guard line =>
    cases hx
    simp only [act, History.note, blocks_put]
    exact .some ⟨rfl, rfl⟩
  | beginChain s guard line =>
    cases hx
    simp only [act, History.note, blocks_put]
    exact .some ⟨.start guard line, rfl⟩
  | add s code =>
    cases hx
    have hb : (B.act (.add slot code)).2.blocks slot = (B.blocks slot).map (Block.add code) := by
      cases hb : B.blocks slot <;> simp [act, hb, blocks_put]
    rw [hb, History.note, if_pos rfl]
    exact rel_add ht code
  | addLast s =>
    cases hx
    have hb : (B.act (.addLast slot)).2.blocks slot = (B.blocks slot).map (Block.add B.last) := by
      cases hb : B.blocks slot <;> simp [act, hb, put]
    rw [hb, History.note, if_pos rfl]
    exact rel_add ht B.last
  | closeClause s follows =>
    cases hx
    simp only [act, History.note]
    split
    · next c hb =>
      rw [hb] at ht
      cases ht with
      | some ht =>
        simp only [blocks_put]
        exact .some (ht.closeClause follows)
    · exact ht
  | pushClause s kind guard line =>
    cases hx
    rcases chain_or_idle ht guard with ⟨c, h, rfl, hb, ht⟩ | ⟨hb, hpush, -⟩
    · cases hp : c.pushClause kind guard line with
      | error e =>
        simp only [act, History.note, hb, hp]
        exact .some ht
      | ok c' =>
        simp only [act, History.note, hb, hp, blocks_put]
        exact .some (ht.push hp)
    · have ha : B.act (.pushClause slot kind guard line) = (.ok (), B) := by
        simp only [act]
      rw [ha]
      simpa [History.note, hpush] using ht
  | emit s =>
    cases hx
    rcases chain_or_idle ht none with ⟨c, h, rfl, hb, ht⟩ | ⟨hb, -, hempty⟩
    · cases he : c.emit B.labels with
      | error e =>
        simp only [act, History.note, hb, he]
        exact .some ht
      | ok p =>
        obtain ⟨code, c', labels⟩ := p
        simp only [act, History.note, hb, he, blocks_put]
        exact .some (ht.emptied he)
    · have ha : B.act (.emit slot) = (.ok (), B) := by
        simp only [act]
      rw [ha]
      simpa [History.note, hempty] using ht
  | finish s =>
    cases hx
    rw [blocks_finish, History.note, if_pos rfl]
    exact rel_ended ht

end Bench

end Naskah
