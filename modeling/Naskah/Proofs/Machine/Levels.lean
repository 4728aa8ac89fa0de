/-
  How high the operands stand while a function of a verified program runs.  Verified code says how
  many operands there are in front of each of its instructions (`Frame.Level`), so the stack is made
  of layers: what was there when the function was entered, and above it the operands of every frame
  since (`Pile`).  A step keeps the layers until the function returns, and then what was there is
  left with the value on top (`Inside.step`, `Inside.run`).
-/
import Naskah.Proofs.Machine.Advance

namespace Naskah

/-! ## Slots and operands -/

theorem length_of_takeValues : ∀ {n : Nat} {slots rest : List Slot},
    takeValues n slots = some rest → slots.length = n + rest.length
  | 0, slots, rest, h => by
    cases h
    rw [Nat.zero_add]
  | n + 1, [], rest, h => by cases h
  | n + 1, .chunk k :: slots, rest, h => by cases h
  | n + 1, .value :: slots, rest, h => by
    rw [List.length_cons, length_of_takeValues (n := n) h]
    omega

namespace Instr

variable {n : Nat} {slots slots' : List Slot} {i : Instruction}

/-- Slots are taken and added as operands are; the others stay. -/
theorem length_of_effect (h : i.effect n slots = some slots') :
    ∃ kept, slots.length = i.operands + kept ∧ slots'.length = i.results + kept := by
  have taking : ∀ {k : Nat}, (takeValues k slots).map (.value :: ·) = some slots' →
      ∃ kept, slots.length = k + kept ∧ slots'.length = 1 + kept := by
    intro k h
    obtain ⟨rest, hr, rfl⟩ := Option.map_eq_some_iff.1 h
    exact ⟨rest.length, length_of_takeValues hr, Nat.add_comm _ _⟩
  have emptying : ∀ {k : Nat}, (takeValues k slots).bind noSlots = some slots' →
      ∃ kept, slots.length = k + kept ∧ slots'.length = 0 + kept := by
    intro k h
    obtain ⟨rest, hr, hn⟩ := Option.bind_eq_some_iff.1 h
    obtain ⟨rfl, rfl⟩ := eq_nil_of_noSlots hn
    exact ⟨0, length_of_takeValues hr, rfl⟩
  cases i with
  | loadConst v =>
    obtain ⟨slot, -, rfl⟩ := Option.map_eq_some_iff.1 h
    exact ⟨slots.length, (Nat.zero_add _).symm, Nat.add_comm _ _⟩
  | loadName x =>
    cases h
    exact ⟨slots.length, (Nat.zero_add _).symm, Nat.add_comm _ _⟩
  | storeName x | pop =>
    exact ⟨slots'.length, length_of_takeValues (n := 1) h, (Nat.zero_add _).symm⟩
  | binary op | compare c | buildString k | call k => exact taking h
  | jumpIfFalse t | ret => exact emptying h
  | jump t =>
    obtain ⟨rfl, rfl⟩ := eq_nil_of_noSlots h
    exact ⟨0, rfl, rfl⟩
  | makeFunction x =>
    obtain ⟨rest, hr, rfl⟩ := Option.map_eq_some_iff.1 h
    cases slots with
    | nil => cases hr
    | cons slot slots =>
      cases slot with
      | value => cases hr
      | chunk k =>
        cases hr
        exact ⟨rest.length, Nat.add_comm _ _, Nat.add_comm _ _⟩

/-- Before a jump there are no slots but those that it takes. -/
theorem effect_of_target {t : Nat} (ht : i.target? = some t) (h : i.effect n slots = some slots') :
    slots' = [] := by
  cases i with
  | jump t => exact (eq_nil_of_noSlots h).2
  | jumpIfFalse t =>
    obtain ⟨rest, -, hn⟩ := Option.bind_eq_some_iff.1 h
    exact (eq_nil_of_noSlots hn).2
  | _ => cases ht

theorem effect_ret (h : (ret : Instruction).effect n slots = some slots') : slots.length = 1 := by
  obtain ⟨rest, hr, hn⟩ := Option.bind_eq_some_iff.1 h
  rw [length_of_takeValues hr, (eq_nil_of_noSlots hn).1]
  rfl

end Instr

/-! ## Levels -/

/-- A frame in verified code, with `n` operands in front of its next instruction. -/
def Frame.Level (p : Program) (f : Frame) (n : Nat) : Prop :=
  ∃ code entry slots, f.code p = .ok code ∧ Verified p.chunks.length entry code ∧
    f.ip < code.length ∧ Instr.effects p.chunks.length (code.take f.ip) entry = some slots ∧
      slots.length = n

namespace Frame.Level

variable {p : Program} {m : Machine} {n : Nat} {i : Instruction}

/-- **What an instruction does to the level**: it finds the operands that it takes, and both the
    next instruction and the target of a jump are at the level that it leads to. -/
theorem advance (h : m.current.Level p n) (hi : m.Next p i) (hr : i ≠ .ret) :
    ∃ kept, n = i.operands + kept ∧
      ∀ {f : Frame}, f.chunk = m.current.chunk →
        (f.ip = m.current.ip + 1 ∨ i.target? = some f.ip) → f.Level p (i.results + kept) := by
  obtain ⟨code, entry, slots, hc, hv, -, hs, rfl⟩ := h
  obtain ⟨code', hc', hi⟩ := hi
  rw [hc] at hc'
  cases hc'
  obtain ⟨slots', he, hs'⟩ := hv.next hs hi
  obtain ⟨kept, hl, hl'⟩ := Instr.length_of_effect he
  refine ⟨kept, hl, fun {f} hf hip => ?_⟩
  rw [← hl']
  have hcode : f.code p = .ok code := by
    rw [← hc]
    unfold Frame.code
    rw [hf]
  rcases hip with hip | ht
  · exact ⟨code, entry, slots', hcode, hv, hip ▸ hv.next_lt hi hr, hip ▸ hs', rfl⟩
  · obtain ⟨hlt, hnil⟩ := hv.jumps i (List.mem_of_getElem? hi) f.ip ht
    rw [Instr.effect_of_target ht he]
    exact ⟨code, entry, [], hcode, hv, hlt, hnil, rfl⟩

/-- There is one operand in front of a return. -/
theorem eq_one (h : m.current.Level p n) (hi : m.Next p .ret) : n = 1 := by
  obtain ⟨code, entry, slots, hc, hv, -, hs, rfl⟩ := h
  obtain ⟨code', hc', hi⟩ := hi
  rw [hc] at hc'
  cases hc'
  obtain ⟨slots', he, -⟩ := hv.next hs hi
  exact Instr.effect_ret he

/-- A function begins with its arguments. -/
theorem of_chunk (hp : p.Verified) {k : Nat} {chunk : Chunk} (hk : p.chunks[k]? = some chunk)
    {f : Frame} (hf : f.chunk = some k) (hip : f.ip = 0) : f.Level p chunk.params.length := by
  have hv := hp.chunks chunk (List.mem_of_getElem? hk)
  refine ⟨chunk.code, _, List.replicate chunk.params.length .value, ?_, hv, ?_, ?_, by simp⟩
  · unfold Frame.code
    rw [hf]
    simp only [hk]
  · have hlast := hv.returns
    rw [hip]
    refine List.length_pos_iff.2 fun hnil => ?_
    rw [hnil] at hlast
    cases hlast
  · rw [hip]
    rfl

end Frame.Level

/-! ## Layers -/

/-- The operands of frames that wait for a value, above what was there before. -/
inductive Pile (p : Program) (floor : List Value) : List Frame → List Value → Prop
  | nil : Pile p floor [] floor
  | cons {f : Frame} {fs : List Frame} {ops below : List Value} (hf : f.Level p (ops.length + 1))
      (hb : f.base = below.length) (h : Pile p floor fs below) :
      Pile p floor (f :: fs) (ops ++ below)

theorem Pile.suffix {p : Program} {floor below : List Value} {fs : List Frame}
    (h : Pile p floor fs below) : floor <:+ below := by
  induction h with
  | nil => exact List.suffix_rfl
  | cons _ _ _ ih => exact ih.trans (List.suffix_append _ _)

namespace Machine

variable {p : Program} {m m' : Machine} {f : Frame} {fs : List Frame} {floor : List Value}

/-- A machine that runs a function, or what the function has called: the frames and the operands
    of its caller are where they were. -/
def Inside (p : Program) (waiting : List Frame) (floor : List Value) (m : Machine) : Prop :=
  ∃ inner ops below, m.callers = inner ++ waiting ∧ m.current.Level p ops.length ∧
    m.current.base = below.length ∧ m.stack = ops ++ below ∧ Pile p floor inner below

/-- A function that has been entered. -/
theorem Inside.of_entered (hp : p.Verified) {k : Nat} {chunk : Chunk} {x : String}
    {args : List Value} (hk : p.chunks[k]? = some chunk) (ha : chunk.params.length = args.length) :
    (m.entered k x args).Inside p (m.current :: m.callers) m.stack := by
  refine ⟨[], args, m.stack, rfl, ?_, rfl, rfl, .nil⟩
  rw [← ha]
  exact .of_chunk hp hk rfl rfl

theorem Inside.suffix {waiting : List Frame} (h : m.Inside p waiting floor) :
    waiting <:+ m.callers ∧ floor <:+ m.stack := by
  obtain ⟨inner, ops, below, hc, -, -, hs, hpile⟩ := h
  rw [hc, hs]
  exact ⟨List.suffix_append _ _, hpile.suffix.trans (List.suffix_append _ _)⟩

/-- A machine that is about to return from the function. -/
structure Returning (p : Program) (waiting : List Frame) (floor : List Value) (v : Value)
    (m : Machine) : Prop where
  callers : m.callers = waiting
  next : m.Next p .ret
  stack : m.stack = v :: floor

/-- Operands that are taken from the top. -/
theorem split_operands {taken rest ops below : List Value} (h : taken ++ rest = ops ++ below)
    (hl : taken.length ≤ ops.length) : ∃ kept, ops = taken ++ kept ∧ rest = kept ++ below := by
  obtain ⟨kept, rfl, rfl⟩ | ⟨extra, rfl, rfl⟩ := List.append_eq_append_iff.1 h
  · exact ⟨kept, rfl, rfl⟩
  · rw [List.length_append] at hl
    obtain rfl := List.length_eq_zero_iff.1 (show extra.length = 0 by omega)
    exact ⟨[], by simp, by simp⟩

/-- **A step inside of a function stays inside of it or returns.** -/
theorem Inside.step (hp : p.Verified) (h : m.Inside p (f :: fs) floor)
    (hstep : Machine.step p m = .ok none m') :
    m'.Inside p (f :: fs) floor ∨ ∃ v, m.Returning p (f :: fs) floor v ∧
      m' = { m with current := f, callers := fs, stack := v :: floor } := by
  obtain ⟨inner, ops, below, hcallers, hlevel, hbase, hstack, hpile⟩ := h
  cases advance_of_step hstep with
  | @goes i ip locals rest output taken pushed hi hr hip hs ht hpushed =>
    obtain ⟨n', hn, hf⟩ := hlevel.advance hi hr
    rw [hstack] at hs
    obtain ⟨kept, rfl, rfl⟩ := split_operands hs.symm (by omega)
    refine .inl ⟨inner, pushed ++ kept, below, hcallers, ?_, hbase, by simp, hpile⟩
    obtain rfl : kept.length = n' := by simpa [ht] using hn
    rw [List.length_append, hpushed]
    exact hf rfl hip
  | @enters k x args rest chunk hi hs hk ha hd =>
    obtain ⟨n', hn, hf⟩ := hlevel.advance hi nofun
    have htaken : (args.reverse ++ [Value.function k x]).length = args.length + 1 := by simp
    rw [Instr.operands, ← htaken] at hn
    rw [hstack, ← List.singleton_append, ← List.append_assoc] at hs
    obtain ⟨kept, rfl, rfl⟩ := split_operands hs.symm (by omega)
    obtain rfl : kept.length = n' := by
      rw [List.length_append] at hn
      omega
    refine .inl ⟨m.fetched.current :: inner, args, kept ++ below, ?_, ?_, rfl, rfl,
      .cons ?_ hbase hpile⟩
    · show m.fetched.current :: m.callers = _
      rw [hcallers]
      rfl
    · rw [← ha]
      exact .of_chunk hp hk rfl rfl
    · rw [Nat.add_comm]
      exact hf rfl (.inl rfl)
  | @returns f' fs' v rest hi hs hc =>
    obtain ⟨v', rfl⟩ := List.length_eq_one_iff.1 (hlevel.eq_one hi)
    obtain ⟨rfl, rfl⟩ : v = v' ∧ rest = below := by simpa [hstack, eq_comm] using hs
    have hdrop : rest.drop (rest.length - m.current.base) = rest := by
      rw [hbase, Nat.sub_self, List.drop_zero]
    rw [hdrop]
    rw [hcallers] at hc
    cases hpile with
    | nil =>
      cases hc
      exact .inr ⟨v, ⟨hcallers, hi, hstack⟩, rfl⟩
    | @cons g gs ops' below' hg hb hpile =>
      cases hc
      refine .inl ⟨gs, v :: ops', below', rfl, hg, hb, rfl, hpile⟩
  | ends hcode hi hc =>
    obtain ⟨code, _, _, hcode', _, hlt, _⟩ := hlevel
    rw [hcode] at hcode'
    cases hcode'
    omega

/-- **A run inside of a function stays inside of it until it returns.** -/
theorem Inside.run (hp : p.Verified) {n : Nat} (h : m.Inside p (f :: fs) floor)
    (hr : runFor p n m = .ok none m') :
    m'.Inside p (f :: fs) floor ∨ ∃ j < n, ∃ last v, runFor p j m = .ok none last ∧
      last.Returning p (f :: fs) floor v ∧ runFor p (j + 1) m =
        .ok none { last with current := f, callers := fs, stack := v :: floor } := by
  induction n generalizing m with
  | zero =>
    cases hr
    exact .inl h
  | succ n ih =>
    rw [runFor_succ] at hr
    cases hs : Machine.step p m with
    | error e m₁ => rw [hs] at hr; cases hr
    | ok answer m₁ =>
      rw [hs] at hr
      cases answer with
      | some v => cases hr
      | none =>
        rcases h.step hp hs with h₁ | ⟨v, hv, rfl⟩
        · rcases ih h₁ hr with h₂ | ⟨j, hj, last, v, hlast, hv, hnext⟩
          · exact .inl h₂
          · refine .inr ⟨j + 1, by omega, last, v, ?_, hv, ?_⟩
            · rw [runFor_succ, hs]
              exact hlast
            · rw [runFor_succ, hs]
              exact hnext
        · exact .inr ⟨0, by omega, m, v, rfl, hv, runFor_one hs⟩

end Machine

end Naskah
