/-
  The operands that code finds on the stack, before it runs.  A slot says what is known about an
  operand: that it is a value, or which chunk it is.  Reading code from its first instruction to
  its last gives the slots in front of every instruction (`Instr.effects`).  Labels stand only
  where there are no slots, so that it does not matter how a label is reached.

  Code is `Verified` if every instruction finds the operands it takes, every jump leads to an
  instruction in front of which there are no slots, and the last instruction returns.
-/
import Naskah.Block.Function
import Naskah.Proofs.Assembly
import Naskah.Proofs.Expression.Code

namespace Naskah

/-- What is known about an operand. -/
inductive Slot
  | value
  | chunk (index : Nat)
  deriving DecidableEq

/-- The slots below a number of values. -/
def takeValues : Nat → List Slot → Option (List Slot)
  | 0, slots => some slots
  | n + 1, .value :: slots => takeValues n slots
  | _, _ => none

theorem takeValues_replicate (slots : List Slot) : ∀ n : Nat,
    takeValues n (List.replicate n .value ++ slots) = some slots
  | 0 => rfl
  | n + 1 => takeValues_replicate slots n

/-- Requires that there are no slots. -/
def noSlots : List Slot → Option (List Slot)
  | [] => some []
  | _ => none

theorem eq_nil_of_noSlots {slots rest : List Slot} (h : noSlots slots = some rest) :
    slots = [] ∧ rest = [] := by
  cases slots with
  | nil => cases h; exact ⟨rfl, rfl⟩
  | cons _ _ => cases h

/-- The slots below a chunk. -/
def takeChunk : List Slot → Option (List Slot)
  | .chunk _ :: slots => some slots
  | _ => none

/-- The slot of a constant, in a program of `n` chunks.  Functions are not constants. -/
def constSlot (n : Nat) : Value → Option Slot
  | .chunk i => if i < n then some (.chunk i) else none
  | v => if v.isPlain then some .value else none

namespace Instr

variable {τ σ : Type}

/-- The slots after an instruction, in a program of `n` chunks. -/
def effect (n : Nat) : Instr τ → List Slot → Option (List Slot)
  | loadConst v, slots => (constSlot n v).map (· :: slots)
  | loadName _, slots => some (.value :: slots)
  | storeName _, slots | pop, slots => takeValues 1 slots
  | binary _, slots | compare _, slots => (takeValues 2 slots).map (.value :: ·)
  | jumpIfFalse _, slots | ret, slots => (takeValues 1 slots).bind noSlots
  | jump _, slots => noSlots slots
  | buildString k, slots => (takeValues k slots).map (.value :: ·)
  | call k, slots => (takeValues (k + 1) slots).map (.value :: ·)
  | makeFunction _, slots => (takeChunk slots).map (.value :: ·)

/-- The slots after a number of instructions. -/
def effects (n : Nat) (code : List (Instr τ)) (slots : List Slot) : Option (List Slot) :=
  code.foldlM (fun slots i => i.effect n slots) slots

theorem effects_nil (n : Nat) (slots : List Slot) :
    effects n ([] : List (Instr τ)) slots = some slots := rfl

theorem effects_cons (n : Nat) (i : Instr τ) (code : List (Instr τ)) (slots : List Slot) :
    effects n (i :: code) slots = (i.effect n slots).bind (effects n code) := rfl

theorem effects_append (n : Nat) (a b : List (Instr τ)) (slots : List Slot) :
    effects n (a ++ b) slots = (effects n a slots).bind (effects n b) :=
  List.foldlM_append ..

theorem effect_const_plain (n : Nat) {v : Value} (hv : v.isPlain = true) (slots : List Slot) :
    (loadConst v : Instr τ).effect n slots = some (.value :: slots) := by
  cases v with
  | null | int n | float x | bool b | string s => rfl
  | chunk i | function i f | builtin b => cases hv

theorem effect_relabel (n : Nat) (f : τ → σ) (i : Instr τ) (slots : List Slot) :
    (i.relabel f).effect n slots = i.effect n slots := by
  cases i <;> rfl

theorem effects_relabel (n : Nat) (f : τ → σ) : ∀ (code : List (Instr τ)) (slots : List Slot),
    effects n (code.map (relabel f)) slots = effects n code slots
  | [], _ => rfl
  | i :: code, slots => by
    rw [List.map_cons, effects_cons, effects_cons, effect_relabel]
    exact congrArg _ (funext (effects_relabel n f code))

/-- More chunks make no difference to code that is right with fewer. -/
theorem effect_mono {n n' : Nat} (hn : n ≤ n') {i : Instr τ} {slots slots' : List Slot}
    (h : i.effect n slots = some slots') : i.effect n' slots = some slots' := by
  cases i with
  | loadConst v =>
    cases v with
    | chunk i =>
      simp only [effect, constSlot] at h ⊢
      split at h
      · next hi => rw [if_pos (Nat.lt_of_lt_of_le hi hn)]; exact h
      · cases h
    | _ => exact h
  | _ => exact h

theorem effects_mono {n n' : Nat} (hn : n ≤ n') :
    ∀ {code : List (Instr τ)} {slots slots' : List Slot},
      effects n code slots = some slots' → effects n' code slots = some slots'
  | [], _, _, h => h
  | i :: code, slots, slots', h => by
    rw [effects_cons, Option.bind_eq_some_iff] at h ⊢
    obtain ⟨mid, hi, hc⟩ := h
    exact ⟨mid, effect_mono hn hi, effects_mono hn hc⟩

end Instr

namespace Asm

/-- The slots after an entry of symbolic code; a mark needs that there are none. -/
def effect (n : Nat) : Asm → List Slot → Option (List Slot)
  | op i, slots => i.effect n slots
  | mark _, slots => noSlots slots

/-- The slots after symbolic code. -/
def effects (n : Nat) (code : List Asm) (slots : List Slot) : Option (List Slot) :=
  code.foldlM (fun slots a => a.effect n slots) slots

@[simp] theorem effects_nil (n : Nat) (slots : List Slot) : effects n [] slots = some slots := rfl

@[simp] theorem effects_cons (n : Nat) (a : Asm) (code : List Asm) (slots : List Slot) :
    effects n (a :: code) slots = (a.effect n slots).bind (effects n code) := rfl

@[simp] theorem effects_append (n : Nat) (a b : List Asm) (slots : List Slot) :
    effects n (a ++ b) slots = (effects n a slots).bind (effects n b) :=
  List.foldlM_append ..

theorem effects_mono {n n' : Nat} (hn : n ≤ n') : ∀ {code : List Asm} {slots slots' : List Slot},
    effects n code slots = some slots' → effects n' code slots = some slots'
  | [], _, _, h => h
  | a :: code, slots, slots', h => by
    rw [effects_cons, Option.bind_eq_some_iff] at h ⊢
    obtain ⟨mid, ha, hc⟩ := h
    refine ⟨mid, ?_, effects_mono hn hc⟩
    cases a with
    | op i => exact Instr.effect_mono hn ha
    | mark l => exact ha

/-- Marks do not change slots. -/
theorem effects_instrs {n : Nat} : ∀ {code : List Asm} {slots slots' : List Slot},
    effects n code slots = some slots' → Instr.effects n (instrs code) slots = some slots'
  | [], _, _, h => h
  | a :: code, slots, slots', h => by
    rw [effects_cons, Option.bind_eq_some_iff] at h
    obtain ⟨mid, ha, hc⟩ := h
    cases a with
    | op i =>
      rw [instrs_op, Instr.effects_cons, Option.bind_eq_some_iff]
      exact ⟨mid, ha, effects_instrs hc⟩
    | mark l =>
      obtain ⟨rfl, rfl⟩ := eq_nil_of_noSlots ha
      rw [instrs_mark]
      exact effects_instrs hc

end Asm

/-- The code of groups one after the other, each of which adds a value. -/
theorem effects_flatten {n : Nat} : ∀ {groups : List (List Asm)},
    (∀ g ∈ groups, ∀ slots, Asm.effects n g slots = some (.value :: slots)) → ∀ slots,
      Asm.effects n groups.flatten slots = some (List.replicate groups.length .value ++ slots)
  | [], _, _ => rfl
  | g :: groups, h, slots => by
    rw [List.flatten_cons, Asm.effects_append, h g (by simp), Option.bind_some,
      effects_flatten fun g' hg => h g' (by simp [hg])]
    rw [List.length_cons, List.replicate_succ', List.append_assoc]
    rfl

/-- **The code of an expression adds one value**, whatever is on the stack. -/
theorem ExpressionCode.effects {code : List Asm} (h : ExpressionCode code) (n : Nat) :
    ∀ slots, Asm.effects n code slots = some (.value :: slots) := by
  induction h with
  | const hv => intro slots; simp [Asm.effect, Instr.effect_const_plain n hv]
  | name x => intro slots; rfl
  | join _ ih =>
    intro slots
    rw [Expression.joinCode, Asm.effects_append, effects_flatten ih, Option.bind_some]
    simp [Asm.effect, Instr.effect, takeValues_replicate]
  | @call f args _ _ ih =>
    intro slots
    rw [List.cons_append, Asm.effects_cons, Asm.effect, Instr.effect, Option.bind_some,
      Asm.effects_append, effects_flatten ih, Option.bind_some]
    have ht := takeValues_replicate slots (args.length + 1)
    rw [List.replicate_succ', List.append_assoc] at ht
    simp only [Asm.effects_cons, Asm.effect, Instr.effect]
    rw [show (Slot.value :: slots) = [Slot.value] ++ slots from rfl, ht]
    rfl
  | binary op _ _ ihl ihr | compare c _ _ ihl ihr =>
    intro slots
    rw [Asm.effects_append, Asm.effects_append, ihl, Option.bind_some, ihr]
    rfl

/-! ## Verified code -/

/-- Code for which the slots in front of every instruction are known, in a program of `n` chunks
    and with the slots `entry` in front of the first. -/
structure Verified (n : Nat) (entry : List Slot) (code : List Instruction) : Prop where
  total : (Instr.effects n code entry).isSome
  jumps : ∀ i ∈ code, ∀ t ∈ i.target?,
    t < code.length ∧ Instr.effects n (code.take t) entry = some []
  returns : code.getLast? = some .ret

/-- The slots in front of a mark. -/
theorem effects_before_mark {n : Nat} {a b : List Asm} {l : Label} {entry slots : List Slot}
    (h : Asm.effects n (a ++ .mark l :: b) entry = some slots) :
    Asm.effects n a entry = some [] := by
  rw [Asm.effects_append, Option.bind_eq_some_iff] at h
  obtain ⟨mid, ha, hb⟩ := h
  rw [Asm.effects_cons, Option.bind_eq_some_iff] at hb
  obtain ⟨_, hm, _⟩ := hb
  rw [ha, (eq_nil_of_noSlots hm).1]

/-- **Assembled code is verified** if slots can be followed through the symbolic code and none are
    left at its end. -/
theorem Verified.of_assemble {n : Nat} {entry : List Slot} {c : List Asm}
    {code : List Instruction} (hc : Asm.effects n c entry = some [])
    (h : Asm.assemble (c ++ FunctionBlock.returnNull) = .ok code) : Verified n entry code := by
  obtain ⟨hnd, -, ht, rfl⟩ := Asm.assemble_eq_ok_iff.1 h
  refine ⟨?_, fun i hi t hit => ?_, ?_⟩
  · have he : Asm.effects n (c ++ FunctionBlock.returnNull) entry = some [] := by
      rw [Asm.effects_append, hc]; rfl
    rw [Instr.effects_relabel, Asm.effects_instrs he]
    rfl
  · obtain ⟨j, hj, rfl⟩ := List.mem_map.1 hi
    rw [Instr.target?_relabel] at hit
    obtain ⟨l, hl, rfl⟩ := Option.map_eq_some_iff.1 hit
    -- the mark of the label stands in `c`, since there is none in the code that returns null
    have hm : l ∈ Asm.marks (c ++ FunctionBlock.returnNull) := ht l (Asm.mem_targets.2 ⟨j, hj, hl⟩)
    have hmc : l ∈ Asm.marks c := by simpa [FunctionBlock.returnNull] using hm
    obtain ⟨a, b, rfl⟩ := List.append_of_mem (Asm.mem_marks.1 hmc)
    have hna : l ∉ Asm.marks a := by
      intro ha
      simp only [Asm.marks_append, Asm.marks_mark, List.append_assoc] at hnd
      exact (List.nodup_append.1 hnd).2.2 l ha l (by simp) rfl
    rw [List.append_assoc, List.cons_append, Asm.place_eq hna]
    refine ⟨by simp [FunctionBlock.returnNull], ?_⟩
    rw [← List.map_take, Asm.instrs_append, List.take_left' rfl, Instr.effects_relabel]
    exact Asm.effects_instrs (effects_before_mark hc)
  · simp [FunctionBlock.returnNull, Instr.relabel]

end Naskah
