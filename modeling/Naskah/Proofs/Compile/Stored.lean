/-
  Compiled programs can be stored, and what is stored can be read unless a literal was too large
  for a double (`compile_stored`).

  Apart from doubles all constants of compiled code are read as they were written, and a call has at
  most 255 arguments.  What is left are the numbers of 32 bits, which only a program of more than
  `2 ^ 32` instructions or chunks exceeds.
-/
import Naskah.Proofs.Compile.WellFormed
import Naskah.Proofs.Program.Stored

namespace Naskah

/-! ## Sizes -/

/-- The operand of 32 bits. -/
def Instr.number? : Instruction → Option Nat
  | loadConst (.chunk n) | loadConst (.function n _) => some n
  | jumpIfFalse n | jump n | buildString n => some n
  | _ => none

theorem Instr.fits_iff {i : Instruction} :
    fits i = true ↔ (∀ n ∈ number? i, n < 2 ^ 32) ∧ ∀ n, i = call n → n ≤ 255 := by
  cases i with
  | loadConst v => cases v <;> simp [fits, Value.fits, number?] <;> omega
  | jumpIfFalse n | jump n | buildString n => simp [fits, number?]; omega
  | _ => simp [fits, number?]

namespace Program

variable {p : Program}

/-- All operands of 32 bits: the places of chunks, the targets of jumps, and the counts of the parts
    of a text.  (Lines have 32 bits already.) -/
def numbers (p : Program) : List Nat :=
  p.instructions.filterMap Instr.number?

theorem fits_iff_forall : p.fits = true ↔ ∀ i ∈ p.instructions, Instr.fits i = true := by
  simp only [fits, Chunk.fits, instructions, Bool.and_eq_true, List.all_eq_true,
    List.mem_append, List.mem_flatMap]
  grind

theorem fits_iff : p.fits = true ↔
    (∀ n ∈ p.numbers, n < 2 ^ 32) ∧ ∀ n, .call n ∈ p.instructions → n ≤ 255 := by
  rw [fits_iff_forall, numbers]
  constructor
  · intro h
    refine ⟨fun n hn => ?_, fun n hn => (Instr.fits_iff.1 (h _ hn)).2 n rfl⟩
    obtain ⟨i, hi, hn⟩ := List.mem_filterMap.1 hn
    exact (Instr.fits_iff.1 (h i hi)).1 n hn
  · rintro ⟨hn, hc⟩ i hi
    exact Instr.fits_iff.2
      ⟨fun n hm => hn n (List.mem_filterMap.2 ⟨i, hi, hm⟩), fun n he => hc n (he ▸ hi)⟩

theorem exists_mem_codes {i : Instruction} (h : i ∈ p.instructions) :
    ∃ code ∈ p.codes, i ∈ code := by
  rcases List.mem_append.1 h with h | h
  · exact ⟨_, List.mem_cons_self, h⟩
  · obtain ⟨c, hc, h⟩ := List.mem_flatMap.1 h
    exact ⟨_, List.mem_cons_of_mem _ (List.mem_map_of_mem hc), h⟩

end Program

/-! ## Compiled programs -/

/-- Proper instructions can be written down. -/
theorem Instr.Proper.toJson?_ne_none {i : Instruction} (h : i.Proper) : toJson? i ≠ none := by
  intro hn
  obtain ⟨v, rfl, hv⟩ := toJson?_eq_none_iff.1 hn
  rcases Value.kind_eq_function_iff.1 hv with ⟨k, name, rfl⟩ | ⟨b, rfl⟩
  · rcases h with h | ⟨k, h⟩ <;> cases h
  · rcases h with h | ⟨k, h⟩ <;> cases h

theorem compile_proper {text : String} {p : Program} (h : compile text = .ok p) :
    ∀ i ∈ p.instructions, i.Proper := by
  intro i hi
  obtain ⟨d, c, c', hd, -, hf⟩ := exists_of_compile h
  obtain ⟨-, -, hc, ha⟩ := Desk.of_finish hf
  obtain ⟨code, hm, hi⟩ := Program.exists_mem_codes hi
  obtain ⟨c, ho, hcode⟩ := hd.regular.codes hc ha code hm
  exact (assemble_orderly ho hcode).2 i hi

/-- **Compiled programs can be stored**, and what is stored can be read iff all numbers are of 32
    bits and no literal was too large for a double. -/
theorem compile_stored {text : String} {p : Program} (h : compile text = .ok p) :
    ∃ s, p.store? = some s ∧ ((Program.load? s).isSome = true ↔ (∀ n ∈ p.numbers, n < 2 ^ 32) ∧
      ∀ x, .loadConst (.float x) ∈ p.instructions → x.isFinite = true) := by
  have hp := compile_proper h
  have hs : p.store? ≠ none := by
    rw [Program.store?, ne_eq, Option.map_eq_none_iff, Program.toJson?_eq_none_iff]
    rintro ⟨i, hi, hn⟩
    exact (hp i hi).toJson?_ne_none hn
  obtain ⟨s, hs⟩ := Option.ne_none_iff_exists'.1 hs
  have hcalls : ∀ n, .call n ∈ p.instructions → n ≤ 255 := fun n hn => hp _ hn
  refine ⟨s, hs, ?_⟩
  rw [Program.load?_store? hs, Program.isSome_reread?_iff, Program.fits_iff, and_iff_left hcalls]

/-- A double that is no decimal fraction, and a jump over it. -/
def tenth : String :=
  "utama()\x7b0.1;\x7d"

/-- The double that an instruction loads. -/
def Instr.float? : Instruction → Option Float
  | loadConst (.float x) => some x
  | _ => none

theorem compile_stored_tenth : ∃ p s, compile tenth = .ok p ∧ p.store? = some s ∧
    (Program.load? s).isSome = true := by
  have h : ((compile tenth).toOption.map fun p => p.numbers.all (· < 2 ^ 32) &&
      (p.instructions.filterMap Instr.float?).all Float.isFinite) = some true := by
    decide +kernel
  obtain ⟨p, hp, h⟩ := Option.map_eq_some_iff.1 h
  rw [Bool.and_eq_true, List.all_eq_true, List.all_eq_true] at h
  have hp := toOption_eq_some_iff.1 hp
  obtain ⟨s, hs, hl⟩ := compile_stored hp
  refine ⟨p, s, hp, hs, hl.2 ⟨fun n hn => of_decide_eq_true (h.1 n hn), fun x hx => h.2 x ?_⟩⟩
  exact List.mem_filterMap.2 ⟨_, hx, rfl⟩

end Naskah
