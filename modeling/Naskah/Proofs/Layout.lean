/-
  Where symbolic code stands in assembled code.  A block stands at an offset if its instructions
  lie there one behind the other, with the labels replaced by offsets, and its marks are where the
  labels point to.  A block stands if and only if its parts stand one behind the other
  (`Located.append_iff`), and every part of code that can be assembled stands in the result
  (`Located.of_assemble`).
-/
import Naskah.Proofs.Tree.Simulation
import Naskah.Proofs.Tree.Symbolic

namespace Naskah

open Naskah.Tree (Placed placed_append placed_op placed_mark lookup_of_nodup)

namespace Asm

/-- The number of instructions. -/
def size (a : List Asm) : Nat :=
  (instrs a).length

section
variable (a b : List Asm)

@[simp] theorem size_nil : size [] = 0 := rfl

@[simp] theorem size_op (i : Instr Label) : size (.op i :: a) = size a + 1 := rfl

@[simp] theorem size_mark (l : Label) : size (.mark l :: a) = size a := rfl

@[simp] theorem size_append : size (a ++ b) = size a + size b := by
  rw [size, instrs_append, List.length_append]
  rfl

end

end Asm

open Asm

/-- Symbolic code that stands at an offset, its labels at the offsets that `ρ` gives. -/
structure Located (ρ : Label → Nat) (whole : List Instruction) (pos : Nat) (a : List Asm) :
    Prop where
  lies : LiesAt whole pos ((instrs a).map (Instr.relabel ρ))
  placed : Placed ρ pos a

namespace Located

variable {ρ : Label → Nat} {whole : List Instruction} {pos : Nat} {a b : List Asm}

theorem append_iff :
    Located ρ whole pos (a ++ b) ↔ Located ρ whole pos a ∧ Located ρ whole (pos + size a) b := by
  constructor
  · rintro ⟨hl, hp⟩
    rw [instrs_append, List.map_append, LiesAt.append_iff, List.length_map] at hl
    rw [placed_append] at hp
    exact ⟨⟨hl.1, hp.1⟩, ⟨hl.2, hp.2⟩⟩
  · rintro ⟨⟨hla, hpa⟩, ⟨hlb, hpb⟩⟩
    refine ⟨?_, placed_append.2 ⟨hpa, hpb⟩⟩
    rw [instrs_append, List.map_append, LiesAt.append_iff, List.length_map]
    exact ⟨hla, hlb⟩

theorem op_iff {i : Instr Label} :
    Located ρ whole pos (.op i :: a) ↔
      whole[pos]? = some (i.relabel ρ) ∧ Located ρ whole (pos + 1) a := by
  constructor
  · rintro ⟨hl, hp⟩
    rw [instrs_op, List.map_cons, LiesAt.cons_iff] at hl
    exact ⟨hl.1, hl.2, placed_op.1 hp⟩
  · rintro ⟨hi, hl, hp⟩
    refine ⟨?_, placed_op.2 hp⟩
    rw [instrs_op, List.map_cons, LiesAt.cons_iff]
    exact ⟨hi, hl⟩

theorem mark_iff {l : Label} :
    Located ρ whole pos (.mark l :: a) ↔ ρ l = pos ∧ Located ρ whole pos a := by
  constructor
  · rintro ⟨hl, hp⟩
    rw [placed_mark] at hp
    exact ⟨hp.1, hl, hp.2⟩
  · rintro ⟨hm, hl, hp⟩
    exact ⟨hl, placed_mark.2 ⟨hm, hp⟩⟩

/-- Code without marks. -/
theorem of_lies (h : LiesAt whole pos ((instrs a).map (Instr.relabel ρ))) (hm : marks a = []) :
    Located ρ whole pos a := by
  refine ⟨h, fun p hp => ?_⟩
  have hmem : p.1 ∈ marks a := by
    rw [← map_fst_offsetsFrom pos]
    exact List.mem_map_of_mem hp
  rw [hm] at hmem
  exact absurd hmem List.not_mem_nil

/-- **Every part of code that can be assembled stands in it.** -/
theorem of_assemble {c : List Asm} (h : assemble (a ++ b ++ c) = .ok whole) :
    Located (place (a ++ b ++ c)) whole (size a) b := by
  obtain ⟨hn, -, -, rfl⟩ := assemble_eq_ok_iff.1 h
  have hwhole : Located (place (a ++ b ++ c))
      ((instrs (a ++ b ++ c)).map (Instr.relabel (place (a ++ b ++ c)))) 0 (a ++ b ++ c) := by
    refine ⟨List.prefix_rfl, fun p hp => ?_⟩
    rw [← map_fst_offsetsFrom 0] at hn
    have hl : (offsets (a ++ b ++ c)).lookup p.1 = some p.2 := lookup_of_nodup hn p hp
    rw [place, hl]
    rfl
  have hb := (append_iff.1 (append_iff.1 hwhole).1).2
  rwa [Nat.zero_add] at hb

/-- The labels that a block marks are inside of it or at its end. -/
theorem place_mem (h : Located ρ whole pos a) {l : Label} (hl : l ∈ marks a) :
    pos ≤ ρ l ∧ ρ l ≤ pos + size a := by
  obtain ⟨a₁, a₂, rfl, -⟩ := exists_mark hl
  obtain ⟨-, hm⟩ := append_iff.1 h
  rw [(mark_iff.1 hm).1]
  simp

/-- The instruction at an offset of a block. -/
theorem getElem? (h : Located ρ whole pos a) {k : Nat} (hk : pos ≤ k) (hlt : k < pos + size a) :
    ∃ i ∈ instrs a, whole[k]? = some (i.relabel ρ) := by
  have hi : k - pos < (instrs a).length := by
    rw [size] at hlt
    omega
  refine ⟨(instrs a)[k - pos], List.getElem_mem hi, ?_⟩
  obtain ⟨t, ht⟩ := h.lies
  have hd : (whole.drop pos)[k - pos]? = whole[k]? := by
    rw [List.getElem?_drop]
    congr 1
    omega
  rw [← hd, ← ht, List.getElem?_append_left (by simpa using hi), List.getElem?_map,
    List.getElem?_eq_getElem hi]
  rfl

theorem le_length (h : Located ρ whole pos a) (ha : 0 < size a) :
    pos + size a ≤ whole.length := by
  have hl := h.lies.length_le (by
    intro hnil
    rw [List.map_eq_nil_iff] at hnil
    rw [size, hnil] at ha
    exact absurd ha (Nat.lt_irrefl 0))
  rwa [List.length_map] at hl

end Located

end Naskah
