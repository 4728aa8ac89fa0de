/-
  What assembly does, said without its two phases.  An assembler to which entries were added holds
  their instructions with placeholders, the places of their marks and their jumps
  (`Assembler.Holds`), and what comes out in the end is told by `Asm.Links`.

  So code can be assembled if and only if no label is marked twice and the labels that are marked
  are those that are jumped to; the result is the instructions in order, with every label replaced
  by its place, the number of instructions before its mark (`assemble_eq_ok_iff`).
-/
import Naskah.Assembly
import Mathlib.Data.List.Basic
import Mathlib.Tactic.Common

namespace Naskah

namespace Instr

variable {τ σ υ : Type}

theorem target?_relabel (f : τ → σ) (i : Instr τ) : (i.relabel f).target? = i.target?.map f := by
  cases i <;> rfl

theorem relabel_congr {f g : τ → σ} {i : Instr τ} (h : ∀ t ∈ i.target?, f t = g t) :
    i.relabel f = i.relabel g := by
  cases i with
  | jumpIfFalse t | jump t => simp only [relabel, h t rfl]
  | _ => rfl

/-- There are two kinds of jumps. -/
theorem eq_of_target? {i : Instr τ} {t : τ} (h : i.target? = some t) :
    i = jumpIfFalse t ∨ i = jump t := by
  cases i with
  | jumpIfFalse t' => cases h; exact .inl rfl
  | jump t' => cases h; exact .inr rfl
  | _ => cases h

end Instr

namespace Asm

/-! ## Instructions, marks and targets -/

def instr? : Asm → Option (Instr Label)
  | op i => some i
  | mark _ => none

def label? : Asm → Option Label
  | op _ => none
  | mark l => some l

/-- The instructions of symbolic code, without the marks. -/
def instrs (code : List Asm) : List (Instr Label) :=
  code.filterMap instr?

/-- The labels that are marked, in order. -/
def marks (code : List Asm) : List Label :=
  code.filterMap label?

/-- The labels that jumps point to, in order. -/
def targets (code : List Asm) : List Label :=
  (instrs code).filterMap Instr.target?

@[simp] theorem instrs_nil : instrs [] = [] := rfl

@[simp] theorem instrs_op (i : Instr Label) (c : List Asm) :
    instrs (.op i :: c) = i :: instrs c := rfl

@[simp] theorem instrs_mark (l : Label) (c : List Asm) : instrs (.mark l :: c) = instrs c := rfl

@[simp] theorem instrs_append (a b : List Asm) : instrs (a ++ b) = instrs a ++ instrs b :=
  List.filterMap_append

@[simp] theorem marks_nil : marks [] = [] := rfl

@[simp] theorem marks_op (i : Instr Label) (c : List Asm) : marks (.op i :: c) = marks c := rfl

@[simp] theorem marks_mark (l : Label) (c : List Asm) : marks (.mark l :: c) = l :: marks c := rfl

@[simp] theorem marks_append (a b : List Asm) : marks (a ++ b) = marks a ++ marks b :=
  List.filterMap_append

@[simp] theorem targets_nil : targets [] = [] := rfl

@[simp] theorem targets_op (i : Instr Label) (c : List Asm) :
    targets (.op i :: c) = i.target?.toList ++ targets c := by
  simp only [targets, instrs_op, List.filterMap_cons]
  cases i.target? <;> rfl

@[simp] theorem targets_mark (l : Label) (c : List Asm) : targets (.mark l :: c) = targets c := rfl

@[simp] theorem targets_append (a b : List Asm) : targets (a ++ b) = targets a ++ targets b := by
  simp [targets]

theorem mem_targets {l : Label} {c : List Asm} :
    l ∈ targets c ↔ ∃ i ∈ instrs c, i.target? = some l := by
  simp [targets]

theorem mem_marks {l : Label} {c : List Asm} : l ∈ marks c ↔ .mark l ∈ c := by
  simp only [marks, List.mem_filterMap]
  constructor
  · rintro ⟨a, ha, he⟩
    cases a with
    | op i => cases he
    | mark l' => cases he; exact ha
  · intro h
    exact ⟨_, h, rfl⟩

/-! ## Places -/

/-- Every mark with the number of instructions before it, when `n` instructions come first. -/
def offsetsFrom : Nat → List Asm → List (Label × Nat)
  | _, [] => []
  | n, op _ :: code => offsetsFrom (n + 1) code
  | n, mark l :: code => (l, n) :: offsetsFrom n code

/-- Every mark with the number of instructions before it. -/
def offsets (code : List Asm) : List (Label × Nat) :=
  offsetsFrom 0 code

theorem offsetsFrom_append (n : Nat) : ∀ a b : List Asm,
    offsetsFrom n (a ++ b) = offsetsFrom n a ++ offsetsFrom (n + (instrs a).length) b
  | [], b => rfl
  | .op i :: a, b => by
    simp only [List.cons_append, offsetsFrom, instrs_op, List.length_cons]
    rw [offsetsFrom_append (n + 1) a b, Nat.add_assoc n 1, Nat.add_comm 1]
  | .mark l :: a, b => by
    simp only [List.cons_append, offsetsFrom, instrs_mark]
    rw [offsetsFrom_append n a b]

theorem map_fst_offsetsFrom (n : Nat) : ∀ c : List Asm,
    (offsetsFrom n c).map Prod.fst = marks c
  | [] => rfl
  | .op _ :: c => map_fst_offsetsFrom (n + 1) c
  | .mark l :: c => congrArg (l :: ·) (map_fst_offsetsFrom n c)

/-- The number of instructions before the mark of a label. -/
def place (c : List Asm) (l : Label) : Nat :=
  ((offsets c).lookup l).getD 0

theorem lookup_offsets {c : List Asm} {l : Label} (h : l ∈ marks c) :
    (offsets c).lookup l = some (place c l) := by
  unfold place
  cases hl : (offsets c).lookup l with
  | some n => rfl
  | none =>
    rw [List.lookup_eq_none_iff] at hl
    rw [← map_fst_offsetsFrom 0] at h
    obtain ⟨p, hp, rfl⟩ := List.mem_map.1 h
    simpa using hl p hp

theorem lookup_offsets_eq_none {c : List Asm} {l : Label} (h : l ∉ marks c) :
    (offsets c).lookup l = none := by
  rw [List.lookup_eq_none_iff]
  intro p hp
  rw [← map_fst_offsetsFrom 0] at h
  rw [bne_iff_ne]
  rintro rfl
  exact h (List.mem_map.2 ⟨p, hp, rfl⟩)

/-- A label that is marked once has its place where its mark is. -/
theorem place_eq {a b : List Asm} {l : Label} (h : l ∉ marks a) :
    place (a ++ .mark l :: b) l = (instrs a).length := by
  have hn : (offsetsFrom 0 a).lookup l = none := lookup_offsets_eq_none h
  unfold place offsets
  rw [offsetsFrom_append, List.lookup_append, hn]
  simp [offsetsFrom]

/-- Before the mark of a label that is marked once there is no other. -/
theorem not_mem_marks {a b : List Asm} {l : Label} (h : (marks (a ++ .mark l :: b)).Nodup) :
    l ∉ marks a := by
  intro hl
  rw [marks_append, List.nodup_append] at h
  exact h.2.2 l hl l (by simp) rfl

/-- Where a label is marked first. -/
theorem exists_mark {l : Label} : ∀ {c : List Asm}, l ∈ marks c →
    ∃ a b, c = a ++ .mark l :: b ∧ l ∉ marks a
  | [], h => by simp at h
  | .op i :: c, h => by
    obtain ⟨a, b, rfl, ha⟩ := exists_mark (c := c) h
    exact ⟨.op i :: a, b, rfl, ha⟩
  | .mark l' :: c, h => by
    by_cases hl : l = l'
    · subst hl
      exact ⟨[], c, rfl, by simp⟩
    · rw [marks_mark, List.mem_cons] at h
      obtain ⟨a, b, rfl, ha⟩ := exists_mark (h.resolve_left hl)
      refine ⟨.mark l' :: a, b, rfl, ?_⟩
      rw [marks_mark, List.mem_cons]
      exact not_or.2 ⟨hl, ha⟩

theorem place_le {a b : List Asm} {l : Label} (h : l ∈ marks a) :
    place (a ++ b) l ≤ (instrs a).length := by
  obtain ⟨a₁, a₂, rfl, hl⟩ := exists_mark h
  rw [List.append_assoc, List.cons_append, place_eq hl]
  simp

theorem le_place {a b : List Asm} {l : Label} (ha : l ∉ marks a) (h : l ∈ marks b) :
    (instrs a).length ≤ place (a ++ b) l := by
  obtain ⟨b₁, b₂, rfl, hl⟩ := exists_mark h
  have hm : l ∉ marks (a ++ b₁) := by
    rw [marks_append, List.mem_append]
    exact not_or.2 ⟨ha, hl⟩
  rw [← List.append_assoc, place_eq hm, instrs_append, List.length_append]
  exact Nat.le_add_right _ _

end Asm

/-! ## The first phase -/

namespace Assembler

open Asm

variable {a : Assembler} {c : List Asm} {l : Label}

/-- The jumps among instructions, the first of which stands at `n`. -/
def fixupsFrom : Nat → List (Instr Label) → List Fixup
  | _, [] => []
  | n, i :: is => (i.target?.map (Fixup.mk n)).toList ++ fixupsFrom (n + 1) is

theorem fixupsFrom_append (n : Nat) (is js : List (Instr Label)) :
    fixupsFrom n (is ++ js) = fixupsFrom n is ++ fixupsFrom (n + is.length) js := by
  induction is generalizing n with
  | nil => rfl
  | cons i is ih =>
    rw [List.cons_append, fixupsFrom, fixupsFrom, ih, List.append_assoc, List.length_cons,
      Nat.add_assoc n 1, Nat.add_comm 1]

/-- The assembler to which the entries of `c` were added.  The order of its labels is left open. -/
structure Holds (c : List Asm) (a : Assembler) : Prop where
  code : a.code.toList = (instrs c).map (Instr.relabel fun _ => placeholder)
  lookup : ∀ l, a.labels.lookup l = (offsets c).lookup l
  labels : ∀ l, l ∈ a.labels.map Prod.fst ↔ l ∈ marks c
  fixups : a.fixups.toList = fixupsFrom 0 (instrs c)
  nodup : (marks c).Nodup

theorem holds_nil : Holds [] {} :=
  ⟨rfl, fun _ => rfl, fun _ => Iff.rfl, rfl, List.nodup_nil⟩

theorem Holds.position (h : Holds c a) : a.position = (instrs c).length := by
  rw [Assembler.position, ← Array.length_toList, h.code, List.length_map]

/-- The place of a label that is marked is known. -/
theorem Holds.lookup_eq_some (h : Holds c a) (hl : l ∈ marks c) :
    a.labels.lookup l = some (place c l) := by
  rw [h.lookup, lookup_offsets hl]

theorem Holds.lookup_eq_none (h : Holds c a) (hl : l ∉ marks c) : a.labels.lookup l = none := by
  rw [h.lookup, lookup_offsets_eq_none hl]

/-- **A label that is marked already is refused.** -/
theorem Holds.label_eq_error (h : Holds c a) (hl : l ∈ marks c) :
    a.label l = .error (.duplicateLabel l) a := by
  rw [label, h.lookup_eq_some hl]
  rfl

/-- **Any other label is marked.** -/
theorem Holds.label_eq_ok (h : Holds c a) (hl : l ∉ marks c) :
    ∃ a', a.label l = .ok () a' ∧ Holds (c ++ [.mark l]) a' := by
  have hoff : offsets (c ++ [.mark l]) = offsets c ++ [(l, a.position)] := by
    rw [h.position, offsets, offsetsFrom_append, Nat.zero_add]
    rfl
  refine ⟨{ a with labels := (l, a.position) :: a.labels }, ?_, ?_⟩
  · rw [label, h.lookup_eq_none hl]
    rfl
  · refine ⟨by simpa using h.code, fun l' => ?_, fun l' => ?_, by simpa using h.fixups, ?_⟩
    · rw [hoff, List.lookup_append, List.lookup_cons, ← h.lookup]
      by_cases he : l' = l
      · rw [he, h.lookup_eq_none hl]
        simp
      · simp [List.lookup_cons, beq_eq_false_iff_ne.2 he]
    · rw [List.map_cons, List.mem_cons, h.labels, marks_append, List.mem_append, or_comm]
      simp
    · rw [marks_append, List.nodup_append]
      refine ⟨h.nodup, by simp, fun l₁ h₁ l₂ h₂ he => hl ?_⟩
      obtain rfl : l₂ = l := by simpa using h₂
      exact he ▸ h₁

/-- **Instructions are never refused.** -/
theorem Holds.push_op (h : Holds c a) (i : Instr Label) :
    ∃ a', a.push (.op i) = .ok () a' ∧ Holds (c ++ [.op i]) a' := by
  refine ⟨_, rfl, ?_⟩
  have hsize : a.code.size = (instrs c).length := h.position
  have hoff : offsets (c ++ [.op i]) = offsets c := by
    rw [offsets, offsetsFrom_append]
    exact List.append_nil _
  constructor
  · simp [h.code]
  · simpa [hoff] using h.lookup
  · simpa using h.labels
  · rw [instrs_append, fixupsFrom_append, ← h.fixups, Nat.zero_add, ← hsize]
    cases ht : i.target? <;> simp [fixupsFrom, ht]
  · simpa using h.nodup

/-- **What can become of an entry.** -/
theorem Holds.push_cases (h : Holds c a) (e : Asm) :
    (∃ l, e = .mark l ∧ l ∈ marks c ∧ a.push e = .error (.duplicateLabel l) a) ∨
      (∀ l, e = .mark l → l ∉ marks c) ∧ ∃ a', a.push e = .ok () a' ∧ Holds (c ++ [e]) a' := by
  cases e with
  | op i => exact .inr ⟨by simp, h.push_op i⟩
  | mark l =>
    by_cases hl : l ∈ marks c
    · exact .inl ⟨l, rfl, hl, h.label_eq_error hl⟩
    · refine .inr ⟨?_, h.label_eq_ok hl⟩
      rintro _ ⟨⟩
      exact hl

/-- The entries up to the first that is refused, or all of them. -/
theorem Holds.pushAll_cases (h : Holds c a) (code : List Asm) :
    (∃ before l after a', code = before ++ .mark l :: after ∧ (marks (c ++ before)).Nodup ∧
        l ∈ marks (c ++ before) ∧ a.pushAll code = .error (.duplicateLabel l) a') ∨
      ∃ a', a.pushAll code = .ok () a' ∧ Holds (c ++ code) a' := by
  induction code generalizing c a with
  | nil => exact .inr ⟨a, rfl, by rwa [List.append_nil]⟩
  | cons e code ih =>
    rcases h.push_cases e with ⟨l, rfl, hl, he⟩ | ⟨-, a₁, he, h₁⟩
    · refine .inl ⟨[], l, code, a, rfl, by simpa using h.nodup, by simpa using hl, ?_⟩
      rw [pushAll, he]
    · have hrun : a.pushAll (e :: code) = a₁.pushAll code := by rw [pushAll, he]
      rw [hrun]
      rcases ih h₁ with ⟨before, l, after, a', rfl, hn, hl, hr⟩ | ⟨a', hr, h'⟩
      · exact .inl ⟨e :: before, l, after, a', rfl, by simpa using hn, by simpa using hl, hr⟩
      · exact .inr ⟨a', hr, by simpa using h'⟩

/-! ## The second phase -/

/-- Targets are written into the jumps of `is`, behind instructions that are done. -/
theorem patch_eq (labels : List (Label × Nat)) (is : List (Instr Label)) (done : List Instruction)
    (used : List Label) :
    patch labels (fixupsFrom done.length is)
        (done ++ is.map (Instr.relabel fun _ => placeholder)).toArray used =
      match (is.filterMap Instr.target?).find? fun l => (labels.lookup l).isNone with
      | some l => .error (.unknownLabel l)
      | none => .ok ((done ++ is.map (Instr.relabel fun l => (labels.lookup l).getD 0)).toArray,
          (is.filterMap Instr.target?).reverse ++ used) := by
  induction is generalizing done used with
  | nil => rfl
  | cons i is ih =>
    have hdone (j : Instruction) : (done ++ [j]).length = done.length + 1 := by simp
    cases ht : i.target? with
    | none =>
      have hi : i.relabel (fun _ => placeholder) =
          i.relabel fun l => (labels.lookup l).getD 0 :=
        Instr.relabel_congr (by simp [ht])
      have := ih (done ++ [i.relabel fun l => (labels.lookup l).getD 0]) used
      rw [hdone, List.append_assoc, List.append_assoc] at this
      simpa [fixupsFrom, ht, hi] using this
    | some l =>
      cases hl : labels.lookup l with
      | none => simp [fixupsFrom, ht, hl, patch]
      | some n =>
        have := ih (done ++ [i.relabel fun l => (labels.lookup l).getD 0]) (l :: used)
        rw [hdone, List.append_assoc, List.append_assoc] at this
        rcases Instr.eq_of_target? ht with rfl | rfl <;>
          simpa [fixupsFrom, Instr.target?, hl, patch, Instr.relabel] using this

end Assembler

namespace Asm

/-- What becomes of code in which no label is marked twice. -/
inductive Links (c : List Asm) : Except AssemblyError (List Instruction) → Prop
  /-- The first jump to a label without a mark is reported. -/
  | unknown {l : Label} : (targets c).find? (fun l => l ∉ marks c) = some l →
      Links c (.error (.unknownLabel l))
  /-- If there is none, the least label is reported that is marked and not jumped to. -/
  | unused {l : Label} : (∀ l ∈ targets c, l ∈ marks c) → l ∈ marks c → l ∉ targets c →
      (∀ l' ∈ marks c, l' ∉ targets c → l.index ≤ l'.index) → Links c (.error (.unusedLabel l))
  /-- If there is none either, the labels become the numbers of instructions before the marks. -/
  | resolved {ρ : Label → Nat} : (∀ l ∈ targets c, l ∈ marks c) → (∀ l ∈ marks c, l ∈ targets c) →
      (∀ before l after, c = before ++ .mark l :: after → ρ l = (instrs before).length) →
      Links c (.ok ((instrs c).map (Instr.relabel ρ)))

/-- The labels become their places. -/
theorem links_place {c : List Asm} (hn : (marks c).Nodup) (hall : ∀ l ∈ targets c, l ∈ marks c)
    (hused : ∀ l ∈ marks c, l ∈ targets c) :
    Links c (.ok ((instrs c).map (Instr.relabel (place c)))) := by
  refine .resolved hall hused fun before l after hc => ?_
  subst hc
  exact place_eq (not_mem_marks hn)

theorem not_marked_of_find? {c : List Asm} {l : Label}
    (h : (targets c).find? (fun l => l ∉ marks c) = some l) : ¬ ∀ l ∈ targets c, l ∈ marks c := by
  intro hall
  have hl := List.find?_some h
  simp [hall _ (List.mem_of_find?_eq_some h)] at hl

/-- At most one thing becomes of code. -/
theorem Links.unique {c : List Asm} {r r' : Except AssemblyError (List Instruction)}
    (h : Links c r) (h' : Links c r') : r = r' := by
  cases h with
  | unknown hf =>
    cases h' with
    | unknown hf' => rw [hf] at hf'; cases hf'; rfl
    | unused hall => exact absurd hall (not_marked_of_find? hf)
    | resolved hall => exact absurd hall (not_marked_of_find? hf)
  | @unused l hall hm ht hle =>
    cases h' with
    | unknown hf' => exact absurd hall (not_marked_of_find? hf')
    | @unused l' _ hm' ht' hle' =>
      have hi : l.index = l'.index := Nat.le_antisymm (hle l' hm' ht') (hle' l hm ht)
      cases l; cases l'; cases hi; rfl
    | resolved _ hused => exact absurd (hused _ hm) ht
  | @resolved ρ hall hused hρ =>
    cases h' with
    | unknown hf' => exact absurd hall (not_marked_of_find? hf')
    | unused _ hm ht => exact absurd (hused _ hm) ht
    | @resolved ρ' _ _ hρ' =>
      refine congrArg Except.ok (List.map_congr_left fun i hi => Instr.relabel_congr fun l hl => ?_)
      obtain ⟨before, after, hc, -⟩ := exists_mark (hall l (mem_targets.2 ⟨i, hi, hl⟩))
      rw [hρ before l after hc, hρ' before l after hc]

end Asm

namespace Assembler

open Asm

variable {a : Assembler} {c : List Asm}

theorem unused?_eq_some {labels : List (Label × Nat)} {used : List Label} {l : Label}
    (h : unused? labels used = some l) : l ∈ labels.map Prod.fst ∧ l ∉ used ∧
      ∀ l' ∈ labels.map Prod.fst, l' ∉ used → l.index ≤ l'.index := by
  obtain ⟨n, hn, rfl⟩ := Option.map_eq_some_iff.1 h
  obtain ⟨hmem, hle⟩ := List.min?_eq_some_iff.1 hn
  obtain ⟨l, hl, rfl⟩ := List.mem_map.1 hmem
  rw [List.mem_filter] at hl
  refine ⟨hl.1, by simpa using hl.2, fun l' h' hu => hle l'.index ?_⟩
  exact List.mem_map_of_mem (List.mem_filter.2 ⟨h', by simpa using hu⟩)

theorem unused?_eq_none {labels : List (Label × Nat)} {used : List Label}
    (h : unused? labels used = none) : ∀ l ∈ labels.map Prod.fst, l ∈ used := by
  intro l hl
  by_contra hu
  have hn : (labels.map Prod.fst).filter (fun l => !used.contains l) = [] := by
    simpa [unused?, List.min?_eq_none_iff] using h
  have := List.filter_eq_nil_iff.1 hn l hl
  simp [hu] at this

/-- **What comes out of an assembler in the end.** -/
theorem Holds.links (h : Holds c a) : Links c a.finish := by
  have hcode : a.code = ([] ++ (instrs c).map (Instr.relabel fun _ => placeholder)).toArray := by
    rw [List.nil_append, ← h.code]
  have hnone : (fun l => (a.labels.lookup l).isNone) = fun l => decide (l ∉ marks c) := by
    funext l
    by_cases hl : l ∈ marks c
    · simp [h.lookup_eq_some hl, hl]
    · simp [h.lookup_eq_none hl, hl]
  have hplace : (fun l => (a.labels.lookup l).getD 0) = place c := by
    funext l
    rw [h.lookup, place]
  have hpatch := patch_eq a.labels (instrs c) [] []
  rw [← hcode, List.length_nil, ← h.fixups, hnone, hplace] at hpatch
  rw [finish, hpatch]
  cases hf : (targets c).find? fun l => decide (l ∉ marks c) with
  | some l =>
    rw [show (instrs c).filterMap Instr.target? = targets c from rfl, hf]
    exact .unknown hf
  | none =>
    have hall : ∀ l ∈ targets c, l ∈ marks c := by simpa using List.find?_eq_none.1 hf
    have hused : ∀ l, l ∈ (targets c).reverse ++ [] ↔ l ∈ targets c := by simp
    rw [show (instrs c).filterMap Instr.target? = targets c from rfl, hf]
    show Links c (match unused? a.labels ((targets c).reverse ++ []) with
      | some l => .error (.unusedLabel l)
      | none => .ok ([] ++ (instrs c).map (Instr.relabel (place c))).toArray.toList)
    cases hu : unused? a.labels ((targets c).reverse ++ []) with
    | some l =>
      obtain ⟨hm, ht, hle⟩ := unused?_eq_some hu
      simp only [h.labels, hused] at hm ht hle
      exact .unused hall hm ht hle
    | none =>
      have hmarks := unused?_eq_none hu
      simp only [h.labels, hused] at hmarks
      exact links_place h.nodup hall hmarks

theorem Holds.finish_iff (h : Holds c a) {r : Except AssemblyError (List Instruction)} :
    a.finish = r ↔ Links c r :=
  ⟨fun hr => hr ▸ h.links, fun hr => h.links.unique hr⟩

end Assembler

namespace Asm

/-! ## Assembly -/

/-- What becomes of code. -/
inductive Assembles (c : List Asm) : Except AssemblyError (List Instruction) → Prop
  /-- The first label that is marked again is reported. -/
  | duplicate {before after : List Asm} {l : Label} : c = before ++ .mark l :: after →
      (marks before).Nodup → l ∈ marks before → Assembles c (.error (.duplicateLabel l))
  /-- If there is none, the code is linked. -/
  | linked {r : Except AssemblyError (List Instruction)} : (marks c).Nodup → Links c r →
      Assembles c r

theorem Assembles.unique {c : List Asm} {r r' : Except AssemblyError (List Instruction)}
    (h : Assembles c r) (h' : Assembles c r') : r = r' := by
  -- of two labels that are marked again, the one behind would come after a repetition
  have first : ∀ {before after before' after' t : List Asm} {l l' : Label},
      before' = before ++ t → .mark l :: after = t ++ .mark l' :: after' → l ∈ marks before →
        (marks before').Nodup → l = l' := by
    intro before after before' after' t l l' hb ht hl hn
    cases t with
    | nil => cases ht; rfl
    | cons e t =>
      cases ht
      subst hb
      exact absurd hl (not_mem_marks hn)
  cases h with
  | @duplicate before after l hc hn hl =>
    cases h' with
    | @duplicate before' after' l' hc' hn' hl' =>
      rcases List.append_eq_append_iff.1 (hc.symm.trans hc') with ⟨t, hb, ht⟩ | ⟨t, hb, ht⟩
      · rw [first hb ht hl hn']
      · rw [first hb ht hl' hn]
    | linked hn' =>
      subst hc
      exact absurd hl (not_mem_marks hn')
  | linked hn hlinks =>
    cases h' with
    | duplicate hc _ hl =>
      subst hc
      exact absurd hl (not_mem_marks hn)
    | linked _ hlinks' => exact hlinks.unique hlinks'

/-- **What assembly returns.** -/
theorem assembles (c : List Asm) : Assembles c (assemble c) := by
  rcases Assembler.holds_nil.pushAll_cases c with ⟨before, l, after, a, hc, hn, hl, he⟩ | ⟨a, he, h⟩
  · rw [assemble, he]
    exact .duplicate hc hn hl
  · rw [assemble, he]
    exact .linked h.nodup h.links

theorem assemble_iff {c : List Asm} {r : Except AssemblyError (List Instruction)} :
    assemble c = r ↔ Assembles c r :=
  ⟨fun hr => hr ▸ assembles c, fun hr => (assembles c).unique hr⟩

theorem links_assemble {c : List Asm} (hn : (marks c).Nodup) : Links c (assemble c) := by
  have h := assembles c
  generalize assemble c = r at h
  cases h with
  | duplicate hc _ hl =>
    subst hc
    exact absurd hl (not_mem_marks hn)
  | linked _ h => exact h

/-- **What can be assembled, and to what.** -/
theorem assemble_eq_ok_iff {c : List Asm} {code : List Instruction} :
    assemble c = .ok code ↔ (marks c).Nodup ∧ (∀ l ∈ marks c, l ∈ targets c) ∧
      (∀ l ∈ targets c, l ∈ marks c) ∧ code = (instrs c).map (Instr.relabel (place c)) := by
  rw [assemble_iff]
  constructor
  · rintro (_ | ⟨hn, hlinks⟩)
    cases hlinks with
    | resolved hall hused hρ =>
      refine ⟨hn, hused, hall, ?_⟩
      exact Except.ok.inj ((Links.resolved hall hused hρ).unique (links_place hn hall hused))
  · rintro ⟨hn, hused, hall, rfl⟩
    exact .linked hn (links_place hn hall hused)

/-! ## Parts of assembled code -/

section
variable {a b : List Asm} {code : List Instruction}

/-- The instructions of two parts, one behind the other. -/
theorem assemble_append (h : assemble (a ++ b) = .ok code) :
    code = (instrs a).map (Instr.relabel (place (a ++ b))) ++
      (instrs b).map (Instr.relabel (place (a ++ b))) := by
  obtain ⟨-, -, -, rfl⟩ := assemble_eq_ok_iff.1 h
  rw [instrs_append, List.map_append]

/-- A part that jumps inside itself only does not jump back. -/
theorem le_target_of_assemble (h : assemble (a ++ b) = .ok code)
    (ht : ∀ l ∈ targets b, l ∈ marks b) {n : Nat} {i : Instruction} (hn : (instrs a).length ≤ n)
    (hi : code[n]? = some i) : ∀ t ∈ i.target?, (instrs a).length ≤ t := by
  intro t htt
  obtain ⟨hnd, -, -, rfl⟩ := assemble_eq_ok_iff.1 h
  rw [List.getElem?_map, instrs_append, List.getElem?_append_right hn] at hi
  obtain ⟨i', hi', rfl⟩ := Option.map_eq_some_iff.1 hi
  rw [Instr.target?_relabel] at htt
  obtain ⟨l, hl, rfl⟩ := Option.map_eq_some_iff.1 htt
  have hm : l ∈ marks b := ht l (mem_targets.2 ⟨i', List.mem_of_getElem? hi', hl⟩)
  rw [marks_append, List.nodup_append] at hnd
  exact le_place (fun ha => hnd.2.2 l ha l hm rfl) hm

/-- What stores a name is written in the code. -/
theorem mem_of_storeName {f : Label → Nat} {x : String}
    (h : .storeName x ∈ (instrs a).map (Instr.relabel f)) : .op (.storeName x) ∈ a := by
  obtain ⟨i, hi, he⟩ := List.mem_map.1 h
  obtain rfl : i = .storeName x := by cases i <;> cases he; rfl
  obtain ⟨e, he, hie⟩ := List.mem_filterMap.1 hi
  cases e with
  | op j => cases hie; exact he
  | mark l => cases hie

end

end Asm

end Naskah
