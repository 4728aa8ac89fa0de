/-
  Symbolic code and what is in sight where it runs.  A ledger says what is in sight at labels and
  when chunks begin to run.  Code flows from one sight to another (`Flows`) if it needs no more
  than is in sight, and all jumps to a label come from where at least the sight of the label is
  given.
-/
import Naskah.Proofs.Expression.Reads
import Naskah.Proofs.Machine.Sights

namespace Naskah

theorem getElem?_of_extends {α : Type} {xs ys : List α} {n : Nat} {x : α} (h : xs <+: ys)
    (hx : xs[n]? = some x) : ys[n]? = some x := by
  obtain ⟨zs, rfl⟩ := h
  rw [List.getElem?_append_left (List.getElem?_eq_some_iff.1 hx).1, hx]

/-- The sights of labels, and those that chunks begin with, by their numbers. -/
structure Ledger where
  entries : List Sight := []
  labels : List Sight := []

namespace Ledger

variable {L L' : Ledger} {l : Label} {s t u : Sight}

/-- What comes later goes to the end of a ledger. -/
instance : Preorder Ledger where
  le L L' := L.entries <+: L'.entries ∧ L.labels <+: L'.labels
  le_refl L := ⟨List.prefix_rfl, List.prefix_rfl⟩
  le_trans _ _ _ h h' := ⟨h.1.trans h'.1, h.2.trans h'.2⟩

/-- At least the sight of a label is given. -/
def Meets (L : Ledger) (l : Label) (s : Sight) : Prop :=
  ∃ u, L.labels[l.index]? = some u ∧ u ≤ s

theorem Meets.trans (h : L.Meets l s) (hs : s ≤ t) : L.Meets l t := by
  obtain ⟨u, hu, hl⟩ := h
  exact ⟨u, hu, hl.trans hs⟩

theorem Meets.mono (h : L.Meets l s) (hL : L ≤ L') : L'.Meets l s := by
  obtain ⟨u, hu, hl⟩ := h
  exact ⟨u, getElem?_of_extends hL.2 hu, hl⟩

end Ledger

theorem Instr.Allowed.trans {τ : Type} {i : Instr τ} {entries : List Sight} {inModule : Bool}
    {s t : Sight} (h : i.Allowed entries inModule s) (hs : s ≤ t) :
    i.Allowed entries inModule t := by
  cases i with
  | loadName x => exact Or.imp_left (fun h => Sight.Sees.mono h hs) h
  | loadConst v =>
    cases v with
    | chunk k =>
      obtain ⟨e, he, hx⟩ := h
      exact ⟨e, he, fun x hm => (hx x hm).imp_left fun hm => hs.2 hm⟩
    | _ => exact h
  | _ => trivial

theorem Instr.Allowed.mono {τ : Type} {i : Instr τ} {entries entries' : List Sight}
    {inModule : Bool} {s : Sight} (h : i.Allowed entries inModule s) (he : entries <+: entries') :
    i.Allowed entries' inModule s := by
  cases i with
  | loadConst v =>
    cases v with
    | chunk k =>
      obtain ⟨e, hk, hx⟩ := h
      exact ⟨e, getElem?_of_extends he hk, hx⟩
    | _ => exact h
  | _ => exact h

/-- Code that can run where `s` is in sight, and has `t` in sight where it goes on behind its end. -/
def Flows (L : Ledger) (inModule : Bool) : Sight → List Asm → Sight → Prop
  | s, [], t => t ≤ s
  | s, .mark l :: c, t =>
    ∃ u, L.labels[l.index]? = some u ∧ u ≤ s ∧ Flows L inModule u c t
  | s, .op i :: c, t =>
    i.Allowed L.entries inModule s ∧ (∀ l ∈ i.target?, L.Meets l s) ∧
      Flows L inModule (s.after inModule i) c t

namespace Flows

variable {L L' : Ledger} {inModule : Bool} {s s' t t' u : Sight} {a b c : List Asm}

theorem nil : Flows L inModule s [] s :=
  le_refl s

theorem mono (h : Flows L inModule s c t) (hL : L ≤ L') : Flows L' inModule s c t := by
  induction c generalizing s with
  | nil => exact h
  | cons a c ih =>
    cases a with
    | op i =>
      obtain ⟨ha, hj, hc⟩ := h
      exact ⟨ha.mono hL.1, fun l hl => (hj l hl).mono hL, ih hc⟩
    | mark l =>
      obtain ⟨u, hu, hs, hc⟩ := h
      exact ⟨u, getElem?_of_extends hL.2 hu, hs, ih hc⟩

/-- More can be in sight at the beginning. -/
theorem of_le (h : Flows L inModule s c t) (hs : s ≤ s') : Flows L inModule s' c t := by
  induction c generalizing s s' with
  | nil => exact le_trans h hs
  | cons a c ih =>
    cases a with
    | op i =>
      obtain ⟨ha, hj, hc⟩ := h
      exact ⟨ha.trans hs, fun l hl => (hj l hl).trans hs, ih hc (Sight.after_mono hs i)⟩
    | mark l =>
      obtain ⟨u, hu, hl, hc⟩ := h
      exact ⟨u, hu, hl.trans hs, hc⟩

/-- Less can be in sight at the end. -/
theorem to_le (h : Flows L inModule s c t) (ht : t' ≤ t) : Flows L inModule s c t' := by
  induction c generalizing s with
  | nil => exact le_trans ht h
  | cons a c ih =>
    cases a with
    | op i =>
      obtain ⟨ha, hj, hc⟩ := h
      exact ⟨ha, hj, ih hc⟩
    | mark l =>
      obtain ⟨u, hu, hl, hc⟩ := h
      exact ⟨u, hu, hl, ih hc⟩

theorem append (ha : Flows L inModule s a t) (hb : Flows L inModule t b u) :
    Flows L inModule s (a ++ b) u := by
  induction a generalizing s with
  | nil => exact hb.of_le ha
  | cons i a ih =>
    cases i with
    | op i =>
      obtain ⟨hi, hj, hc⟩ := ha
      exact ⟨hi, hj, ih hc⟩
    | mark l =>
      obtain ⟨u, hu, hl, hc⟩ := ha
      exact ⟨u, hu, hl, ih hc⟩

theorem single {i : Instr Label} (hi : i.Allowed L.entries inModule s)
    (hj : ∀ l ∈ i.target?, L.Meets l s) : Flows L inModule s [.op i] (s.after inModule i) :=
  ⟨hi, hj, le_refl _⟩

theorem mark {l : Label} (hl : L.labels[l.index]? = some t) (hs : t ≤ s) :
    Flows L inModule s [.mark l] t :=
  ⟨t, hl, hs, le_refl t⟩

/-- Expressions load only names in sight. -/
theorem expression (he : ExpressionCode c)
    (hr : Reads (fun x => s.Sees x ∨ x = Builtin.print.name) c) : Flows L inModule s c s := by
  have hc := he.computes
  clear he
  induction c with
  | nil => exact le_refl s
  | cons a c ih =>
    rw [List.forall_mem_cons] at hc
    obtain ⟨⟨i, rfl, hi⟩, hc⟩ := hc
    have htail : Flows L inModule s c s := ih (fun x hx => hr x (List.mem_cons_of_mem _ hx)) hc
    cases i with
    | loadName x => exact ⟨hr x List.mem_cons_self, nofun, htail⟩
    | loadConst v =>
      refine ⟨?_, nofun, htail⟩
      cases v with
      | chunk k | function k x => cases hi
      | _ => trivial
    | storeName | jumpIfFalse | jump | makeFunction | ret | pop => cases hi
    | binary | compare | buildString | call => exact ⟨trivial, nofun, htail⟩

end Flows

/-! ## Assembled code -/

/-- What is in sight in front of an instruction. -/
def sightAt (L : Ledger) (inModule : Bool) : Sight → List Asm → Nat → Sight
  | s, [], _ => s
  | s, .mark l :: c, n => sightAt L inModule (L.labels[l.index]?.getD s) c n
  | s, .op _ :: _, 0 => s
  | s, .op i :: c, n + 1 => sightAt L inModule (s.after inModule i) c n

namespace Flows

variable {L : Ledger} {inModule : Bool} {s t u : Sight} {a b c : List Asm}

theorem sightAt_zero (h : Flows L inModule s c t) : sightAt L inModule s c 0 ≤ s := by
  induction c generalizing s with
  | nil => exact le_refl s
  | cons a c ih =>
    cases a with
    | op i => exact le_refl s
    | mark l =>
      obtain ⟨u, hu, hl, hc⟩ := h
      rw [sightAt, hu]
      exact (ih hc).trans hl

/-- At a label there is no more in sight than the ledger says. -/
theorem sightAt_mark {l : Label} (h : Flows L inModule s (a ++ .mark l :: b) t)
    (hl : L.labels[l.index]? = some u) :
    sightAt L inModule s (a ++ .mark l :: b) (Asm.instrs a).length ≤ u := by
  induction a generalizing s with
  | nil =>
    obtain ⟨u', hu, -, hc⟩ := h
    rw [hl] at hu
    cases hu
    show sightAt L inModule (L.labels[l.index]?.getD s) b 0 ≤ u
    rw [hl]
    exact hc.sightAt_zero
  | cons i a ih =>
    cases i with
    | op i => exact ih h.2.2
    | mark l' =>
      obtain ⟨u', hu, -, hc⟩ := h
      rw [List.cons_append, sightAt, hu]
      exact ih hc

/-- An instruction finds what it needs, and passes on what the next one needs. -/
theorem sightAt_instr {n : Nat} {i : Instr Label} (h : Flows L inModule s c t)
    (hi : (Asm.instrs c)[n]? = some i) :
    i.Allowed L.entries inModule (sightAt L inModule s c n) ∧
      (∀ l ∈ i.target?, L.Meets l (sightAt L inModule s c n)) ∧
      sightAt L inModule s c (n + 1) ≤ (sightAt L inModule s c n).after inModule i := by
  induction c generalizing s n with
  | nil => simp at hi
  | cons a c ih =>
    cases a with
    | op j =>
      obtain ⟨ha, hj, hc⟩ := h
      cases n with
      | zero =>
        obtain rfl : j = i := Option.some.inj hi
        exact ⟨ha, hj, hc.sightAt_zero⟩
      | succ n => exact ih hc hi
    | mark l =>
      obtain ⟨u, hu, -, hc⟩ := h
      simp only [sightAt, hu, Option.getD_some]
      exact ih hc hi

/-- The sights of assembled code. -/
theorem assembled {code : List Instruction} (h : Flows L inModule s c t)
    (ha : Asm.assemble c = .ok code) {n : Nat} {i : Instruction} (hi : code[n]? = some i) :
    i.Allowed L.entries inModule (sightAt L inModule s c n) ∧
      sightAt L inModule s c (n + 1) ≤ (sightAt L inModule s c n).after inModule i ∧
      ∀ k ∈ i.target?, sightAt L inModule s c k ≤ sightAt L inModule s c n := by
  obtain ⟨-, -, hm, rfl⟩ := Asm.assemble_eq_ok_iff.1 ha
  rw [List.getElem?_map] at hi
  obtain ⟨j, hj, rfl⟩ := Option.map_eq_some_iff.1 hi
  obtain ⟨hall, hjump, hnext⟩ := h.sightAt_instr hj
  refine ⟨?_, ?_, fun k hk => ?_⟩
  · cases j with
    | loadConst v => cases v <;> exact hall
    | _ => exact hall
  · cases j <;> exact hnext
  · rw [Instr.target?_relabel] at hk
    obtain ⟨l, hl, rfl⟩ := Option.map_eq_some_iff.1 hk
    obtain ⟨u, hu, hle⟩ := hjump l hl
    obtain ⟨a, b, rfl, hla⟩ := Asm.exists_mark
      (hm l (Asm.mem_targets.2 ⟨j, List.mem_of_getElem? hj, hl⟩))
    rw [Asm.place_eq hla]
    exact (h.sightAt_mark hu).trans hle

end Flows

end Naskah
