/-
  Runs through blocks of code.  A block with labels of its own is left at its end only
  (`Closed.leaves`); how many operands there are more then than at its beginning is said by
  `Raises`, and the code of an expression leaves one operand more (`ExpressionCode.raises`).

  Paths through a block, a jump and a test are described by `Through`, `Jumping` and `Testing`,
  which take descriptions of the paths from there on.
-/
import Naskah.Proofs.Block.Pieces
import Naskah.Proofs.Layout
import Naskah.Proofs.Machine.Paths

namespace Naskah

open Asm Machine

/-! ## Descriptions of paths -/

/-- Paths: the machine at the beginning, the offsets that are executed, and the machine at the
    end. -/
abbrev Paths := Machine → List Nat → Machine → Prop

/-- Paths that begin with a run through a block.  The block is left at its end. -/
inductive Through (p : Program) (lo hi : Nat) (next : Paths) : Paths
  | inside {m : Machine} {l : List Nat} {m' : Machine} (h : Within p lo hi m l m') :
      Through p lo hi next m l m'
  | across {m m₁ : Machine} {l₁ l₂ : List Nat} {m' : Machine} (h : Leaves p lo hi m l₁ m₁)
      (hip : m₁.current.ip = hi) (hn : next m₁ l₂ m') : Through p lo hi next m (l₁ ++ l₂) m'

/-- Paths that begin with a jump. -/
inductive Jumping (target : Nat) (next : Paths) : Paths
  | before (m : Machine) : Jumping target next m [] m
  | jump {m : Machine} {l : List Nat} {m' : Machine} (hn : next (m.jumped target) l m') :
      Jumping target next m (m.current.ip :: l) m'

/-- Paths that begin with a test of the topmost operand, which has `height` others below it. -/
inductive Testing (height target : Nat) (yes no : Paths) : Paths
  | before {m : Machine} (h : m.stack.length = height + 1) : Testing height target yes no m [] m
  | truthy {m : Machine} {v : Value} {rest : List Value} {l : List Nat} {m' : Machine}
      (hs : m.stack = v :: rest) (hr : rest.length = height) (hv : v.isTruthy = true)
      (hn : yes { m.fetched with stack := rest } l m') :
      Testing height target yes no m (m.current.ip :: l) m'
  | falsy {m : Machine} {v : Value} {rest : List Value} {l : List Nat} {m' : Machine}
      (hs : m.stack = v :: rest) (hr : rest.length = height) (hv : v.isTruthy = false)
      (hn : no { m.jumped target with stack := rest } l m') :
      Testing height target yes no m (m.current.ip :: l) m'

section
variable {p : Program} {m m' : Machine} {l : List Nat} {lo hi t height : Nat}
  {whole : List Instruction}

theorem Through.imp {next next' : Paths} (hs : Through p lo hi next m l m')
    (h : ∀ l₁ m₁ l₂, Leaves p lo hi m l₁ m₁ → m₁.current.ip = hi → l = l₁ ++ l₂ →
      next m₁ l₂ m' → next' m₁ l₂ m') : Through p lo hi next' m l m' := by
  rcases hs with hw | ⟨hl, hip, hn⟩
  · exact .inside hw
  · exact .across hl hip (h _ _ _ hl hip rfl hn)

theorem Through.congr {next next' : Paths}
    (h : ∀ l₁ m₁, Leaves p lo hi m l₁ m₁ → m₁.current.ip = hi →
      ∀ l₂ m', next m₁ l₂ m' ↔ next' m₁ l₂ m') :
    Through p lo hi next m l m' ↔ Through p lo hi next' m l m' :=
  ⟨fun hs => hs.imp fun l₁ m₁ l₂ hl hip _ => (h l₁ m₁ hl hip l₂ m').1,
    fun hs => hs.imp fun l₁ m₁ l₂ hl hip _ => (h l₁ m₁ hl hip l₂ m').2⟩

theorem Jumping.imp {next next' : Paths} (hs : Jumping t next m l m')
    (h : ∀ l₁, l = m.current.ip :: l₁ → next (m.jumped t) l₁ m' → next' (m.jumped t) l₁ m') :
    Jumping t next' m l m' := by
  rcases hs with _ | hn
  · exact .before m
  · exact .jump (h _ rfl hn)

theorem Testing.imp {yes yes' no no' : Paths} (ht : Testing height t yes no m l m')
    (hyes : ∀ v rest l₁, m.stack = v :: rest → rest.length = height → l = m.current.ip :: l₁ →
      yes { m.fetched with stack := rest } l₁ m' → yes' { m.fetched with stack := rest } l₁ m')
    (hno : ∀ v rest l₁, m.stack = v :: rest → rest.length = height → l = m.current.ip :: l₁ →
      no { m.jumped t with stack := rest } l₁ m' → no' { m.jumped t with stack := rest } l₁ m') :
    Testing height t yes' no' m l m' := by
  rcases ht with hh | ⟨hs, hr, hv, hn⟩ | ⟨hs, hr, hv, hn⟩
  · exact .before hh
  · exact .truthy hs hr hv (hyes _ _ _ hs hr rfl hn)
  · exact .falsy hs hr hv (hno _ _ _ hs hr rfl hn)

theorem Testing.congr {yes yes' no no' : Paths}
    (hyes : ∀ v rest, m.stack = v :: rest → rest.length = height →
      ∀ l m', yes { m.fetched with stack := rest } l m' ↔
        yes' { m.fetched with stack := rest } l m')
    (hno : ∀ v rest, m.stack = v :: rest → rest.length = height →
      ∀ l m', no { m.jumped t with stack := rest } l m' ↔
        no' { m.jumped t with stack := rest } l m') :
    Testing height t yes no m l m' ↔ Testing height t yes' no' m l m' :=
  ⟨fun ht => ht.imp (fun v rest _ hs hr _ => (hyes v rest hs hr _ _).1)
      fun v rest _ hs hr _ => (hno v rest hs hr _ _).1,
    fun ht => ht.imp (fun v rest _ hs hr _ => (hyes v rest hs hr _ _).2)
      fun v rest _ hs hr _ => (hno v rest hs hr _ _).2⟩

end

/-! ## Blocks -/

/-- Code whose labels are its own, but for some outer ones: those that it marks are jumped to, and
    no others are. -/
structure Asm.Closed (outer : List Label) (a : List Asm) : Prop where
  used : ∀ l ∈ marks a, l ∈ targets a
  placed : ∀ l ∈ targets a, l ∈ marks a ∨ l ∈ outer

namespace Asm.Closed

variable {outer outer' : List Label} {a b : List Asm}

theorem append (ha : Closed outer a) (hb : Closed outer b) : Closed outer (a ++ b) where
  used := by
    intro l hl
    rw [marks_append, List.mem_append] at hl
    rw [targets_append, List.mem_append]
    exact hl.imp (ha.used l) (hb.used l)
  placed := by
    intro l hl
    rw [targets_append, List.mem_append] at hl
    rw [marks_append, List.mem_append]
    rcases hl with hl | hl
    · exact (ha.placed l hl).imp_left .inl
    · exact (hb.placed l hl).imp_left .inr

theorem mono (h : Closed outer a) (hs : outer ⊆ outer') : Closed outer' a :=
  ⟨h.used, fun l hl => (h.placed l hl).imp_right (@hs l)⟩

theorem op {i : Instr Label} (h : ∀ e ∈ i.target?, e ∈ outer) : Closed outer [.op i] := by
  refine ⟨by simp, fun l hl => .inr ?_⟩
  obtain ⟨j, hj, htarget⟩ := mem_targets.1 hl
  obtain rfl : j = i := by simpa using hj
  exact h l htarget

/-- A label that the code jumps to becomes its own if the code marks it. -/
theorem mark {e : Label} (h : Closed (e :: outer) a) (he : e ∈ targets a)
    (ht : targets b = targets a) (hm : ∀ l, l ∈ marks b ↔ l ∈ marks a ∨ l = e) :
    Closed outer b where
  used := by
    intro l hl
    rw [ht]
    rcases (hm l).1 hl with hl | rfl
    · exact h.used l hl
    · exact he
  placed := by
    intro l hl
    rw [ht] at hl
    rw [hm]
    have := h.placed l hl
    rw [List.mem_cons] at this
    tauto

theorem mark_first {e : Label} (h : Closed (e :: outer) a) (he : e ∈ targets a) :
    Closed outer (.mark e :: a) :=
  h.mark he rfl fun l => by simp [or_comm]

theorem mark_last {e : Label} (h : Closed (e :: outer) a) (he : e ∈ targets a) :
    Closed outer (a ++ [.mark e]) :=
  h.mark he (by simp) fun l => by simp

theorem assemble (h : Closed [] a) (hn : (marks a).Nodup) : ∃ code, Asm.assemble a = .ok code :=
  ⟨_, assemble_eq_ok_iff.2 ⟨hn, h.used,
    fun l hl => (h.placed l hl).resolve_right List.not_mem_nil, rfl⟩⟩

end Asm.Closed

/-- Code that, whenever it runs from its beginning to its end, has `n` operands more then. -/
def Raises (p : Program) (a : List Asm) (n : Int) : Prop :=
  ∀ ⦃ρ : Label → Nat⦄ ⦃whole : List Instruction⦄ ⦃pos : Nat⦄ ⦃m m' : Machine⦄ ⦃l : List Nat⦄,
    Located ρ whole pos a → m.current.code p = .ok whole → m.current.ip = pos →
      Leaves p pos (pos + size a) m l m' → m'.current.ip = pos + size a →
        (m'.stack.length : Int) = m.stack.length + n

section
variable {p : Program} {m m' : Machine} {l : List Nat} {ρ : Label → Nat} {pos : Nat}
  {whole : List Instruction} {a b : List Asm}

/-- A stride inside of a block goes to one of its offsets, to its end or to a label. -/
theorem Located.stride (hs : Located ρ whole pos a) (hc : m.current.code p = .ok whole)
    (hm : Inner pos (pos + size a) m.current.ip) (h : Stride p m m') :
    (pos ≤ m'.current.ip ∧ m'.current.ip ≤ pos + size a) ∨
      ∃ e ∈ targets a, m'.current.ip = ρ e := by
  obtain ⟨i, ⟨code, hc', hi⟩, hip⟩ := h.ip
  rw [hc] at hc'
  cases hc'
  obtain ⟨hlo, hhi⟩ := hm
  rcases hip with hip | ht
  · exact .inl ⟨by omega, by omega⟩
  · obtain ⟨j, hj, he⟩ := hs.getElem? hlo hhi
    rw [hi] at he
    cases he
    rw [Instr.target?_relabel] at ht
    obtain ⟨e, he, hρ⟩ := Option.map_eq_some_iff.1 ht
    exact .inr ⟨e, mem_targets.2 ⟨j, hj, he⟩, hρ.symm⟩

/-- **A block with labels of its own is left at its end.** -/
theorem Located.leaves_closed (hs : Located ρ whole pos a) (ht : ∀ e ∈ targets a, e ∈ marks a)
    (hc : m.current.code p = .ok whole) (hlo : pos ≤ m.current.ip)
    (hhi : m.current.ip ≤ pos + size a) (h : Leaves p pos (pos + size a) m l m') :
    m'.current.ip = pos + size a := by
  obtain ⟨hpath, hoffsets, hip⟩ := h
  induction hpath with
  | nil m =>
    have : ¬ m.current.ip < pos + size a := fun hlt => hip ⟨hlo, hlt⟩
    omega
  | @cons m m₁ m' l hstride hpath ih =>
    rw [List.forall_mem_cons] at hoffsets
    have hc₁ : m₁.current.code p = .ok whole := by rw [code_of_chunk hstride.chunk, hc]
    rcases hs.stride hc hoffsets.1 hstride with ⟨h₁, h₂⟩ | ⟨e, he, hρ⟩
    · exact ih hc₁ h₁ h₂ hoffsets.2 hip
    · obtain ⟨h₁, h₂⟩ := hs.place_mem (ht e he)
      exact ih hc₁ (hρ ▸ h₁) (hρ ▸ h₂) hoffsets.2 hip

theorem Asm.Closed.leaves (h : Closed [] a) (hs : Located ρ whole pos a)
    (hc : m.current.code p = .ok whole) (hip : m.current.ip = pos)
    (hl : Leaves p pos (pos + size a) m l m') : m'.current.ip = pos + size a :=
  hs.leaves_closed (fun e he => (h.placed e he).resolve_right List.not_mem_nil) hc
    (Nat.le_of_eq hip.symm) (by omega) hl

end

/-! ## Operands of straight code -/

section
variable {p : Program} {a b : List Asm} {x y : Int}

theorem Raises.nil : Raises p [] 0 := by
  intro ρ whole pos m m' l hs hc hip hl hend
  obtain ⟨-, rfl⟩ := hl.eq_nil (fun h => absurd h.2 (by rw [hip]; simp))
  simp

/-- One instruction that does not jump; what it calls is verified. -/
theorem Raises.op {i : Instr Label} (ht : i.target? = none)
    (hcall : (∀ k, i ≠ .call k) ∨ p.Verified) :
    Raises p [.op i] (i.results - i.operands) := by
  intro ρ whole pos m m' l hs hc hip hl hend
  subst hip
  obtain ⟨hi, -⟩ := Located.op_iff.1 hs
  obtain ⟨m₁, l', rfl, hstride, hl⟩ := hl.uncons ⟨Nat.le_refl _, by simp⟩
  have hnext : m.Next p (i.relabel ρ) := ⟨whole, hc, hi⟩
  have hip : m₁.current.ip = m.current.ip + 1 := by
    obtain ⟨i', hi', hip⟩ := hstride.ip
    obtain rfl := hi'.unique hnext
    rw [Instr.target?_relabel, ht] at hip
    exact hip.resolve_right nofun
  obtain ⟨-, rfl⟩ := hl.eq_nil (fun h => absurd h.2 (by simp [hip]))
  have hcall' : (∀ k, i.relabel ρ ≠ .call k) ∨ p.Verified := by
    refine hcall.imp_left fun h k => ?_
    cases i with
    | call n => exact absurd rfl (h n)
    | _ => exact nofun
  have hh := hstride.height hnext hcall'
  have hresults : (i.relabel ρ).results = i.results := by cases i <;> rfl
  have hoperands : (i.relabel ρ).operands = i.operands := by cases i <;> rfl
  omega

/-- Two blocks one after the other. -/
theorem Raises.append (ha : Raises p a x) (hb : Raises p b y)
    (hta : ∀ e ∈ targets a, e ∈ marks a) (htb : ∀ e ∈ targets b, e ∈ marks b) :
    Raises p (a ++ b) (x + y) := by
  intro ρ whole pos m m' l hs hc hip hl hend
  obtain ⟨hsa, hsb⟩ := Located.append_iff.1 hs
  rw [size_append] at hl hend
  obtain ⟨l₁, m₁, l₂, rfl, h₁, hrest⟩ := hl.split pos (pos + size a) (Nat.le_refl _)
    (by omega)
  have hip₁ := hsa.leaves_closed hta hc (by omega) (by omega) h₁
  have hc₁ : m₁.current.code p = .ok whole := by rw [h₁.path.code, hc]
  obtain ⟨l₃, m₂, l₄, rfl, h₂, hrest⟩ := hrest.split (pos + size a)
    (pos + size a + size b) (by omega) (by omega)
  have hip₂ := hsb.leaves_closed htb hc₁ (by omega) (by omega) h₂
  obtain ⟨-, rfl⟩ := hrest.eq_nil (fun h => absurd h.2 (by omega))
  have hha := ha hsa hc hip h₁ hip₁
  have hhb := hb hsb hc₁ hip₁ h₂ hip₂
  omega

theorem Raises.of_eq (h : Raises p a x) (he : x = y) : Raises p a y :=
  he ▸ h

/-- Two blocks without jumps. -/
theorem Raises.straight (ha : Raises p a x) (hb : Raises p b y) (hta : targets a = [])
    (htb : targets b = []) : Raises p (a ++ b) (x + y) :=
  ha.append hb (by simp [hta]) (by simp [htb])

/-- How many operands there are more after instructions than before. -/
def Instr.gain : List (Instr Label) → Int
  | [] => 0
  | i :: is => i.results - i.operands + gain is

/-- Instructions that neither jump nor call. -/
theorem Raises.ops (is : List (Instr Label)) (ht : targets (is.map .op) = [])
    (hcall : ∀ i ∈ is, ∀ k, i ≠ .call k) :
    Raises p (is.map .op) (Instr.gain is) := by
  induction is with
  | nil => exact .nil
  | cons i is ih =>
    rw [List.forall_mem_cons] at hcall
    rw [List.map_cons, targets_op, List.append_eq_nil_iff, Option.toList_eq_nil_iff] at ht
    exact (Raises.op ht.1 (.inl hcall.1)).straight (ih ht.2 hcall.2) (by simp [ht.1]) ht.2

theorem Raises.flatten {groups : List (List Asm)} (h : ∀ g ∈ groups, Raises p g 1)
    (ht : ∀ g ∈ groups, targets g = []) : Raises p groups.flatten groups.length := by
  induction groups with
  | nil => exact .nil
  | cons g groups ih =>
    rw [List.forall_mem_cons] at h ht
    have hrest := Raises.straight h.1 (ih h.2 ht.2) ht.1 (targets_flatten_eq_nil ht.2)
    exact hrest.of_eq (by simp; omega)

end

end Naskah
