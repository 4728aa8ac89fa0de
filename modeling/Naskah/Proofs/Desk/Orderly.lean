/-
  Orderly code: its constants can be written down or are chunks, its names are legal, and a chunk
  is loaded only to bind a function to the name of the chunk (`Linked`).  All code on a desk is
  orderly (`Move.orderly`).
-/
import Naskah.Proofs.Desk.Codes
import Naskah.Proofs.Desk.Effects

namespace Naskah

/-! ## Instructions -/

section
variable {τ σ : Type}

/-- Instructions that load what cannot be written down, or make a function of it. -/
def Instr.binds : Instr τ → Bool
  | loadConst v => !v.isPlain
  | makeFunction _ => true
  | _ => false

/-- Instructions with legal names, with constants that can be written down or are chunks, and with
    at most 255 arguments for a call. -/
def Instr.Proper : Instr τ → Prop
  | loadConst v => v.isPlain = true ∨ ∃ k, v = .chunk k
  | loadName x => x = Builtin.print.name ∨ LegalName x
  | storeName x => LegalName x
  | call n => n ≤ 255
  | _ => True

theorem Instr.binds_relabel (f : τ → σ) (i : Instr τ) : (i.relabel f).binds = i.binds := by
  cases i <;> rfl

theorem Instr.proper_relabel (f : τ → σ) (i : Instr τ) : (i.relabel f).Proper ↔ i.Proper := by
  cases i <;> rfl

theorem Instr.binds_of_computes {i : Instr τ} (h : i.computes = true) : i.binds = false := by
  cases i with
  | loadConst v => exact (congrArg not h : (!v.isPlain) = !true)
  | makeFunction n => cases h
  | _ => rfl

/-- Code in which a chunk is loaded only to bind a function to the name of the chunk. -/
inductive Linked (name? : Nat → Option String) : List (Instr τ) → Prop
  | nil : Linked name? []
  | other {i : Instr τ} {code : List (Instr τ)} (hi : i.binds = false) (h : Linked name? code) :
      Linked name? (i :: code)
  | bind {k : Nat} {name : String} {code : List (Instr τ)} (hn : name? k = some name)
      (h : Linked name? code) :
      Linked name? (.loadConst (.chunk k) :: .makeFunction name :: .storeName name :: code)

namespace Linked

variable {name? name?' : Nat → Option String} {a b code : List (Instr τ)}

theorem of_forall (h : ∀ i ∈ code, i.binds = false) : Linked name? code := by
  induction code with
  | nil => exact .nil
  | cons i code ih =>
    rw [List.forall_mem_cons] at h
    exact .other h.1 (ih h.2)

theorem append (ha : Linked name? a) (hb : Linked name? b) : Linked name? (a ++ b) := by
  induction ha with
  | nil => exact hb
  | other hi _ ih => exact .other hi ih
  | bind hn _ ih => exact .bind hn ih

theorem mono (h : Linked name? code) (hn : ∀ k name, name? k = some name → name?' k = some name) :
    Linked name?' code := by
  induction h with
  | nil => exact .nil
  | other hi _ ih => exact .other hi ih
  | bind hk _ ih => exact .bind (hn _ _ hk) ih

theorem map_relabel (f : τ → σ) (h : Linked name? code) :
    Linked name? (code.map (Instr.relabel f)) := by
  induction h with
  | nil => exact .nil
  | other hi _ ih => exact .other (by rw [Instr.binds_relabel, hi]) ih
  | bind hk _ ih => exact .bind hk ih

/-- What follows the loading of a chunk. -/
theorem of_chunk (h : Linked name? code) {n k : Nat}
    (hc : code[n]? = some (.loadConst (.chunk k))) :
    ∃ name, name? k = some name ∧ code[n + 1]? = some (.makeFunction name) ∧
      code[n + 2]? = some (.storeName name) := by
  induction h generalizing n with
  | nil => simp at hc
  | other hi _ ih =>
    cases n with
    | zero =>
      obtain rfl := Option.some.inj hc
      cases hi
    | succ n => exact ih hc
  | bind hn _ ih =>
    match n, hc with
    | 0, hc =>
      cases hc
      exact ⟨_, hn, rfl, rfl⟩
    | 1, hc => cases hc
    | 2, hc => cases hc
    | n + 3, hc => exact ih hc

/-- What comes before the making of a function. -/
theorem of_makeFunction (h : Linked name? code) {n : Nat} {name : String}
    (hc : code[n]? = some (.makeFunction name)) :
    ∃ m k, n = m + 1 ∧ code[m]? = some (.loadConst (.chunk k)) := by
  induction h generalizing n with
  | nil => simp at hc
  | other hi _ ih =>
    cases n with
    | zero =>
      obtain rfl := Option.some.inj hc
      cases hi
    | succ n =>
      obtain ⟨m, k, rfl, hm⟩ := ih hc
      exact ⟨m + 1, k, rfl, hm⟩
  | @bind k name code hn _ ih =>
    match n, hc with
    | 0, hc => cases hc
    | 1, _ => exact ⟨0, k, rfl, rfl⟩
    | 2, hc => cases hc
    | n + 3, hc =>
      obtain ⟨m, k, rfl, hm⟩ := ih hc
      exact ⟨m + 3, k, rfl, hm⟩

end Linked

end

/-! ## Code -/

/-- The name of a chunk. -/
def chunkName? (chunks : List Chunk) (k : Nat) : Option String :=
  chunks[k]?.map Chunk.name

/-- Code with proper instructions, in which chunks are loaded only to bind functions. -/
def Orderly (chunks : List Chunk) (code : List Asm) : Prop :=
  Linked (chunkName? chunks) (Asm.instrs code) ∧ ∀ i ∈ Asm.instrs code, i.Proper

section
variable {chunks : List Chunk} {a b code : List Asm}

theorem Orderly.append (ha : Orderly chunks a) (hb : Orderly chunks b) :
    Orderly chunks (a ++ b) := by
  unfold Orderly
  rw [Asm.instrs_append]
  exact ⟨ha.1.append hb.1, List.forall_mem_append.2 ⟨ha.2, hb.2⟩⟩

theorem Orderly.mono (h : Orderly chunks code) (chunk : Chunk) :
    Orderly (chunks ++ [chunk]) code := by
  refine ⟨h.1.mono fun k name hk => ?_, h.2⟩
  obtain ⟨ch, hch, rfl⟩ := Option.map_eq_some_iff.1 hk
  rw [chunkName?, List.getElem?_append_left (List.getElem?_eq_some_iff.1 hch).1, hch]
  rfl

theorem Orderly.single {i : Instr Label} (hb : i.binds = false) (hp : i.Proper) :
    Orderly chunks [.op i] :=
  ⟨.other hb .nil, List.forall_mem_singleton.2 hp⟩

theorem Orderly.mark (l : Label) : Orderly chunks [.mark l] :=
  ⟨.nil, by simp⟩

/-- The code of an expression with legal names is orderly. -/
theorem ExpressionCode.orderly (he : ExpressionCode code)
    (hr : Reads (fun x => x = Builtin.print.name ∨ LegalName x) code) : Orderly chunks code := by
  have hi : ∀ i ∈ Asm.instrs code, i.computes = true ∧ .op i ∈ code := by
    intro i hi
    obtain ⟨a, ha, hia⟩ := List.mem_filterMap.1 hi
    obtain ⟨i', rfl, hc⟩ := he.computes a ha
    cases hia
    exact ⟨hc, ha⟩
  refine ⟨.of_forall fun i him => Instr.binds_of_computes (hi i him).1, fun i him => ?_⟩
  obtain ⟨hc, hm⟩ := hi i him
  cases i with
  | loadConst v => exact .inl hc
  | loadName x => exact hr x hm
  | storeName x => cases hc
  | call n => exact (decide_eq_true_iff (p := n ≤ 255)).1 hc
  | _ => trivial

theorem FunctionBlock.bindCode_orderly {k : Nat} {name : String}
    (hk : chunkName? chunks k = some name) (hl : LegalName name) :
    Orderly chunks (bindCode k name) := by
  refine ⟨.bind hk .nil, ?_⟩
  simp only [bindCode, Asm.instrs_op, Asm.instrs_nil, List.forall_mem_cons]
  exact ⟨.inr ⟨k, rfl⟩, trivial, hl, by simp⟩

theorem FunctionBlock.entryCode_orderly (exit : Label) (h : Orderly chunks code) :
    Orderly chunks (entryCode exit code) := by
  have ht : Orderly chunks [.op (.loadName "__name__"), .op (.loadConst (.string "__main__")),
      .op (.compare .eq)] := by
    refine ExpressionCode.orderly (.compare .eq (.name _) (.const rfl)) ?_
    exact reads_loadName.2 ⟨.inr ⟨rfl, rfl⟩, (reads_cons (by simp)).2 ((reads_cons (by simp)).2 .nil)⟩
  have hj : Orderly chunks [.op (.jumpIfFalse exit)] := .single rfl trivial
  exact ((ht.append hj).append h).append (.mark exit)

theorem orderly_additive (chunks : List Chunk) : Additive fun _ code => Orderly chunks code where
  nil _ := ⟨.nil, by simp⟩
  append := Orderly.append
  jump _ _ := .single rfl trivial
  jumpIfFalse _ _ := .single rfl trivial
  mark _ l := .mark l
  content _ h := h
  loop h := h
  chain h := h
  leaveLoop h := h
  leaveChain h := h

end

/-! ## Desks -/

namespace Desk

variable {c : Cursor} {d d' : Desk}

theorem Allows.legal {x : String} (h : d.Allows x) : x = Builtin.print.name ∨ LegalName x :=
  h.imp_right And.left

/-- What a statement on a desk does. -/
theorem Pending.does {line : UInt32} {code : List Asm} {d₁ : Desk} (h : d.Pending) (hd : d.Sound)
    (hs : d.clear.statement line d.run.tokens = .ok (code, d₁)) :
    d.clear.Does d.Allows d.run.tokens code d₁ :=
  statement_does (d := d.clear) (.inl rfl) hd.run (fun _ ht => h.refers (mem_of_mem_used ht)) _ hs

theorem Pending.legal {l : Literal} (h : d.Pending) (hl : .identifier l ∈ d.run.tokens) :
    LegalName l.text :=
  h.tokens d.run (by simp) _ hl

/-- The code of a statement is orderly. -/
theorem Does.orderly {chunks : List Chunk} {code : List Asm} {d₁ : Desk} (h : d.Pending)
    (hd : d.clear.Does d.Allows d.run.tokens code d₁) : Orderly chunks code := by
  have he : ∀ {value : List Asm}, ExpressionCode value → Reads d.Allows value →
      Orderly chunks value := fun he hr => he.orderly (hr.mono fun _ => Allows.legal)
  cases hd with
  | declares ht hv hr _ =>
    exact (he hv hr).append (.single rfl (h.legal (by rw [ht]; simp)))
  | assigns ht hv hr _ =>
    exact (he hv hr).append (.single rfl (h.legal (by rw [ht]; simp)))
  | drops hv hr | returns hv hr => exact (he hv hr).append (.single rfl trivial)
  | leaves => exact .single rfl trivial

end Desk

end Naskah
