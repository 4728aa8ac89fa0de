/-
  The names that expressions read, and what else their code does.  The code of an expression only
  computes (`ExpressionCode.computes`), and the names it loads are names that its tokens refer to
  and the scope knows, or the name of the function that prints (`compile_reads`).
-/
import Naskah.Proofs.Expression.Code

namespace Naskah

/-- Code that loads only names with a property. -/
def Reads (R : String → Prop) (code : List Asm) : Prop :=
  ∀ x, .op (.loadName x) ∈ code → R x

section
variable {R R' : String → Prop} {a b code : List Asm}

theorem Reads.nil : Reads R [] := by simp [Reads]

theorem Reads.mono (h : Reads R code) (hR : ∀ x, R x → R' x) : Reads R' code :=
  fun x hx => hR x (h x hx)

theorem reads_append : Reads R (a ++ b) ↔ Reads R a ∧ Reads R b := by
  constructor
  · intro h
    exact ⟨fun x hx => h x (by simp [hx]), fun x hx => h x (by simp [hx])⟩
  · rintro ⟨ha, hb⟩ x hx
    exact (List.mem_append.1 hx).elim (ha x) (hb x)

theorem reads_loadName {x : String} : Reads R (.op (.loadName x) :: code) ↔ R x ∧ Reads R code := by
  constructor
  · intro h
    exact ⟨h x (by simp), fun y hy => h y (by simp [hy])⟩
  · rintro ⟨hx, hc⟩ y hy
    rcases List.mem_cons.1 hy with he | hy
    · cases he; exact hx
    · exact hc y hy

/-- An entry that loads nothing makes no difference. -/
theorem reads_cons {e : Asm} (he : ∀ x, e ≠ .op (.loadName x)) :
    Reads R (e :: code) ↔ Reads R code := by
  constructor
  · exact fun h x hx => h x (by simp [hx])
  · intro h x hx
    rcases List.mem_cons.1 hx with hx | hx
    · exact absurd hx.symm (he x)
    · exact h x hx

theorem Reads.flatten {groups : List (List Asm)} (h : ∀ g ∈ groups, Reads R g) :
    Reads R groups.flatten := by
  intro x hx
  obtain ⟨g, hg, hx⟩ := List.mem_flatten.1 hx
  exact h g hg x hx

theorem Reads.joinCode {groups : List (List Asm)} (h : ∀ g ∈ groups, Reads R g) :
    Reads R (Expression.joinCode groups) :=
  reads_append.2 ⟨.flatten h, (reads_cons (by simp)).2 .nil⟩

end

/-! ## Computing -/

/-- Instructions that compute a value from others: they store nothing and go nowhere.  Calls take
    at most 255 arguments. -/
def Instr.computes {τ : Type} : Instr τ → Bool
  | loadConst v => v.isPlain
  | call n => n ≤ 255
  | loadName _ | binary _ | compare _ | buildString _ => true
  | storeName _ | jumpIfFalse _ | jump _ | makeFunction _ | ret | pop => false

/-- An instruction that computes. -/
def Asm.Computes (a : Asm) : Prop :=
  ∃ i, a = .op i ∧ i.computes = true

/-- **The code of an expression only computes.** -/
theorem ExpressionCode.computes {code : List Asm} (h : ExpressionCode code) :
    ∀ a ∈ code, a.Computes := by
  induction h with
  | const hv => simp [Asm.Computes, Instr.computes, hv]
  | name n => simp [Asm.Computes, Instr.computes]
  | join _ ih =>
    intro a ha
    rcases List.mem_append.1 ha with ha | ha
    · obtain ⟨g, hg, ha⟩ := List.mem_flatten.1 ha
      exact ih g hg a ha
    · exact ⟨_, List.mem_singleton.1 ha, rfl⟩
  | call f hn _ ih =>
    intro a ha
    rcases List.mem_append.1 ha with ha | ha
    · rcases List.mem_cons.1 ha with rfl | ha
      · exact ⟨_, rfl, rfl⟩
      · obtain ⟨g, hg, ha⟩ := List.mem_flatten.1 ha
        exact ih g hg a ha
    · exact ⟨_, List.mem_singleton.1 ha, decide_eq_true hn⟩
  | binary _ _ _ ihl ihr | compare _ _ _ ihl ihr =>
    intro a ha
    rcases List.mem_append.1 ha with ha | ha
    · exact (List.mem_append.1 ha).elim (ihl a) (ihr a)
    · exact ⟨_, List.mem_singleton.1 ha, rfl⟩

/-! ## Names -/

/-- A scope in which a name can be used or called. -/
def Scope.Knows (scope : Scope) (x : String) : Prop :=
  (scope.names.get? x).isSome = true ∨ scope.functions.isDeclared x = true

/-- The holes of a part of a string read only names with a property. -/
def StringPart.Reads (R : String → Prop) : StringPart → Prop
  | text _ => True
  | hole code => Naskah.Reads R code

/-- A token that refers to names with a property, if the scope knows them. -/
def Token.Refers (scope : Scope) (R : String → Prop) : Token → Prop
  | identifier l => scope.Knows l.text → R l.text
  | string s => ∀ part ∈ s.parts, part.Reads R
  | _ => True

namespace Expression

variable {R : String → Prop} {scope : Scope}

theorem stringCode_reads {s : StringLiteral} (h : ∀ part ∈ s.parts, part.Reads R) :
    Reads R (stringCode s) := by
  unfold stringCode
  split
  · exact (reads_cons (by simp)).2 .nil
  · refine .joinCode fun g hg => ?_
    obtain ⟨part, hp, he⟩ := List.mem_filterMap.1 hg
    cases part with
    | text t =>
      simp only [partCode?] at he
      split at he
      · cases he
      · cases he
        exact (reads_cons (by simp)).2 .nil
    | hole code =>
      cases he
      exact h _ hp

/-- Operands that read only names with a property. -/
def Operand.Reads (R : String → Prop) : Operand → Prop
  | const _ => True
  | string s => ∀ part ∈ s.parts, part.Reads R
  | name n => R n
  | call f args => R f ∧ ∀ g ∈ args, Naskah.Reads R g
  | print args => ∀ g ∈ args, Naskah.Reads R g

theorem Operand.code_reads (hp : R Builtin.print.name) {o : Operand} (h : o.Reads R) :
    Ensures o.code (Naskah.Reads R) := by
  cases o with
  | const v => exact .ok ((reads_cons (by simp)).2 .nil)
  | string s => exact .ok (stringCode_reads h)
  | name n => exact .ok (reads_loadName.2 ⟨h, .nil⟩)
  | call f args =>
    simp only [code]
    split
    · exact .ok (reads_append.2
        ⟨reads_loadName.2 ⟨h.1, .flatten h.2⟩, (reads_cons (by simp)).2 .nil⟩)
    · exact .error _
  | print args =>
    exact .ok (reads_append.2
      ⟨reads_loadName.2 ⟨hp, .joinCode h⟩, (reads_cons (by simp)).2 .nil⟩)

/-- Items whose operands read only names with a property. -/
def Item.Reads (R : String → Prop) : Item → Prop
  | operand o => o.Reads R
  | _ => True

/-- The same for items in the order of evaluation. -/
def Postfix.Reads (R : String → Prop) : Postfix → Prop
  | operand o => o.Reads R
  | operator _ => True

theorem toPostfix_reads : ∀ {items : List Item} {pending : List (Option Operator)},
    (∀ i ∈ items, i.Reads R) → ∀ i ∈ toPostfix pending items, i.Reads R
  | [], pending, _, i, hi => by
    obtain ⟨o, -, ho⟩ := List.mem_filterMap.1 hi
    obtain ⟨o', -, rfl⟩ := Option.map_eq_some_iff.1 ho
    trivial
  | .operand o :: items, pending, h, i, hi => by
    rw [List.forall_mem_cons] at h
    rcases List.mem_cons.1 hi with rfl | hi
    · exact h.1
    · exact toPostfix_reads h.2 i hi
  | .openRound :: items, pending, h, i, hi =>
    toPostfix_reads (List.forall_mem_cons.1 h).2 i hi
  | .closeRound :: items, pending, h, i, hi => by
    rcases List.mem_append.1 hi with hi | hi
    · obtain ⟨o, -, rfl⟩ := List.mem_map.1 hi
      trivial
    · exact toPostfix_reads (List.forall_mem_cons.1 h).2 i hi
  | .operator o :: items, pending, h, i, hi => by
    rcases List.mem_append.1 hi with hi | hi
    · obtain ⟨o, -, rfl⟩ := List.mem_map.1 hi
      trivial
    · exact toPostfix_reads (List.forall_mem_cons.1 h).2 i hi

theorem combine_reads (hp : R Builtin.print.name) {groups : List (List Asm)} {i : Postfix}
    (hg : ∀ g ∈ groups, Reads R g) (hi : i.Reads R) :
    Ensures (combine groups i) fun groups => ∀ g ∈ groups, Reads R g := by
  cases i with
  | operand o =>
    exact (Operand.code_reads hp hi).map fun code hc => List.forall_mem_cons.2 ⟨hc, hg⟩
  | operator o =>
    match groups, hg with
    | [], _ | [_], _ => exact .error _
    | r :: l :: groups, hg =>
      simp only [List.forall_mem_cons] at hg
      refine Ensures.map (P := fun i => ∀ x, i ≠ .op (.loadName x)) ?_ fun i hi => ?_
      · cases o with
        | binary op => exact .ok (by simp)
        | compare c => exact .ok (by simp)
        | negation => exact .error _
      · refine List.forall_mem_cons.2 ⟨?_, hg.2.2⟩
        exact reads_append.2 ⟨reads_append.2 ⟨hg.2.1, hg.1⟩, (reads_cons hi).2 .nil⟩

theorem itemsCode_reads (hp : R Builtin.print.name) {items : List Item}
    (h : ∀ i ∈ items, i.Reads R) : Ensures (itemsCode items) (Reads R) := by
  unfold itemsCode
  have hf : Ensures ((toPostfix [] items).foldlM combine []) fun groups => ∀ g ∈ groups, Reads R g :=
    .foldlM (by simp) fun groups hg i hi => combine_reads hp hg (toPostfix_reads h i hi)
  refine hf.bind fun groups _ hg => ?_
  split
  · exact .ok (hg _ (by simp))
  · exact .error _

theorem simpleOperand_reads {line : UInt32} {t : Token} (h : t.Refers scope R) :
    Ensures (simpleOperand scope line t) (Operand.Reads R) := by
  cases t with
  | identifier l =>
    simp only [simpleOperand, Scope.resolver, Names.reference]
    split
    · next info hi => exact .pure (h (.inl (by rw [hi]; rfl)))
    · exact .error _
  | integer l =>
    simp only [simpleOperand]
    split
    · exact .ok trivial
    · exact .error _
  | float l =>
    simp only [simpleOperand]
    split
    · exact .ok trivial
    · exact .error _
  | boolean l => exact .ok trivial
  | string s => exact .ok h
  | keyword k | operator o | compound c | bracket b | punctuation p => exact .error _

theorem callee_reads {t : Token} {callee : Callee} (hp : R Builtin.print.name)
    (h : t.Refers scope R) (hc : callee? t = some callee) :
    Ensures (callee.check scope) fun _ => ∀ args, (∀ g ∈ args, Reads R g) →
      (callee.operand args).Reads R := by
  cases callee with
  | print => exact .ok fun args ha => ha
  | function l =>
    obtain rfl : t = .identifier l := by
      cases t with
      | identifier l' => cases hc; rfl
      | keyword k => cases k <;> cases hc
      | _ => cases hc
    simp only [Callee.check, Scope.resolver, Functions.check]
    split
    · next hf =>
      refine .ok fun args ha => ⟨?_, ha⟩
      rcases hf with hf | hf
      · rw [hf]; exact hp
      · exact h (.inr hf)
    · exact .error _

/-- The items of a run read only names that its tokens refer to. -/
theorem Itemizes.reads {line : UInt32} {depth : Nat} {read is : List Item} {ts : List Token}
    (hp : R Builtin.print.name) (h : Itemizes scope line depth read ts is)
    (ht : ∀ t ∈ ts, t.Refers scope R) (hr : ∀ i ∈ read, i.Reads R) : ∀ i ∈ is, i.Reads R := by
  induction h with
  | done hc =>
    rw [(of_complete hc).2]
    exact fun i hi => hr i (List.mem_reverse.1 hi)
  | silent _ _ ih => exact ih (List.forall_mem_cons.1 ht).2 hr
  | sign _ _ _ _ ih | opens _ _ ih | closes _ _ ih =>
    exact ih (List.forall_mem_cons.1 ht).2 (List.forall_mem_cons.2 ⟨trivial, hr⟩)
  | @call _ _ _ _ _ inner _ _ args _ hcallee hcheck hsplit hparts hargs _ _ ihparts ih =>
    simp only [List.forall_mem_cons] at ht
    obtain ⟨hi, ha⟩ := mem_of_splitClose hsplit
    have hreads : ∀ g ∈ args, Reads R g := by
      refine Ensures.mapM (fun part hpart code hcode => ?_) args hargs
      rw [compile, (hparts part hpart).items_eq] at hcode
      refine itemsCode_reads hp (ihparts part hpart (fun t h => ?_) nofun) code hcode
      exact ht.2.2 t (hi t (mem_of_mem_splitCommas hpart t h))
    exact ih (fun t h => ht.2.2 t (ha t h))
      (List.forall_mem_cons.2 ⟨callee_reads hp ht.1 hcallee () hcheck args hreads, hr⟩)
  | simple _ _ _ _ _ hsimple _ _ ih =>
    rw [List.forall_mem_cons] at ht
    exact ih ht.2 (List.forall_mem_cons.2 ⟨simpleOperand_reads ht.1 _ hsimple, hr⟩)

/-- **The names that the code of an expression loads.** -/
theorem compile_reads (hp : R Builtin.print.name) (line : UInt32) {tokens : List Token}
    (ht : ∀ t ∈ tokens, t.Refers scope R) : Ensures (compile scope line tokens) (Reads R) :=
  items_itemizes.bind fun _ _ h => itemsCode_reads hp (h.reads hp ht nofun)

end Expression

end Naskah
