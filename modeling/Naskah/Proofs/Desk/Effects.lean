/-
  What statements do.  A statement declares a name, assigns to one, drops or returns a value, or
  leaves the loop around it (`statement_does`).  All of its code but the last instruction is that
  of an expression.
-/
import Naskah.Proofs.Desk.Statements
import Naskah.Proofs.Expression.Reads

namespace Naskah.Desk

/-- What a statement adds to the code, and the desk with the name it declares.  Its expressions
    load only names with the property `R`. -/
inductive Does (R : String → Prop) (d : Desk) (tokens : List Token) : List Asm → Desk → Prop
  | declares {kind : NameKind} {l : Literal} {rest : List Token} {type : TypeName}
      {value : List Asm} {names : Names}
      (ht : tokens = .keyword (declarator kind) :: .identifier l :: rest)
      (he : ExpressionCode value) (hr : Reads R value)
      (hn : d.names.declare l.text ⟨kind, type, l.line⟩ = .ok names) :
      Does R d tokens (value ++ [.op (.storeName l.text)]) (d.setNames names)
  | assigns {l : Literal} {rest : List Token} {value : List Asm}
      (ht : tokens = .identifier l :: rest) (he : ExpressionCode value) (hr : Reads R value)
      (ha : d.names.assignable l.text l.line = .ok ()) :
      Does R d tokens (value ++ [.op (.storeName l.text)]) d
  | drops {value : List Asm} (he : ExpressionCode value) (hr : Reads R value) :
      Does R d tokens (value ++ [.op .pop]) d
  | returns {value : List Asm} (he : ExpressionCode value) (hr : Reads R value) :
      Does R d tokens (value ++ [.op .ret]) d
  | leaves {l : Label} (hl : l ∈ exits d.blocks) : Does R d tokens [.op (.jump l)] d

/-- The tokens of a statement without the name that it binds, by declaring it or by assigning to
    it. -/
def used : List Token → List Token
  | .keyword .var :: .identifier _ :: rest => rest
  | .keyword .const :: .identifier _ :: rest => rest
  | .identifier _ :: .punctuation .assign :: rest => rest
  | tokens => tokens

theorem mem_of_mem_used {t : Token} {tokens : List Token} (h : t ∈ used tokens) : t ∈ tokens := by
  unfold used at h
  split at h <;> simp [h]

variable {R : String → Prop} {d : Desk} {line : UInt32} {tokens : List Token}

theorem expression_ensures (hp : R Builtin.print.name) (hs : ∀ t ∈ tokens, t.Sound)
    (ht : ∀ t ∈ tokens, t.Refers ⟨d.names, d.functions⟩ R) :
    Ensures (d.expression line tokens) fun code => ExpressionCode code ∧ Reads R code := by
  intro code hc
  exact ⟨(Expression.compile_yields _ line hs).of_ok hc, Expression.compile_reads hp line ht code hc⟩

theorem reads_const {R : String → Prop} (v : Value) : Reads R [.op (.loadConst v)] :=
  (reads_cons (by simp)).2 .nil

theorem initialValue_ensures {kind : NameKind} {name : String} (hp : R Builtin.print.name)
    (hs : ∀ t ∈ tokens, t.Sound) (ht : ∀ t ∈ tokens, t.Refers ⟨d.names, d.functions⟩ R) :
    Ensures (d.initialValue kind name line tokens) fun code =>
      ExpressionCode code ∧ Reads R code := by
  unfold initialValue
  split
  · split
    · exact .error _
    · exact .ok ⟨.const rfl, reads_const _⟩
  · exact expression_ensures hp (List.forall_mem_cons.1 hs).2 (List.forall_mem_cons.1 ht).2
  · exact .error _

theorem typeOf_ensures : Ensures (typeOf line tokens) fun r => ∀ t ∈ r.2, t ∈ tokens := by
  unfold typeOf
  split
  · exact .ok fun t ht => by simp [ht]
  · exact .error _
  · exact .ok fun t ht => ht

theorem declaration_does (kind : NameKind) (hp : R Builtin.print.name)
    (hs : ∀ t ∈ tokens, t.Sound)
    (ht : ∀ l rest, tokens = .identifier l :: rest →
      ∀ t ∈ rest, t.Refers ⟨d.names, d.functions⟩ R) :
    Ensures (d.declaration kind line tokens) fun r =>
      d.Does R (.keyword (declarator kind) :: tokens) r.1 r.2 := by
  unfold declaration
  split
  · exact .error _
  · next l rest =>
    rw [List.forall_mem_cons] at hs
    refine typeOf_ensures.bind fun r _ hr => ?_
    refine (initialValue_ensures hp (fun t hm => hs.2 t (hr t hm))
      fun t hm => ht l rest rfl t (hr t hm)).bind fun value _ hv => ?_
    refine Ensures.after fun names hn => ?_
    exact .pure (.declares rfl hv.1 hv.2 hn)
  · exact .error _

theorem compoundOperand_ensures {c : Compound} (hp : R Builtin.print.name)
    (hs : ∀ t ∈ tokens, t.Sound) (ht : ∀ t ∈ tokens, t.Refers ⟨d.names, d.functions⟩ R) :
    Ensures (d.compoundOperand c line tokens) fun code => ExpressionCode code ∧ Reads R code := by
  unfold compoundOperand
  split
  · split
    · exact .ok ⟨.const rfl, reads_const _⟩
    · exact .error _
  · exact expression_ensures hp hs ht

theorem loopJump_ensures {k : Keyword} {jump : LoopBlock → Asm}
    (hj : ∀ b, loop? d.blocks = some b → ∃ l ∈ exits d.blocks, jump b = .op (.jump l))
    {rest : List Token} :
    Ensures (d.loopJump k jump line rest) fun code =>
      ∃ l ∈ exits d.blocks, code = [.op (.jump l)] := by
  unfold loopJump
  split
  · exact .error _
  · split
    · next b hb =>
      obtain ⟨l, hl, he⟩ := hj b hb
      exact .ok ⟨l, hl, by rw [he]⟩
    · exact .error _

/-- A name that can be assigned to is declared, and is no constant. -/
theorem assignable_ensures {t : Names} {name : String} :
    Ensures (t.assignable name line) fun _ =>
      ∃ info, t.get? name = some info ∧ info.kind ≠ .const := by
  unfold Names.assignable Names.reference
  split
  · next info hi =>
    refine Ensures.bind (P := fun i => i = info) (.ok rfl) fun i _ hie => ?_
    subst hie
    split
    · exact .error _
    · next hk => exact .ok ⟨i, hi, hk⟩
  · exact .error _

theorem plainStatement_does (hp : R Builtin.print.name) (hs : ∀ t ∈ tokens, t.Sound)
    (hv : tokens.head? ≠ some (.keyword .var)) (hc : tokens.head? ≠ some (.keyword .const))
    (ht : ∀ t ∈ used tokens, t.Refers ⟨d.names, d.functions⟩ R) :
    Ensures (d.plainStatement line tokens) fun code => d.Does R tokens code d := by
  unfold plainStatement
  split
  · next rest =>
    have ht : ∀ t ∈ .keyword .result :: rest, t.Refers ⟨d.names, d.functions⟩ R := ht
    rw [List.forall_mem_cons] at hs ht
    split
    · exact .error _
    · simp only
      split
      · exact .pure (.returns (.const rfl) (reads_const _))
      · exact (expression_ensures hp hs.2 ht.2).bind fun e _ he => .pure (.returns he.1 he.2)
  · refine (loopJump_ensures fun b hb => ⟨b.stop, (mem_exits hb).2, rfl⟩).mono ?_
    rintro _ ⟨l, hl, rfl⟩
    exact .leaves hl
  · refine (loopJump_ensures fun b hb => ⟨b.start, (mem_exits hb).1, rfl⟩).mono ?_
    rintro _ ⟨l, hl, rfl⟩
    exact .leaves hl
  · exact .error _
  · exact .error _
  · exact .error _
  · exact .error _
  · exact .error _
  · next l rest =>
    simp only [List.forall_mem_cons] at hs
    refine Ensures.after fun _ ha => ?_
    exact (expression_ensures hp hs.2.2 ht).bind fun e _ he =>
      .pure (.assigns rfl he.1 he.2 ha)
  · next l c rest =>
    have ht : ∀ t ∈ .identifier l :: .compound c :: rest,
        t.Refers ⟨d.names, d.functions⟩ R := ht
    simp only [List.forall_mem_cons] at hs ht
    refine assignable_ensures.bind fun _ ha hi => ?_
    refine (compoundOperand_ensures hp hs.2.2 ht.2.2).bind fun e _ he => ?_
    obtain ⟨info, hi, -⟩ := hi
    have hx : R l.text := ht.1 (.inl (by rw [hi]; rfl))
    have hc : ExpressionCode ([.op (.loadName l.text)] ++ e ++ [.op (.binary c.operation)]) :=
      .binary _ (.name _) he.1
    have hr : Reads R ([.op (.loadName l.text)] ++ e ++ [.op (.binary c.operation)]) :=
      reads_append.2 ⟨reads_loadName.2 ⟨hx, he.2⟩, (reads_cons (by simp)).2 .nil⟩
    have hd : d.Does R (.identifier l :: .compound c :: rest) _ d := .assigns rfl hc hr ha
    rw [List.append_assoc] at hd
    exact .pure hd
  · next hna _ =>
    have hu : used tokens = tokens := by
      unfold used
      split
      · exact absurd rfl hv
      · exact absurd rfl hc
      · exact absurd rfl (hna _ _)
      · rfl
    rw [hu] at ht
    exact (expression_ensures hp hs ht).bind fun e _ he => .pure (.drops he.1 he.2)

/-- **What a statement does.** -/
theorem statement_does (hp : R Builtin.print.name) (hs : ∀ t ∈ tokens, t.Sound)
    (ht : ∀ t ∈ used tokens, t.Refers ⟨d.names, d.functions⟩ R) :
    Ensures (d.statement line tokens) fun r => d.Does R tokens r.1 r.2 := by
  unfold statement
  split
  · refine declaration_does .var hp (List.forall_mem_cons.1 hs).2 ?_
    rintro l rest rfl
    exact ht
  · refine declaration_does .const hp (List.forall_mem_cons.1 hs).2 ?_
    rintro l rest rfl
    exact ht
  · next hv hc =>
    refine (plainStatement_does hp hs ?_ ?_ ht).bind fun code _ hc => .pure hc
    · intro h
      obtain ⟨rest, rfl⟩ := List.head?_eq_some_iff.1 h
      exact hv rest rfl
    · intro h
      obtain ⟨rest, rfl⟩ := List.head?_eq_some_iff.1 h
      exact hc rest rfl

end Naskah.Desk
