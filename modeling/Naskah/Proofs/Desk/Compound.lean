/-
  Compound assignments.  `x op= e` has the code of `x = x op (e)`, and a step that of an assignment
  with one (`Desk.statement_compound`).

  The one is put together around the code of `e`; the other is compiled as one expression.  They
  agree since a run that compiles is read inside of a larger one as it is read alone
  (`Expression.Itemizes.embeds`), and compiles between brackets to the same code
  (`Expression.compile_apply_group`).
-/
import Naskah.Compile.Statement
import Naskah.Proofs.Expression.Silent

namespace Naskah

namespace Expression

open Term (OpensNothing)

section
variable {r : Resolver} {line : UInt32} {depth : Nat} {read : List Item} {ts : List Token}

/-! ## Runs inside of larger ones -/

/-- The bracket that closes is found in front of what follows. -/
theorem splitClose_append {inner after : List Token}
    (h : splitClose depth ts = some (inner, after)) (rest : List Token) :
    splitClose depth (ts ++ rest) = some (inner, after ++ rest) := by
  induction ts generalizing depth inner with
  | nil => cases h
  | cons t ts ih =>
    by_cases hc : t = .bracket .closeRound ∧ depth = 0
    · rw [splitClose, if_pos hc] at h
      cases h
      rw [List.cons_append, splitClose, if_pos hc]
    · rw [splitClose_cons hc] at h
      obtain ⟨⟨i, a⟩, hp, he⟩ := Option.map_eq_some_iff.1 h
      cases he
      rw [List.cons_append, splitClose_cons hc, ih hp]
      rfl

theorem isComplete_append {outer : List Item} (h : isComplete outer = false) (read : List Item) :
    isComplete (read ++ outer) = isComplete read := by
  cases read with
  | nil => exact h
  | cons i read => cases i <;> rfl

/-- What does not open a bracket, behind what does not. -/
theorem head?_append_of_opensNothing {rest : List Token} (h : OpensNothing rest)
    (hts : ts.head? ≠ some (.bracket .openRound)) :
    (ts ++ rest).head? ≠ some (.bracket .openRound) := by
  cases ts with
  | nil => exact h
  | cons t ts => exact hts

/-- A run that is read to its end, inside of `k` brackets and behind other items: the same items
    are read, and then what follows. -/
def Embeds (r : Resolver) (line : UInt32) (depth : Nat) (read : List Item) (ts : List Token)
    (is : List Item) : Prop :=
  ∀ (k : Nat) (outer : List Item) (rest : List Token), isComplete outer = false →
    OpensNothing rest → items r line (depth + k) (read ++ outer) (ts ++ rest) =
      items r line k (is.reverse ++ outer) rest

/-- **What is read alone is read the same inside of a larger run.** -/
theorem Itemizes.embeds {is : List Item} (h : Itemizes r line depth read ts is) :
    Embeds r line depth read ts is := by
  induction h with
  | done hc =>
    obtain ⟨rfl, rfl⟩ := of_complete hc
    intro k outer rest _ _
    rw [Nat.zero_add, List.nil_append, List.reverse_reverse]
  | silent hs _ ih =>
    intro k outer rest ho hr
    rw [List.cons_append, items_silent _ _ _ _ _ hs]
    exact ih k outer rest ho hr
  | sign hop hn hc _ ih =>
    intro k outer rest ho hr
    rw [List.cons_append, items_operator _ _ _ _ _ hop, isComplete_append ho,
      if_neg (by simp [hn, hc])]
    exact ih k outer rest ho hr
  | opens hc _ ih =>
    intro k outer rest ho hr
    rw [List.cons_append, items_open, isComplete_append ho, if_neg (by simp [hc]),
      Nat.add_right_comm]
    exact ih k outer rest ho hr
  | @closes depth _ _ _ hc _ ih =>
    intro k outer rest ho hr
    have hdepth : depth + 1 + k - 1 = depth + k := by omega
    rw [List.cons_append, items_close, if_neg (by omega), isComplete_append ho,
      if_neg (by simp [hc]), hdepth]
    exact ih k outer rest ho hr
  | @call _ _ _ _ _ inner _ _ _ _ hcallee hcheck hsplit _ hargs hc _ _ ih =>
    intro k outer rest ho hr
    rw [List.cons_append, List.cons_append, items_call _ _ _ _ _ hcallee, hcheck,
      splitClose_append hsplit]
    show (compileArguments r line inner >>= _) = _
    rw [hargs, isComplete_append ho]
    exact (if_neg (by simp [hc])).trans (ih k outer rest ho hr)
  | simple hs hop hopen hclose hcall hsimple hc _ ih =>
    intro k outer rest ho hr
    rw [List.cons_append, items_simple _ _ _ _ _ hs hop hopen hclose
      (hcall.imp_right (head?_append_of_opensNothing hr)), hsimple, isComplete_append ho]
    exact (if_neg (by simp [hc])).trans (ih k outer rest ho hr)

/-! ## Between brackets -/

/-- What compiles is read as the items of its tree. -/
theorem exists_items {code : List Asm} (h : compile r line ts = .ok code) :
    ∃ t : Term, t.Proper r ∧ t.code = code ∧ items r line 0 [] ts = .ok t.items := by
  obtain ⟨t, ht, htokens⟩ := exists_tree h
  refine ⟨t, ht, code_of_tree h ht htokens, ?_⟩
  cases his : items r line 0 [] ts with
  | error e => rw [compile, his] at h; cases h
  | ok is =>
    have hvis := (items_iff.1 his).visible
    have htree : items r line 0 [] (t.tokens ++ []) = items r line 0 (t.items.reverse ++ []) [] :=
      ht.items_tokens line 0 rfl (by simp [OpensNothing])
    rw [List.append_nil, htokens, hvis, items_nil,
      complete_of_isComplete (t.isComplete_items []), List.append_nil, List.reverse_reverse] at htree
    exact htree

/-- **A run that compiles is an operand between brackets**, with the same code. -/
theorem compile_apply_group {lhs : Term} {s : Token} {code : List Asm} (hl : lhs.Proper r)
    (hb : lhs.Binds (sign s).precedence) (hs : sign s ≠ .negation)
    (h : compile r line ts = .ok code) :
    compile r line (lhs.tokens ++ s :: bracketed ts) = .ok (lhs.code ++ code ++ signCode s) := by
  obtain ⟨t, ht, rfl, hitems⟩ := exists_items h
  have hopens : OpensNothing (s :: bracketed ts) := by
    intro he
    rw [show s = .bracket .openRound from Option.some.inj he] at hs
    exact hs rfl
  have hproper : (Term.apply s lhs (.group t)).Proper r :=
    ⟨.apply hs hl.fits (.group ht.fits), .apply hl.ordered (.group ht.ordered) hb trivial⟩
  have hcomplete : isComplete (lhs.items.reverse ++ []) = true := lhs.isComplete_items []
  -- the left operand, the operator and the bracket are read, then the run, then its end
  have hread : items r line 0 [] (lhs.tokens ++ s :: bracketed ts) =
      .ok (Term.apply s lhs (.group t)).items := by
    rw [hl.items_tokens line 0 rfl hopens, items_operator _ _ _ _ _ (Term.operator?_of_sign hs),
      hcomplete, if_neg (by simp [hs]), bracketed, List.cons_append, items_open,
      if_neg (by simp [isComplete])]
    have hinside := (items_iff.1 hitems).embeds 1
      (.openRound :: .operator (sign s) :: (lhs.items.reverse ++ [])) [.bracket .closeRound] rfl
      (by simp [OpensNothing])
    rw [List.nil_append] at hinside
    rw [hinside, items_close, if_neg (by simp), if_neg (by simp [Term.isComplete_items]), items_nil,
      complete_of_isComplete rfl]
    simp [Term.items]
  rw [compile, hread]
  show itemsCode _ = _
  rw [hproper.itemsCode, Term.code, Term.code]

end

end Expression

namespace Desk

open Expression

/-- The code that gives a name a new value, computed from the old one and an operand. -/
def updateCode (x : String) (op : Operation) (operand : List Asm) : List Asm :=
  .op (.loadName x) :: operand ++ [.op (.binary op), .op (.storeName x)]

section
variable {d : Desk} {x : String} {info : NameInfo}

theorem assignable_of_get? (hx : d.names.get? x = some info) (hk : info.kind ≠ .const)
    (l : UInt32) : d.names.assignable x l = .ok () := by
  rw [Names.assignable, Names.reference, hx]
  exact if_neg hk

theorem readable_of_get? (hx : d.names.get? x = some info) (l : UInt32) :
    Readable (Scope.mk d.names d.functions) (.identifier ⟨x, l⟩) := by
  show (d.names.reference x l >>= fun _ => pure ()) = .ok ()
  rw [Names.reference, hx]
  rfl

theorem statement_assign {n : Literal} {line : UInt32} {value : List Token} {code : List Asm}
    (hn : d.names.assignable n.text n.line = .ok ()) (h : d.expression line value = .ok code) :
    d.statement line (.identifier n :: .punctuation .assign :: value) =
      .ok (code ++ [.op (.storeName n.text)], d) := by
  change ((d.names.assignable n.text n.line >>= fun _ => d.expression line value >>= fun _ => _) >>=
    fun _ => _) = _
  rw [hn, h]
  rfl

theorem statement_compoundOperand {n : Literal} {line : UInt32} {c : Compound} {rest : List Token}
    {code : List Asm} (hn : d.names.assignable n.text n.line = .ok ())
    (h : d.compoundOperand c line rest = .ok code) :
    d.statement line (.identifier n :: .compound c :: rest) =
      .ok (updateCode n.text c.operation code, d) := by
  change ((d.names.assignable n.text n.line >>= fun _ => d.compoundOperand c line rest >>= fun _ =>
    _) >>= fun _ => _) = _
  rw [hn, h]
  rfl

/-- The literal for one compiles anywhere. -/
theorem expression_one (d : Desk) (line l : UInt32) :
    d.expression line [.integer ⟨"1", l⟩] = .ok [.op (.loadConst (.int 1))] := by
  have hone : int64OfString? "1" = some 1 := by decide +kernel
  have hleaf : (Term.leaf (.integer ⟨"1", l⟩)).Proper (Scope.mk d.names d.functions) :=
    ⟨.leaf (by rw [Readable, hone]; rfl), .leaf _⟩
  have hcode : (Term.leaf (.integer ⟨"1", l⟩)).code = [.op (.loadConst (.int 1))] := by
    rw [Term.code, leafCode, hone]
    rfl
  rw [← hcode]
  exact hleaf.compile line

end

/-- **Compound assignments.**  For a name that is declared and no constant, `x op= e` and
    `x = x op (e)` have the same code if `e` compiles; `x++` has that of `x += 1`, and `x--` that
    of `x -= 1`. -/
theorem statement_compound (d : Desk) (line : UInt32) {x : String} {info : NameInfo}
    (hx : d.names.get? x = some info) (hk : info.kind ≠ .const) (l l' : UInt32) :
    (∀ (c : Compound) (e : List Token) (code : List Asm), c.isStep = false →
      d.expression line e = .ok code →
        d.statement line (.identifier ⟨x, l⟩ :: .compound c :: e) =
          .ok (updateCode x c.operation code, d) ∧
        d.statement line (.identifier ⟨x, l⟩ :: .punctuation .assign :: .identifier ⟨x, l'⟩ ::
          .operator (.binary c.operation) :: bracketed e) =
          .ok (updateCode x c.operation code, d)) ∧
      (d.statement line [.identifier ⟨x, l⟩, .compound .increment] =
          .ok (updateCode x .add [.op (.loadConst (.int 1))], d) ∧
        d.statement line [.identifier ⟨x, l⟩, .compound (.assign .add), .integer ⟨"1", l'⟩] =
          .ok (updateCode x .add [.op (.loadConst (.int 1))], d)) ∧
      (d.statement line [.identifier ⟨x, l⟩, .compound .decrement] =
          .ok (updateCode x .sub [.op (.loadConst (.int 1))], d) ∧
        d.statement line [.identifier ⟨x, l⟩, .compound (.assign .sub), .integer ⟨"1", l'⟩] =
          .ok (updateCode x .sub [.op (.loadConst (.int 1))], d)) := by
  have hassign : d.names.assignable x l = .ok () := assignable_of_get? hx hk l
  refine ⟨fun c e code hc he => ?_, ?_, ?_⟩
  · have hcompound : d.compoundOperand c line e = .ok code := by
      unfold compoundOperand
      rw [hc]
      exact he
    have hleaf : (Term.leaf (.identifier ⟨x, l'⟩)).Proper (Scope.mk d.names d.functions) :=
      ⟨.leaf (readable_of_get? hx l'), .leaf _⟩
    have hgroup : d.expression line (.identifier ⟨x, l'⟩ :: .operator (.binary c.operation) ::
        bracketed e) = .ok (.op (.loadName x) :: code ++ [.op (.binary c.operation)]) :=
      compile_apply_group hleaf trivial (by simp [sign, operator?]) he
    refine ⟨statement_compoundOperand hassign hcompound, ?_⟩
    rw [statement_assign hassign hgroup]
    simp [updateCode]
  · exact ⟨statement_compoundOperand hassign rfl,
      statement_compoundOperand hassign (expression_one d line l')⟩
  · exact ⟨statement_compoundOperand hassign rfl,
      statement_compoundOperand hassign (expression_one d line l')⟩

/-- A desk with one variable. -/
def sampleDesk : Desk where
  globals := ⟨[("x", ⟨.var, .any, 1⟩)]⟩

/-- `1 | x - 2`, whose operators bind looser than a power. -/
def sampleOperand : List Token :=
  [.integer ⟨"1", 3⟩, .operator (.binary .bitOr), .identifier ⟨"x", 3⟩, .operator (.binary .sub),
    .integer ⟨"2", 3⟩]

def sampleOperandCode : List Asm :=
  [.loadConst (.int 1), .loadName "x", .loadConst (.int 2), .binary .sub, .binary .bitOr].map .op

theorem statement_compound_power :
    sampleDesk.names.get? "x" = some ⟨.var, .any, 1⟩ ∧
      sampleDesk.expression 3 sampleOperand = .ok sampleOperandCode ∧
      sampleDesk.statement 3 (.identifier ⟨"x", 3⟩ :: .compound (.assign .pow) :: sampleOperand) =
        .ok (updateCode "x" .pow sampleOperandCode, sampleDesk) ∧
      sampleDesk.statement 3 (.identifier ⟨"x", 3⟩ :: .punctuation .assign ::
        .identifier ⟨"x", 3⟩ :: .operator (.binary .pow) :: bracketed sampleOperand) =
        .ok (updateCode "x" .pow sampleOperandCode, sampleDesk) :=
  have he : sampleDesk.expression 3 sampleOperand = .ok sampleOperandCode := by decide +kernel
  ⟨rfl, he, (statement_compound sampleDesk 3 rfl (by decide) 3 3).1 (.assign .pow) _ _ rfl he⟩

end Desk

end Naskah
