/-
  The code of expressions.  `ExpressionCode` is the least set of symbolic code that has the
  constants, the loading of a name, and with the code of some expressions also the code that joins
  them to a text, calls a function with them or applies an operator to them.

  Whatever an expression is compiled from, its code is of this kind (`compile_yields`): this is
  all that the rest of the compiler has to know about expressions.  The only way for an expression
  to break the compiler is a call with too many arguments.
-/
import Naskah.Proofs.Expression.Items
import Naskah.Proofs.Expression.Rounds
import Naskah.Proofs.Outcome

namespace Naskah

/-- Values that can be written down: all but chunks and functions. -/
def Value.isPlain : Value → Bool
  | null | int _ | float _ | bool _ | string _ => true
  | chunk _ | function .. | builtin _ => false

/-- Code that leaves one value on the stack. -/
inductive ExpressionCode : List Asm → Prop
  | const {v : Value} (hv : v.isPlain = true) : ExpressionCode [.op (.loadConst v)]
  | name (n : String) : ExpressionCode [.op (.loadName n)]
  | join {groups : List (List Asm)} (h : ∀ g ∈ groups, ExpressionCode g) :
      ExpressionCode (Expression.joinCode groups)
  | call (f : String) {args : List (List Asm)} (hn : args.length ≤ 255)
      (h : ∀ g ∈ args, ExpressionCode g) :
      ExpressionCode (.op (.loadName f) :: args.flatten ++ [.op (.call args.length)])
  | binary {l r : List Asm} (op : Operation) (hl : ExpressionCode l) (hr : ExpressionCode r) :
      ExpressionCode (l ++ r ++ [.op (.binary op)])
  | compare {l r : List Asm} (c : Comparison) (hl : ExpressionCode l) (hr : ExpressionCode r) :
      ExpressionCode (l ++ r ++ [.op (.compare c)])

/-- A text, or a hole with the code of an expression. -/
def StringPart.Sound : StringPart → Prop
  | text _ => True
  | hole code => ExpressionCode code

/-- A token whose holes hold the code of expressions. -/
def Token.Sound : Token → Prop
  | string s => ∀ part ∈ s.parts, part.Sound
  | _ => True

namespace Expression

theorem stringCode_sound {s : StringLiteral} (h : ∀ part ∈ s.parts, part.Sound) :
    ExpressionCode (stringCode s) := by
  unfold stringCode
  split
  · exact .const rfl
  · refine .join fun g hg => ?_
    obtain ⟨part, hp, he⟩ := List.mem_filterMap.1 hg
    cases part with
    | text t =>
      simp only [partCode?] at he
      split at he
      · cases he
      · cases he; exact .const rfl
    | hole code => cases he; exact h _ hp

/-! ## Operands -/

/-- Operands whose parts are the code of expressions. -/
def Operand.Sound : Operand → Prop
  | const v => v.isPlain = true
  | string s => ∀ part ∈ s.parts, part.Sound
  | name _ => True
  | call _ args | print args => ∀ g ∈ args, ExpressionCode g

theorem Operand.code_yields {o : Operand} (h : o.Sound) : Yields o.code ExpressionCode := by
  cases o with
  | const v => exact .ok (.const h)
  | string s => exact .ok (stringCode_sound h)
  | name n => exact .ok (.name n)
  | call f args =>
    simp only [code]
    split
    · next hn => exact .ok (.call f hn h)
    · next hn => exact Nat.lt_of_not_le hn
  | print args =>
    -- printing is a call with one argument, the joined text
    have hj : ∀ g ∈ [joinCode args], ExpressionCode g := by
      intro g hg
      rw [List.mem_singleton.1 hg]
      exact .join h
    have hn : [joinCode args].length ≤ 255 := by simp
    have hc := ExpressionCode.call Builtin.print.name hn hj
    rw [List.flatten_singleton] at hc
    exact .ok hc

theorem simpleOperand_yields (scope : Scope) (line : UInt32) {t : Token} (h : t.Sound) :
    Yields (simpleOperand scope line t) Operand.Sound := by
  cases t with
  | identifier l =>
    simp only [simpleOperand, Scope.resolver, Names.reference]
    split
    · exact .ok trivial
    · exact .refuse _ _
  | integer l =>
    simp only [simpleOperand]
    split
    · exact .ok rfl
    · exact .refuse _ _
  | float l =>
    simp only [simpleOperand]
    split
    · exact .ok rfl
    · exact .refuse _ _
  | boolean l => exact .ok rfl
  | string s => exact .ok h
  | keyword k | operator o | compound c | bracket b | punctuation p => exact .refuse _ _

theorem callee_operand_sound {args : List (List Asm)} (h : ∀ g ∈ args, ExpressionCode g)
    (callee : Callee) : (callee.operand args).Sound := by
  cases callee <;> exact h

theorem callee_check_yields (scope : Scope) (callee : Callee) :
    Yields (callee.check scope) fun _ => True := by
  cases callee with
  | function l =>
    simp only [Callee.check, Scope.resolver, Functions.check]
    split
    · exact .ok trivial
    · exact .refuse _ _
  | print => exact .ok trivial

/-! ## From items to code -/

/-- Items in which operands and operators alternate, after a complete operand or not. -/
def Alternates : Bool → List Item → Prop
  | complete, [] => complete = true
  | complete, .operand o :: items => complete = false ∧ o.Sound ∧ Alternates true items
  | complete, .operator o :: items => complete = true ∧ o ≠ .negation ∧ Alternates false items
  | complete, .openRound :: items => complete = false ∧ Alternates false items
  | complete, .closeRound :: items => complete = true ∧ Alternates true items

/-- The operators that wait, without the brackets among them. -/
def waiting (pending : List (Option Operator)) : List Operator :=
  pending.filterMap id

theorem waiting_released (p : Nat) : ∀ pending : List (Option Operator),
    waiting pending = released p pending ++ waiting (pending.drop (released p pending).length)
  | [] => rfl
  | none :: _ => rfl
  | some o :: pending => by
    simp only [released]
    split
    · have ih := waiting_released p pending
      simp only [waiting, List.filterMap_cons_some (f := id) (a := some o) rfl, List.cons_append,
        List.length_cons, List.drop_succ_cons] at ih ⊢
      rw [← ih]
    · rfl

/-- A closing bracket releases all operators up to the bracket that it closes. -/
theorem waiting_released_zero : ∀ pending : List (Option Operator),
    waiting pending = released 0 pending ++ waiting (pending.drop ((released 0 pending).length + 1))
  | [] => rfl
  | none :: _ => rfl
  | some o :: pending => by
    have ih := waiting_released_zero pending
    simp only [released, Nat.zero_le, if_true]
    simp only [waiting, List.filterMap_cons_some (f := id) (a := some o) rfl, List.cons_append,
      List.length_cons, List.drop_succ_cons] at ih ⊢
    rw [← ih]

/-- Groups of code, one for each operand that no operator has been applied to. -/
def Groups (n : Nat) (groups : List (List Asm)) : Prop :=
  groups.length = n ∧ ∀ g ∈ groups, ExpressionCode g

theorem operatorInstr_yields {o : Operator} (ho : o ≠ .negation) {l r : List Asm}
    (hl : ExpressionCode l) (hr : ExpressionCode r) :
    Yields (operatorInstr o) fun i => ExpressionCode (l ++ r ++ [i]) := by
  cases o with
  | binary op => exact .ok (.binary op hl hr)
  | compare c => exact .ok (.compare c hl hr)
  | negation => exact absurd rfl ho

theorem combine_operator {n : Nat} {groups : List (List Asm)} {o : Operator}
    (h : Groups (n + 2) groups) (ho : o ≠ .negation) :
    Yields (combine groups (.operator o)) (Groups (n + 1)) := by
  match groups, h with
  | r :: l :: groups, ⟨hn, hg⟩ =>
    refine (operatorInstr_yields ho (hg l (by simp)) (hg r (by simp))).map fun i hi => ?_
    refine ⟨by simpa using hn, fun g hm => ?_⟩
    rcases List.mem_cons.1 hm with rfl | hm
    · exact hi
    · exact hg g (by simp [hm])

/-- Each released operator joins two groups to one. -/
theorem combine_released : ∀ {out : List Operator} {n : Nat} {groups : List (List Asm)},
    Groups (n + out.length + 1) groups → (∀ o ∈ out, o ≠ .negation) →
      Yields ((out.map Postfix.operator).foldlM combine groups) (Groups (n + 1))
  | [], _, _, h, _ => Yields.pure h
  | o :: out, n, groups, h, ho => by
    rw [List.map_cons, List.foldlM_cons]
    refine (combine_operator (n := n + out.length) h (ho o (by simp))).bind
      fun gs _ hgs => ?_
    exact combine_released hgs fun o' h' => ho o' (by simp [h'])

/-- **Items that alternate give one group of code.**  While they are brought into order there are
    as many groups as waiting operators, and one more after a complete operand. -/
theorem toPostfix_yields : ∀ {items : List Item} {complete : Bool}
    {pending : List (Option Operator)} {groups : List (List Asm)},
    Alternates complete items → (∀ o ∈ waiting pending, o ≠ .negation) →
    Groups ((waiting pending).length + if complete then 1 else 0) groups →
      Yields ((toPostfix pending items).foldlM combine groups) (Groups 1)
  | [], _, pending, groups, rfl, ho, hg => by
    have he : (toPostfix pending []) = (waiting pending).map Postfix.operator := by
      simp only [toPostfix, waiting, List.map_filterMap, id]
    rw [he]
    exact combine_released (n := 0) (by simpa using hg) ho
  | .operand o :: items, _, pending, groups, ⟨rfl, hs, ha⟩, ho, hg => by
    rw [toPostfix, List.foldlM_cons]
    have hc : Yields (combine groups (.operand o)) (Groups ((waiting pending).length + 1)) := by
      refine (Operand.code_yields hs).map fun code hcode => ⟨by simpa using hg.1, fun g hm => ?_⟩
      rcases List.mem_cons.1 hm with rfl | hm
      · exact hcode
      · exact hg.2 g hm
    exact hc.bind fun gs _ hgs => toPostfix_yields ha ho hgs
  | .openRound :: items, _, pending, groups, ⟨rfl, ha⟩, ho, hg => by
    rw [toPostfix]
    have hw : waiting (none :: pending) = waiting pending := rfl
    rw [← hw] at ho hg
    exact toPostfix_yields ha ho hg
  | .closeRound :: items, _, pending, groups, ⟨rfl, ha⟩, ho, hg => by
    rw [toPostfix, List.foldlM_append]
    rw [waiting_released_zero pending] at ho hg
    refine (combine_released (n := (waiting (pending.drop ((released 0 pending).length + 1))).length)
      ?_ fun o h => ho o (by simp [h])).bind fun gs _ hgs => ?_
    · simpa [Nat.add_comm, Nat.add_left_comm] using hg
    · exact toPostfix_yields ha (fun o h => ho o (by simp [h])) hgs
  | .operator o :: items, _, pending, groups, ⟨rfl, hn, ha⟩, ho, hg => by
    rw [toPostfix, List.foldlM_append]
    rw [waiting_released o.precedence pending] at ho hg
    refine (combine_released (n := (waiting (pending.drop (released o.precedence pending).length)).length)
      ?_ fun o' h => ho o' (by simp [h])).bind fun gs _ hgs => ?_
    · simpa [Nat.add_comm, Nat.add_left_comm] using hg
    · refine toPostfix_yields ha (fun o' h => ?_) hgs
      rcases List.mem_cons.1 h with rfl | h
      · exact hn
      · exact ho o' (by simp only [List.mem_append]; exact Or.inr h)

theorem itemsCode_yields {items : List Item} (h : Alternates false items) :
    Yields (itemsCode items) ExpressionCode := by
  unfold itemsCode
  have hg : Groups ((waiting []).length + if false then 1 else 0) [] := ⟨rfl, by simp⟩
  refine (toPostfix_yields h (by simp [waiting]) hg).bind fun gs _ hgs => ?_
  match gs, hgs with
  | [code], ⟨_, hc⟩ => exact .ok (hc code (by simp))

/-! ## From tokens to items -/

theorem mem_of_splitClose {ts inner after : List Token} {depth : Nat}
    (h : splitClose depth ts = some (inner, after)) :
    (∀ t ∈ inner, t ∈ ts) ∧ ∀ t ∈ after, t ∈ ts := by
  rw [eq_of_splitClose h]
  exact ⟨fun t ht => List.mem_append_left _ ht,
    fun t ht => List.mem_append_right _ (List.mem_cons_of_mem _ ht)⟩

theorem mem_of_mem_splitCommasFrom : ∀ {ts part : List Token} {depth : Nat},
    part ∈ splitCommasFrom depth ts → ∀ t ∈ part, t ∈ ts
  | [], part, _, h => by simp_all [splitCommasFrom]
  | t :: ts, part, depth, h => by
    rw [splitCommasFrom] at h
    intro t' ht
    split at h
    · rcases List.mem_cons.1 h with rfl | h
      · simp at ht
      · exact List.mem_cons_of_mem _ (mem_of_mem_splitCommasFrom h t' ht)
    · split at h
      · simp_all
      · next p ps hs =>
        rcases List.mem_cons.1 h with rfl | h
        · rcases List.mem_cons.1 ht with rfl | ht
          · simp
          · exact List.mem_cons_of_mem _ (mem_of_mem_splitCommasFrom (hs ▸ List.mem_cons_self) t' ht)
        · exact List.mem_cons_of_mem _
            (mem_of_mem_splitCommasFrom (hs ▸ List.mem_cons_of_mem _ h) t' ht)

theorem mem_of_mem_splitCommas {ts part : List Token} (h : part ∈ splitCommas ts) :
    ∀ t ∈ part, t ∈ ts := by
  unfold splitCommas at h
  split at h
  · simp at h
  · exact mem_of_mem_splitCommasFrom h

/-- The items that were read, followed by items that alternate after them. -/
def Continues (read its : List Item) : Prop :=
  ∃ rest, its = read.reverse ++ rest ∧ Alternates (isComplete read) rest

theorem Continues.of_cons {i : Item} {read its : List Item} (h : Continues (i :: read) its)
    (hi : ∀ rest, Alternates (isComplete (i :: read)) rest → Alternates (isComplete read) (i :: rest)) :
    Continues read its := by
  obtain ⟨rest, rfl, hr⟩ := h
  exact ⟨i :: rest, by simp, hi rest hr⟩

theorem complete_yields {line : UInt32} {depth : Nat} {read : List Item}
    (hd : read.head? = some .openRound → 0 < depth) :
    Yields (complete line depth read) (Continues read) := by
  unfold complete
  split
  · exact .refuse _ _
  · next h =>
    match read, hd with
    | [], _ => exact .refuse _ _
    | .operator o :: _, _ => exact .refuse _ _
    | .openRound :: _, hd => exact absurd (hd rfl) h
    | .operand o :: read, _ => exact .ok ⟨[], by simp, rfl⟩
    | .closeRound :: read, _ => exact .ok ⟨[], by simp, rfl⟩

/-- **The items of a run alternate.** -/
theorem items_yields (scope : Scope) (line : UInt32) (depth : Nat) (read : List Item)
    (tokens : List Token) (hs : ∀ t ∈ tokens, t.Sound)
    (hd : read.head? = some .openRound → 0 < depth) :
    Yields (items scope line depth read tokens) (Continues read) := by
  induction depth, read, tokens using items.induct with
  | case1 depth read => rw [items_nil]; exact complete_yields hd
  | case2 depth read t ts hsil ih =>
    rw [items_silent _ _ _ _ _ hsil]
    exact ih (fun t' ht => hs t' (by simp [ht])) hd
  | case3 depth read t ts _ o ho hc =>
    rw [items_operator _ _ _ _ _ ho, if_pos hc]
    exact .refuse _ _
  | case4 depth read t ts _ o ho hc ih =>
    rw [items_operator _ _ _ _ _ ho, if_neg hc]
    simp only [not_or, Bool.not_eq_true', Bool.not_eq_false] at hc
    exact (ih (fun t' ht => hs t' (by simp [ht])) (by simp)).mono fun its h =>
      h.of_cons fun rest hr => ⟨hc.2, hc.1, hr⟩
  | case5 depth read ts hc =>
    rw [items_open, if_pos hc]
    exact .refuse _ _
  | case6 depth read ts hc _ _ ih =>
    rw [items_open, if_neg hc]
    exact (ih (fun t' ht => hs t' (by simp [ht])) (by simp)).mono fun its h =>
      h.of_cons fun rest hr => ⟨Bool.eq_false_iff.2 hc, hr⟩
  | case7 read ts =>
    rw [items_close, if_pos rfl]
    exact .refuse _ _
  | case8 depth read ts hz hc =>
    rw [items_close, if_neg hz, if_pos hc]
    exact .refuse _ _
  | case9 depth read ts hz hc _ _ ih =>
    rw [items_close, if_neg hz, if_neg hc]
    exact (ih (fun t' ht => hs t' (by simp [ht])) (by simp)).mono fun its h =>
      h.of_cons fun rest hr => ⟨by simpa using hc, hr⟩
  | case10 depth read t callee ts _ _ _ _ hcallee ihparts ihafter =>
    rw [items_call _ _ _ _ _ hcallee]
    refine (callee_check_yields scope callee).bind fun _ _ _ => ?_
    split
    · exact .refuse _ _
    · next inner after hsplit =>
      obtain ⟨hi, ha⟩ := mem_of_splitClose hsplit
      have hargs : Yields (compileArguments scope line inner) fun args =>
          args.length = (splitCommas inner).length ∧ ∀ g ∈ args, ExpressionCode g := by
        refine Yields.mapM fun part hpart => ?_
        refine (ihparts inner after hsplit part hpart (fun t' ht => ?_) (by simp)).bind
          fun its _ hits => ?_
        · exact hs t' (by simp [hi t' (mem_of_mem_splitCommas hpart t' ht)])
        · obtain ⟨rest, rfl, hr⟩ := hits
          exact itemsCode_yields hr
      refine hargs.bind fun args _ hg => ?_
      split
      · exact .refuse _ _
      · next hc =>
        exact (ihafter inner after hsplit args (fun t' ht => hs t' (by simp [ha t' ht]))
          (by simp)).mono fun its h => h.of_cons fun rest hr =>
            ⟨Bool.eq_false_iff.2 hc, callee_operand_sound hg.2 callee, hr⟩
  | case11 depth read t ts hopen hclose hsil ho hcall ih =>
    rw [items_simple _ _ _ _ _ (Bool.eq_false_iff.2 hsil) ho hopen hclose (not_called hcall)]
    refine (simpleOperand_yields scope line (hs t (by simp))).bind fun o _ hsound => ?_
    split
    · exact .refuse _ _
    · next hc =>
      exact (ih o (fun t' ht => hs t' (by simp [ht])) (by simp)).mono fun its h =>
        h.of_cons fun rest hr => ⟨Bool.eq_false_iff.2 hc, hsound, hr⟩

/-- **The code of an expression.** -/
theorem compile_yields (scope : Scope) (line : UInt32) {tokens : List Token}
    (hs : ∀ t ∈ tokens, t.Sound) : Yields (compile scope line tokens) ExpressionCode := by
  refine (items_yields scope line 0 [] tokens hs (by simp)).bind fun its _ hits => ?_
  obtain ⟨rest, rfl, hr⟩ := hits
  exact itemsCode_yields hr

end Expression

end Naskah
