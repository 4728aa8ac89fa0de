/-
  Ordered trees are compiled to their code (`Term.Proper.compile`).  While the operands and
  operators of an ordered tree are brought into the order of evaluation, the operators on its right
  edge wait (`Term.spine`), and the operands that they will be applied to are complete
  (`Term.stack`).
-/
import Naskah.Proofs.Expression.Term
import Mathlib.Data.List.Basic

namespace Naskah.Expression

/-! ## Operands -/

/-- The operand that a literal or a name is. -/
def leafOperand : Token → Operand
  | .identifier l => .name l.text
  | .integer l => .const (.int ((int64OfString? l.text).getD 0))
  | .float l => .const (.float ((Decimal.floatOfString? l.text).getD 0))
  | .boolean l => .const (.bool (l.text.toList.map Char.toLower == "benar".toList))
  | .string s => .string s
  | _ => .const .null

section
variable {r : Resolver}

theorem simpleOperand_leaf {t : Token} (h : Readable r t) (line : UInt32) :
    simpleOperand r line t = .ok (leafOperand t) ∧ (leafOperand t).code = .ok (leafCode t) := by
  cases t with
  | identifier l => exact ⟨by rw [simpleOperand, h]; rfl, rfl⟩
  | integer l =>
    obtain ⟨n, hn⟩ := Option.isSome_iff_exists.1 h
    exact ⟨by simp [simpleOperand, leafOperand, hn], rfl⟩
  | float l =>
    obtain ⟨x, hx⟩ := Option.isSome_iff_exists.1 h
    exact ⟨by simp [simpleOperand, leafOperand, hx], rfl⟩
  | boolean | string => exact ⟨rfl, rfl⟩
  | keyword | operator | compound | bracket | punctuation => exact h.elim

theorem readable_of_simpleOperand {t : Token} {o : Operand} {line : UInt32}
    (h : simpleOperand r line t = .ok o) : Readable r t := by
  cases t with
  | identifier l =>
    rw [simpleOperand] at h
    show r.reference l.text l.line = .ok ()
    cases hr : r.reference l.text l.line with
    | error e => rw [hr] at h; cases h
    | ok u => rfl
  | integer l =>
    show (int64OfString? l.text).isSome = true
    rw [simpleOperand] at h
    split at h
    · next hn => rw [hn]; rfl
    · cases h
  | float l =>
    show (Decimal.floatOfString? l.text).isSome = true
    rw [simpleOperand] at h
    split at h
    · next hx => rw [hx]; rfl
    · cases h
  | boolean | string => trivial
  | keyword | operator | compound | bracket | punctuation => cases h

theorem Callee.code_operand {c : Callee} {args : List (List Asm)} (h : c.Accepts args.length) :
    (c.operand args).code = .ok (c.code args) := by
  cases c with
  | function l => exact if_pos h
  | print => simp [operand, Operand.code, code, joinCode]

theorem Callee.accepts_of_code {c : Callee} {args : List (List Asm)} {code : List Asm}
    (h : (c.operand args).code = .ok code) : c.Accepts args.length := by
  cases c with
  | function l =>
    by_contra hn
    have he : (Operand.call l.text args).code = _ := if_neg hn
    rw [Callee.operand, he] at h
    cases h
  | print => trivial

end

/-! ## The order of evaluation -/

namespace Term

/-- The items of a tree. -/
def items : Term → List Item
  | leaf t => [.operand (leafOperand t)]
  | call c args => [.operand (c.operand (args.map code))]
  | group e => .openRound :: e.items ++ [.closeRound]
  | apply s l r => l.items ++ .operator (sign s) :: r.items

/-- The operators that wait when a tree has been read, the latest first. -/
def spine : Term → List Operator
  | apply s _ r => r.spine ++ [sign s]
  | _ => []

/-- The code of the operands that the waiting operators will be applied to, the latest first. -/
def stack : Term → List (List Asm)
  | apply _ l r => r.stack ++ [l.code]
  | t => [t.code]

section
variable {r : Resolver} {t : Term} {p : Nat}

theorem spine_eq (h : t.IsOperand) : t.spine = [] := by
  cases t with
  | apply => exact h.elim
  | leaf | call | group => rfl

theorem stack_eq (h : t.IsOperand) : t.stack = [t.code] := by
  cases t with
  | apply => exact h.elim
  | leaf | call | group => rfl

theorem Ordered.spine (h : t.Ordered) (hp : t.Binds p) : ∀ o ∈ t.spine, p ≤ o.precedence := by
  induction t using onOperators generalizing p with
  | operand t ht => simp [spine_eq ht]
  | apply s l r _ ihr =>
    cases h with
    | apply _ hr _ hrb =>
      have hp : p ≤ (sign s).precedence := hp
      exact List.forall_mem_append.2
        ⟨ihr hr (hrb.mono (Nat.le_succ_of_le hp)), List.forall_mem_singleton.2 hp⟩

/-- An operator is applied to the two latest operands. -/
theorem combine_sign {s : Token} (h : sign s ≠ .negation) (lhs rhs : List Asm)
    (groups : List (List Asm)) :
    combine (rhs :: lhs :: groups) (.operator (sign s)) =
      .ok ((lhs ++ rhs ++ signCode s) :: groups) := by
  unfold signCode
  cases hs : sign s with
  | binary op | compare c => rfl
  | negation => exact absurd hs h

/-- The waiting operators make one operand of those that are complete. -/
theorem Fits.foldlM_spine (h : t.Fits r) (groups : List (List Asm)) :
    (t.spine.map Postfix.operator).foldlM combine (t.stack ++ groups) = .ok (t.code :: groups) := by
  induction t using onOperators generalizing groups with
  | operand t ht => rw [spine_eq ht, stack_eq ht]; rfl
  | apply s l r _ ihr =>
    cases h with
    | apply hs _ hr =>
      rw [Term.spine, Term.stack, List.map_append, List.foldlM_append, List.append_assoc, ihr hr]
      show (combine (r.code :: l.code :: groups) (.operator (sign s)) >>= fun g => pure g) = _
      rw [combine_sign hs, code]
      rfl

theorem Fits.foldlM_spine_append (h : t.Fits r) (rest : List Postfix) (groups : List (List Asm)) :
    (t.spine.map Postfix.operator ++ rest).foldlM combine (t.stack ++ groups) =
      rest.foldlM combine (t.code :: groups) := by
  rw [List.foldlM_append, h.foldlM_spine]
  rfl

theorem released_append {os : List Operator} (h : ∀ o ∈ os, p ≤ o.precedence)
    (pending : List (Option Operator)) :
    released p (os.map some ++ pending) = os ++ released p pending := by
  induction os with
  | nil => rfl
  | cons o os ih =>
    rw [List.forall_mem_cons] at h
    rw [List.map_cons, List.cons_append, released, if_pos h.1, ih h.2, List.cons_append]

theorem released_mono {q : Nat} {pending : List (Option Operator)} (hq : p ≤ q)
    (h : released p pending = []) : released q pending = [] := by
  match pending with
  | [] | none :: _ => rfl
  | some o :: pending =>
    simp only [released] at h ⊢
    split at h
    · cases h
    · next ho => rw [if_neg fun hle => ho (Nat.le_trans hq hle)]

/-- **Reading an ordered tree** behind operators that bind looser: the operators on its right edge
    wait, and all others have been applied. -/
theorem Proper.foldlM_items (h : t.Proper r) (hp : t.Binds p)
    {pending : List (Option Operator)} (hw : released p pending = []) (rest : List Item)
    (groups : List (List Asm)) :
    (toPostfix pending (t.items ++ rest)).foldlM combine groups =
      (toPostfix (t.spine.map some ++ pending) rest).foldlM combine (t.stack ++ groups) := by
  obtain ⟨hf, ho⟩ := h
  induction hf generalizing p pending rest groups with
  | leaf ht => exact foldlM_operand (simpleOperand_leaf ht 0).2 _ _
  | @call c args _ hn _ _ =>
    have hc : (c.operand (args.map code)).code = .ok (c.code (args.map code)) :=
      Callee.code_operand (by simpa using hn)
    show _ = (toPostfix pending rest).foldlM combine ((call c args).code :: groups)
    rw [code, codeAll_eq_map]
    exact foldlM_operand hc _ _
  | @group e hf ih =>
    cases ho with
    | group ho =>
      have hitems : (Term.group e).items ++ rest = .openRound :: (e.items ++ .closeRound :: rest) := by
        simp [items]
      -- inside the bracket nothing waits, and the closing bracket releases the operators
      have hout : released 0 (e.spine.map some ++ none :: pending) = e.spine := by
        rw [released_append fun o _ => Nat.zero_le _]
        exact List.append_nil _
      have hdrop : (e.spine.map some ++ none :: pending).drop (e.spine.length + 1) = pending := by
        simp [List.drop_append]
      rw [hitems, toPostfix, ih (binds_zero e) rfl _ _ ho, toPostfix]
      simp only [hout, hdrop]
      rw [hf.foldlM_spine_append]
      show _ = (toPostfix pending rest).foldlM combine ((Term.group e).code :: groups)
      rw [code]
  | @apply s lhs rhs hs hl hr ihl ihr =>
    cases ho with
    | apply hol hor hlb hrb =>
      have hp : p ≤ (sign s).precedence := hp
      have hw := released_mono hp hw
      have hitems : (Term.apply s lhs rhs).items ++ rest =
          lhs.items ++ .operator (sign s) :: (rhs.items ++ rest) := by simp [items]
      -- all that waits in the left operand is released, and nothing else
      have hout : released (sign s).precedence (lhs.spine.map some ++ pending) = lhs.spine := by
        rw [released_append (hol.spine hlb), hw, List.append_nil]
      have hdrop : (lhs.spine.map some ++ pending).drop lhs.spine.length = pending := by
        simp
      rw [hitems, ihl hlb hw _ _ hol, toPostfix]
      simp only [hout, hdrop]
      rw [hl.foldlM_spine_append, ihr hrb ?_ _ _ hor]
      · simp [spine, stack]
      · rw [released, if_neg (Nat.not_succ_le_self _)]

theorem Proper.itemsCode (h : t.Proper r) : itemsCode t.items = .ok t.code := by
  have hf : (toPostfix [] (t.items ++ [])).foldlM combine [] = _ :=
    h.foldlM_items (binds_zero t) rfl [] []
  have hend : toPostfix (t.spine.map some ++ []) [] = t.spine.map Postfix.operator := by
    simp [toPostfix, List.filterMap_map]
  rw [hend, h.fits.foldlM_spine, List.append_nil] at hf
  unfold Expression.itemsCode
  rw [hf]
  rfl

/-! ## Reading -/

theorem isComplete_items (t : Term) (read : List Item) :
    isComplete (t.items.reverse ++ read) = true := by
  induction t using onOperators generalizing read with
  | operand t ht =>
    cases t with
    | apply => exact ht.elim
    | leaf | call | group => simp [items, isComplete]
  | apply s l r _ ihr =>
    rw [items, List.reverse_append, List.reverse_cons, List.append_assoc, List.append_assoc]
    exact ihr _

/-- A literal or a name is nothing else. -/
theorem shape_of_readable {t : Token} (h : Readable r t) : isSilent t = false ∧
    operator? t = none ∧ t ≠ .bracket .openRound ∧ t ≠ .bracket .closeRound := by
  cases t with
  | identifier | integer | float | boolean | string => simp [isSilent, operator?]
  | keyword | operator | compound | bracket | punctuation => exact h.elim

theorem operator?_of_sign {s : Token} (h : sign s ≠ .negation) : operator? s = some (sign s) := by
  unfold sign at h ⊢
  cases hs : operator? s with
  | none => rw [hs] at h; exact absurd rfl h
  | some o => rfl

/-- The items of a tree make an expression. -/
theorem compile_of_items {line : UInt32} (h : t.Proper r)
    (hi : Expression.items r line 0 [] (t.tokens ++ []) =
      Expression.items r line 0 (t.items.reverse ++ []) []) :
    Expression.compile r line t.tokens = .ok t.code := by
  rw [List.append_nil, items_nil, complete_of_isComplete (t.isComplete_items []), List.append_nil,
    List.reverse_reverse] at hi
  rw [Expression.compile, hi]
  exact h.itemsCode

theorem mapM_eq_ok_map {α β ε : Type} {f : α → Except ε β} {g : α → β} : ∀ {xs : List α},
    (∀ x ∈ xs, f x = .ok (g x)) → xs.mapM f = .ok (xs.map g)
  | [], _ => rfl
  | x :: xs, h => by
    rw [List.mapM_cons, h x (by simp), mapM_eq_ok_map fun y hy => h y (by simp [hy])]
    rfl

/-- A call is read as one item if its arguments compile. -/
theorem items_callee {line : UInt32} {depth : Nat} {c : Callee} {args : List Term}
    (hc : c.check r = .ok ()) (hf : ∀ e ∈ args, e.Fits r)
    (ha : ∀ e ∈ args, Expression.compile r line e.tokens = .ok e.code) {read : List Item}
    (hr : isComplete read = false) (rest : List Token) :
    Expression.items r line depth read ((call c args).tokens ++ rest) =
      Expression.items r line depth (.operand (c.operand (args.map code)) :: read) rest := by
  have hargs : compileArguments r line (joined (args.map tokens)) = .ok (args.map code) := by
    rw [compileArguments, splitCommas_args hf, List.mapM_map]
    exact mapM_eq_ok_map ha
  rw [tokens, tokensAll_eq_map, bracketed]
  simp only [List.cons_append, List.append_assoc, List.nil_append]
  rw [items_call _ _ _ _ _ c.callee?_token, hc, (balanced_args hf).splitClose]
  simp only [hargs, hr]
  rfl

/-- **The tokens of a tree are read as its items.** -/
theorem Proper.items_tokens (h : t.Proper r) (line : UInt32) (depth : Nat) {read : List Item}
    (hr : isComplete read = false) {rest : List Token} (ho : OpensNothing rest) :
    Expression.items r line depth read (t.tokens ++ rest) =
      Expression.items r line depth (t.items.reverse ++ read) rest := by
  obtain ⟨hf, hord⟩ := h
  induction hf generalizing depth read rest with
  | @leaf t ht =>
    obtain ⟨hs, hop, hopen, hclose⟩ := shape_of_readable ht
    rw [tokens, List.singleton_append,
      items_simple _ _ _ _ _ hs hop hopen hclose (.inr ho), (simpleOperand_leaf ht line).1]
    simp [items, hr]
    rfl
  | @call c args hc hn ha ih =>
    cases hord with
    | call _ hord =>
      refine items_callee hc ha (fun e he => ?_) hr rest
      refine compile_of_items ⟨ha e he, hord e he⟩ ?_
      exact ih e he 0 rfl (by simp [OpensNothing]) (hord e he)
  | @group e hf ih =>
    cases hord with
    | group hord =>
      rw [tokens, bracketed]
      simp only [List.cons_append, List.append_assoc, List.nil_append]
      rw [items_open, if_neg (by simp [hr]), ih _ rfl (by simp [OpensNothing]) hord, items_close,
        if_neg (by simp), if_neg (by simp [isComplete_items])]
      simp [items]
  | @apply s lhs rhs hs hl hr' ihl ihr =>
    cases hord with
    | apply hol hor =>
      have hopens : OpensNothing (s :: (rhs.tokens ++ rest)) := by
        intro he
        rw [show s = .bracket .openRound from Option.some.inj he] at hs
        exact hs rfl
      rw [tokens]
      simp only [List.cons_append, List.append_assoc]
      rw [ihl _ hr hopens hol, items_operator _ _ _ _ _ (operator?_of_sign hs),
        if_neg (by simp [hs, isComplete_items]), ihr _ rfl ho hor]
      simp [items]

/-- **An ordered tree is compiled to its code.** -/
theorem Proper.compile (h : t.Proper r) (line : UInt32) :
    Expression.compile r line t.tokens = .ok t.code :=
  compile_of_items h (h.items_tokens line 0 rfl (by simp [OpensNothing]))

end

end Term

end Naskah.Expression
