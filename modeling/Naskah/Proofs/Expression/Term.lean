/-
  Syntax trees of expressions.  A tree is ordered if operators that bind tighter stand below those
  that bind looser, and operators that bind alike stand below to the left.  Between brackets and in
  arguments the order starts anew.

  Operands and operators that alternate have one ordered tree: it is made by putting one operator
  with its operand after the other into it (`Term.graft`).  So two ordered trees with the same
  tokens are equal (`Term.Proper.ext`).
-/
import Naskah.Proofs.Expression.Items
import Naskah.Proofs.Expression.Rounds

namespace Naskah.Expression

/-! ## Trees -/

/-- A syntax tree.  Literals, names and the signs of operators are kept as tokens. -/
inductive Term
  | leaf (t : Token)
  | call (c : Callee) (args : List Term)
  /-- An expression between brackets. -/
  | group (e : Term)
  | apply (sign : Token) (l r : Term)

namespace Callee

/-- The word that something is called by. -/
def token : Callee → Token
  | function l => .identifier l
  | print => .keyword .print

/-- The code of a call: what is called, the arguments in order, and the call.  Printing has one
    argument, the text that all the others are joined to. -/
def code (args : List (List Asm)) : Callee → List Asm
  | function l => .op (.loadName l.text) :: args.flatten ++ [.op (.call args.length)]
  | print => .op (.loadName Builtin.print.name) :: args.flatten ++
      [.op (.buildString args.length), .op (.call 1)]

/-- How many arguments there can be. -/
def Accepts (n : Nat) : Callee → Prop
  | function _ => n ≤ 255
  | print => True

theorem callee?_token (c : Callee) : callee? c.token = some c := by
  cases c <;> rfl

theorem token_injective {c c' : Callee} (h : c.token = c'.token) : c = c' := by
  have hc := congrArg callee? h
  rw [callee?_token, callee?_token] at hc
  exact Option.some.inj hc

end Callee

/-- The operator that a sign stands for. -/
def sign (t : Token) : Operator :=
  (operator? t).getD .negation

/-- The code of the operator that a sign stands for. -/
def signCode (t : Token) : List Asm :=
  match sign t with
  | .binary op => [.op (.binary op)]
  | .compare c => [.op (.compare c)]
  | .negation => []

/-- The code of a literal or a name. -/
def leafCode : Token → List Asm
  | .identifier l => [.op (.loadName l.text)]
  | .integer l => [.op (.loadConst (.int ((int64OfString? l.text).getD 0)))]
  | .float l => [.op (.loadConst (.float ((Decimal.floatOfString? l.text).getD 0)))]
  | .boolean l => [.op (.loadConst (.bool (l.text.toList.map Char.toLower == "benar".toList)))]
  | .string s => stringCode s
  | _ => []

/-- A literal whose text can be read, or a name that can be used. -/
def Readable (r : Resolver) : Token → Prop
  | .identifier l => r.reference l.text l.line = .ok ()
  | .integer l => (int64OfString? l.text).isSome = true
  | .float l => (Decimal.floatOfString? l.text).isSome = true
  | .boolean _ | .string _ => True
  | _ => False

/-- Arguments with commas between them. -/
def joined : List (List Token) → List Token
  | [] => []
  | part :: parts => part ++ parts.flatMap (.punctuation .comma :: ·)

/-- Tokens between round brackets. -/
def bracketed (ts : List Token) : List Token :=
  .bracket .openRound :: ts ++ [.bracket .closeRound]

theorem length_bracketed (ts : List Token) : (bracketed ts).length = ts.length + 2 := by
  simp [bracketed]

namespace Term

mutual

/-- The tokens that a tree is written with. -/
def tokens : Term → List Token
  | leaf t => [t]
  | call c args => c.token :: bracketed (joined (tokensAll args))
  | group e => bracketed e.tokens
  | apply s l r => l.tokens ++ s :: r.tokens

def tokensAll : List Term → List (List Token)
  | [] => []
  | e :: es => e.tokens :: tokensAll es

end

mutual

/-- The code of a tree, each operator behind its operands. -/
def code : Term → List Asm
  | leaf t => leafCode t
  | call c args => c.code (codeAll args)
  | group e => e.code
  | apply s l r => l.code ++ r.code ++ signCode s

def codeAll : List Term → List (List Asm)
  | [] => []
  | e :: es => e.code :: codeAll es

end

@[simp] theorem tokensAll_eq_map (es : List Term) : tokensAll es = es.map tokens := by
  induction es with
  | nil => rfl
  | cons e es ih => rw [tokensAll, ih, List.map_cons]

@[simp] theorem codeAll_eq_map (es : List Term) : codeAll es = es.map code := by
  induction es with
  | nil => rfl
  | cons e es ih => rw [codeAll, ih, List.map_cons]

/-- All literals can be read, all names be used, and all functions be called. -/
inductive Fits (r : Resolver) : Term → Prop
  | leaf {t : Token} (h : Readable r t) : Fits r (leaf t)
  | call {c : Callee} {args : List Term} (hc : c.check r = .ok ()) (hn : c.Accepts args.length)
      (ha : ∀ e ∈ args, Fits r e) : Fits r (call c args)
  | group {e : Term} (h : Fits r e) : Fits r (group e)
  | apply {s : Token} {lhs rhs : Term} (hs : sign s ≠ .negation) (hl : Fits r lhs)
      (hr : Fits r rhs) : Fits r (apply s lhs rhs)

/-- A tree that binds at least as tightly as `p`. -/
def Binds (p : Nat) : Term → Prop
  | apply s _ _ => p ≤ (sign s).precedence
  | _ => True

/-- Operators of a higher precedence bind tighter, and those of the same one group to the left. -/
inductive Ordered : Term → Prop
  | leaf (t : Token) : Ordered (leaf t)
  | call (c : Callee) {args : List Term} (ha : ∀ e ∈ args, Ordered e) : Ordered (call c args)
  | group {e : Term} (h : Ordered e) : Ordered (group e)
  | apply {s : Token} {l r : Term} (hl : Ordered l) (hr : Ordered r)
      (hlb : l.Binds (sign s).precedence) (hrb : r.Binds ((sign s).precedence + 1)) :
      Ordered (apply s l r)

/-- A tree without an operator outside of brackets. -/
def IsOperand : Term → Prop
  | apply _ _ _ => False
  | _ => True

theorem Binds.mono {p q : Nat} (hq : q ≤ p) {t : Term} (h : t.Binds p) : t.Binds q := by
  cases t with
  | apply s l r => exact Nat.le_trans hq h
  | leaf | call | group => trivial

theorem binds_zero (t : Term) : t.Binds 0 := by
  cases t with
  | apply s l r => exact Nat.zero_le _
  | leaf | call | group => trivial

theorem IsOperand.binds {t : Term} (h : t.IsOperand) (p : Nat) : t.Binds p := by
  cases t with
  | apply s l r => exact h.elim
  | leaf | call | group => trivial

/-- Induction over the operators outside of brackets. -/
theorem onOperators {P : Term → Prop} (operand : ∀ t, t.IsOperand → P t)
    (apply : ∀ s l r, P l → P r → P (apply s l r)) : ∀ t, P t
  | .apply s l r => apply s l r (onOperators operand apply l) (onOperators operand apply r)
  | .leaf t => operand (.leaf t) trivial
  | .call c args => operand (.call c args) trivial
  | .group e => operand (.group e) trivial

theorem tokens_ne_nil (t : Term) : t.tokens ≠ [] := by
  cases t <;> simp [tokens, bracketed]

/-! ## Making ordered trees -/

/-- Puts an operator and its right operand behind a tree, as far up as it binds. -/
def graft (t : Term) (s : Token) (p : Term) : Term :=
  match t with
  | apply s' l r =>
    if (sign s').precedence < (sign s).precedence then apply s' l (r.graft s p)
    else apply s t p
  | t => apply s t p

section
variable {s : Token} {p t : Term}

theorem tokens_graft : (t.graft s p).tokens = t.tokens ++ s :: p.tokens := by
  fun_induction Term.graft t s p with
  | case1 s' l r h ih => simp [tokens, ih]
  | case2 => simp [tokens]
  | case3 => simp [tokens]

theorem Fits.graft {r : Resolver} (ht : t.Fits r) (hs : sign s ≠ .negation) (hp : p.Fits r) :
    (t.graft s p).Fits r := by
  fun_induction Term.graft t s p with
  | case1 s' l r h ih =>
    cases ht with
    | apply hs' hl hr => exact .apply hs' hl (ih hr)
  | case2 => exact .apply hs ht hp
  | case3 => exact .apply hs ht hp

theorem Binds.graft {q : Nat} (ht : t.Binds q) (hs : q ≤ (sign s).precedence) :
    (t.graft s p).Binds q := by
  fun_induction Term.graft t s p with
  | case1 s' l r h ih => exact ht
  | case2 => exact hs
  | case3 => exact hs

theorem Ordered.graft (ht : t.Ordered) (hp : p.Ordered) (ho : p.IsOperand) :
    (t.graft s p).Ordered := by
  fun_induction Term.graft t s p with
  | case1 s' l r h ih =>
    cases ht with
    | apply hl hr hlb hrb => exact .apply hl (ih hr) hlb (hrb.graft h)
  | case2 s' l r h => exact .apply ht hp (Nat.le_of_not_lt h) (ho.binds _)
  | case3 t ht' =>
    refine .apply ht hp ?_ (ho.binds _)
    cases t with
    | apply s' l r => exact absurd rfl (ht' s' l r)
    | leaf | call | group => trivial

end

/-! ## Operands and operators in a row -/

/-- The leftmost operand. -/
def head : Term → Term
  | apply _ l _ => l.head
  | t => t

/-- The operators outside of brackets, each with the operand behind it. -/
def tail : Term → List (Token × Term)
  | apply s l r => l.tail ++ (s, r.head) :: r.tail
  | _ => []

/-- The tokens of operators and the operands behind them. -/
def rowTokens (ps : List (Token × Term)) : List Token :=
  ps.flatMap fun q => q.1 :: q.2.tokens

/-- The tree of operands with operators between them. -/
def build (t : Term) (ps : List (Token × Term)) : Term :=
  ps.foldl (fun t q => t.graft q.1 q.2) t

section
variable {t : Term} {r : Resolver} {p : Nat}

theorem head_eq (h : t.IsOperand) : t.head = t := by
  cases t with
  | apply => exact h.elim
  | leaf | call | group => rfl

theorem tail_eq (h : t.IsOperand) : t.tail = [] := by
  cases t with
  | apply => exact h.elim
  | leaf | call | group => rfl

theorem tokens_eq (t : Term) : t.tokens = t.head.tokens ++ rowTokens t.tail := by
  induction t using onOperators with
  | operand t h => simp [head_eq h, tail_eq h, rowTokens]
  | apply s l r ihl ihr =>
    rw [tokens, ihl, ihr]
    simp [head, tail, rowTokens]

theorem isOperand_head (t : Term) : t.head.IsOperand := by
  induction t using onOperators with
  | operand t h => rw [head_eq h]; exact h
  | apply s l r ihl _ => exact ihl

theorem isOperand_tail (t : Term) : ∀ q ∈ t.tail, q.2.IsOperand := by
  induction t using onOperators with
  | operand t h => simp [tail_eq h]
  | apply s l r ihl ihr =>
    exact List.forall_mem_append.2 ⟨ihl, List.forall_mem_cons.2 ⟨r.isOperand_head, ihr⟩⟩

theorem Fits.head (h : t.Fits r) : t.head.Fits r := by
  induction t using onOperators with
  | operand t ht => rw [head_eq ht]; exact h
  | apply s l r ihl _ =>
    cases h with
    | apply _ hl _ => exact ihl hl

theorem Fits.tail (h : t.Fits r) : ∀ q ∈ t.tail, sign q.1 ≠ .negation ∧ q.2.Fits r := by
  induction t using onOperators with
  | operand t ht => simp [tail_eq ht]
  | apply s l r ihl ihr =>
    cases h with
    | apply hs hl hr =>
      exact List.forall_mem_append.2 ⟨ihl hl, List.forall_mem_cons.2 ⟨⟨hs, hr.head⟩, ihr hr⟩⟩

theorem Ordered.head (h : t.Ordered) : t.head.Ordered := by
  induction t using onOperators with
  | operand t ht => rw [head_eq ht]; exact h
  | apply s l r ihl _ =>
    cases h with
    | apply hl => exact ihl hl

/-- All operators outside of brackets bind as tightly as the one at the root. -/
theorem Ordered.tail (h : t.Ordered) (hp : t.Binds p) :
    ∀ q ∈ t.tail, p ≤ (sign q.1).precedence ∧ q.2.Ordered := by
  induction t using onOperators generalizing p with
  | operand t ht => simp [tail_eq ht]
  | apply s l r ihl ihr =>
    cases h with
    | apply hl hr hlb hrb =>
      have hp : p ≤ (sign s).precedence := hp
      exact List.forall_mem_append.2 ⟨ihl hl (hlb.mono hp), List.forall_mem_cons.2
        ⟨⟨hp, hr.head⟩, ihr hr (hrb.mono (Nat.le_succ_of_le hp))⟩⟩

/-- Operators that bind tighter are put into the right operand. -/
theorem build_apply {s : Token} {l t : Term} : ∀ {ps : List (Token × Term)},
    (∀ q ∈ ps, (sign s).precedence < (sign q.1).precedence) →
      build (apply s l t) ps = apply s l (build t ps)
  | [], _ => rfl
  | q :: ps, h => by
    rw [List.forall_mem_cons] at h
    show build (graft (apply s l t) q.1 q.2) ps = apply s l (build (t.graft q.1 q.2) ps)
    rw [graft, if_pos h.1]
    exact build_apply h.2

theorem graft_of_binds {s : Token} {q : Term} (h : t.Binds (sign s).precedence) :
    t.graft s q = apply s t q := by
  unfold graft
  split
  · next s' l r => rw [if_neg (Nat.not_lt.2 h)]
  · rfl

/-- **An ordered tree is the one that its operands and operators make.** -/
theorem Ordered.build_eq (h : t.Ordered) : build t.head t.tail = t := by
  induction t using onOperators with
  | operand t ht => rw [head_eq ht, tail_eq ht]; rfl
  | apply s l r ihl ihr =>
    cases h with
    | apply hl hr hlb hrb =>
      calc build l.head (l.tail ++ (s, r.head) :: r.tail)
          = build ((build l.head l.tail).graft s r.head) r.tail := by
            rw [build, List.foldl_append]; rfl
        _ = build (Term.apply s l r.head) r.tail := by rw [ihl hl, graft_of_binds hlb]
        _ = Term.apply s l (build r.head r.tail) :=
            build_apply fun q hq => ((hr.tail hrb) q hq).1
        _ = Term.apply s l r := by rw [ihr hr]

end

/-! ## Brackets and commas -/

section
variable {r : Resolver} {t : Term}

/-- Neither a bracket nor a comma. -/
theorem balanced_leaf {t : Token} (h : Readable r t) (n : Nat) : Balanced n [t] := by
  cases t with
  | identifier | integer | float | boolean | string =>
    exact .token (fun _ => rfl) (by simp) (by simp)
  | keyword | operator | compound | bracket | punctuation => exact h.elim

theorem balanced_sign {s : Token} (h : sign s ≠ .negation) (n : Nat) : Balanced n [s] := by
  cases s with
  | operator o => exact .token (fun _ => rfl) (by simp) (by simp)
  | keyword k => exact .token (fun _ => rfl) (by simp) (by simp)
  | identifier | integer | float | boolean | string | compound | bracket | punctuation =>
    exact absurd rfl h

theorem balanced_joined {parts : List (List Token)} (h : ∀ ts ∈ parts, Balanced 0 ts) :
    Balanced 1 (joined parts) := by
  cases parts with
  | nil => exact .nil
  | cons part parts =>
    rw [List.forall_mem_cons] at h
    refine .append (h.1.mono (by decide)) ?_
    induction parts with
    | nil => exact .nil
    | cons part' parts ih =>
      obtain ⟨h₀, h⟩ := h
      rw [List.forall_mem_cons] at h
      rw [List.flatMap_cons]
      refine .append (.append (a := [_]) (.token (fun _ => rfl) (by simp) (by simp)) ?_)
        (ih ⟨h₀, h.2⟩)
      exact h.1.mono (by decide)

theorem Fits.balanced (h : t.Fits r) : Balanced 0 t.tokens := by
  induction h with
  | leaf h =>
    rw [tokens]
    exact balanced_leaf h 0
  | @call c args hc hn ha ih =>
    rw [tokens]
    refine .append (a := [_]) ?_ (.bracketed (balanced_joined ?_))
    · cases c <;> exact .token (fun _ => rfl) (by simp [Callee.token]) (by simp [Callee.token])
    · simpa using ih
  | group h ih =>
    rw [tokens]
    exact .bracketed (ih.mono (by decide))
  | apply hs _ _ ihl ihr =>
    rw [tokens]
    exact .append ihl (.append (a := [_]) (balanced_sign hs 0) ihr)

/-- Arguments are told apart by the commas between them. -/
theorem splitCommas_joined {parts : List (List Token)}
    (h : ∀ ts ∈ parts, Balanced 0 ts ∧ ts ≠ []) : splitCommas (joined parts) = parts := by
  cases parts with
  | nil => rfl
  | cons part parts =>
    rw [List.forall_mem_cons] at h
    obtain ⟨⟨hb, hne⟩, h⟩ := h
    rw [splitCommas, if_neg (by simp [joined, hne])]
    show splitCommasFrom 0 (part ++ parts.flatMap _) = _
    induction parts generalizing part with
    | nil => simpa using hb.splitCommasFrom_eq
    | cons part' parts ih =>
      rw [List.forall_mem_cons] at h
      rw [List.flatMap_cons, List.cons_append, hb.splitCommasFrom_comma,
        ih part' h.2 h.1.1 h.1.2]

theorem balanced_args {args : List Term} (h : ∀ e ∈ args, Fits r e) :
    Balanced 1 (joined (args.map tokens)) :=
  balanced_joined (by simpa using fun e he => (h e he).balanced)

theorem splitCommas_args {args : List Term} (h : ∀ e ∈ args, Fits r e) :
    splitCommas (joined (args.map tokens)) = args.map tokens :=
  splitCommas_joined (by simpa using fun e he => ⟨(h e he).balanced, e.tokens_ne_nil⟩)

/-- The brackets around balanced tokens tell where they end. -/
theorem bracketed_append {a b a' b' : List Token} (ha : Balanced 1 a) (ha' : Balanced 1 a')
    (h : bracketed a ++ b = bracketed a' ++ b') : a = a' ∧ b = b' := by
  simp only [bracketed, List.cons_append, List.append_assoc, List.nil_append, List.cons.injEq,
    true_and] at h
  have hc := congrArg (splitClose 0) h
  rw [ha.splitClose, ha'.splitClose] at hc
  simpa using hc

end

/-! ## Trees with the same tokens -/

/-- A syntax tree in which everything can be read, used and called, and that is ordered. -/
structure Proper (r : Resolver) (t : Term) : Prop where
  fits : t.Fits r
  ordered : t.Ordered

/-- Operators with the operands behind them. -/
def IsRow (r : Resolver) (ps : List (Token × Term)) : Prop :=
  ∀ q ∈ ps, sign q.1 ≠ .negation ∧ q.2.Proper r ∧ q.2.IsOperand

/-- What follows an operand does not open a bracket. -/
def OpensNothing (rest : List Token) : Prop :=
  rest.head? ≠ some (.bracket .openRound)

section
variable {r : Resolver} {t : Term} {n : Nat}

theorem Proper.head (h : t.Proper r) : t.head.Proper r :=
  ⟨h.fits.head, h.ordered.head⟩

theorem Proper.isRow_tail (h : t.Proper r) : IsRow r t.tail := fun q hq =>
  ⟨(h.fits.tail q hq).1, ⟨(h.fits.tail q hq).2, (h.ordered.tail t.binds_zero q hq).2⟩,
    t.isOperand_tail q hq⟩

theorem Proper.group (h : (group t).Proper r) : t.Proper r := by
  obtain ⟨hf, ho⟩ := h
  cases hf with
  | group hf =>
    cases ho with
    | group ho => exact ⟨hf, ho⟩

theorem Proper.args {c : Callee} {args : List Term} (h : (call c args).Proper r) :
    ∀ e ∈ args, e.Proper r := by
  obtain ⟨hf, ho⟩ := h
  cases hf with
  | call _ _ hf =>
    cases ho with
    | call _ ho => exact fun e he => ⟨hf e he, ho e he⟩

theorem IsRow.opensNothing {ps : List (Token × Term)} (h : IsRow r ps) :
    OpensNothing (rowTokens ps) := by
  cases ps with
  | nil => simp [OpensNothing, rowTokens]
  | cons q ps =>
    intro he
    have hq : q.1 = .bracket .openRound := by simpa [rowTokens] using he
    exact (h q (by simp)).1 (by rw [hq]; rfl)

/-- Trees of less than `n` tokens are told apart by their tokens. -/
def Distinct (r : Resolver) (n : Nat) : Prop :=
  ∀ t t' : Term, t.tokens.length < n → t.Proper r → t'.Proper r → t.tokens = t'.tokens → t = t'

theorem Distinct.mono {m : Nat} (h : Distinct r n) (hm : m ≤ n) : Distinct r m :=
  fun t t' hl => h t t' (Nat.lt_of_lt_of_le hl hm)

theorem Distinct.args {es es' : List Term} (hd : Distinct r n)
    (hn : ∀ e ∈ es, e.tokens.length < n) (h : ∀ e ∈ es, e.Proper r) (h' : ∀ e ∈ es', e.Proper r)
    (he : es.map tokens = es'.map tokens) : es = es' := by
  induction es generalizing es' with
  | nil => simpa [eq_comm] using he
  | cons e es ih =>
    cases es' with
    | nil => cases he
    | cons e' es' =>
      rw [List.map_cons, List.map_cons, List.cons.injEq] at he
      rw [List.forall_mem_cons] at hn h h'
      rw [hd e e' hn.1 h.1 h'.1 he.1, ih hn.2 h.2 h'.2 he.2]

/-- Operands are told apart by the tokens in front. -/
theorem Distinct.operand {p p' : Term} {a b : List Token} (hd : Distinct r p.tokens.length)
    (hp : p.Proper r) (hp' : p'.Proper r) (hi : p.IsOperand) (hi' : p'.IsOperand)
    (ha : OpensNothing a) (hb : OpensNothing b) (h : p.tokens ++ a = p'.tokens ++ b) :
    p = p' ∧ a = b := by
  -- operands of different kinds begin with different tokens
  have leaf_call : ∀ {t : Token} {c : Callee} {args : List Term} {a b : List Token},
      OpensNothing a → (leaf t).tokens ++ a ≠ (call c args).tokens ++ b := by
    intro t c args a b ha he
    simp only [tokens, bracketed, List.cons_append, List.nil_append, List.cons.injEq] at he
    exact ha (by rw [he.2]; rfl)
  have leaf_group : ∀ {t : Token} {e : Term} {a b : List Token}, (leaf t).Fits r →
      (leaf t).tokens ++ a ≠ (group e).tokens ++ b := by
    rintro t e a b ⟨ht⟩ he
    simp only [tokens, bracketed, List.cons_append, List.cons.injEq] at he
    rw [he.1] at ht
    exact ht
  have call_group : ∀ {c : Callee} {args : List Term} {e : Term} {a b : List Token},
      (call c args).tokens ++ a ≠ (group e).tokens ++ b := by
    intro c args e a b he
    simp only [tokens, bracketed, List.cons_append, List.cons.injEq] at he
    cases c <;> cases he.1
  cases p with
  | apply => exact hi.elim
  | leaf t =>
    cases p' with
    | apply => exact hi'.elim
    | leaf => simpa [tokens] using h
    | call => exact absurd h (leaf_call ha)
    | group => exact absurd h (leaf_group hp.fits)
  | group e =>
    cases p' with
    | apply => exact hi'.elim
    | leaf => exact absurd h.symm (leaf_group hp'.fits)
    | call => exact absurd h.symm call_group
    | group e' =>
      simp only [tokens] at h
      obtain ⟨h, hab⟩ := bracketed_append (hp.group.fits.balanced.mono (by decide))
        (hp'.group.fits.balanced.mono (by decide)) h
      have hlt : e.tokens.length < (group e).tokens.length := by
        rw [tokens, length_bracketed]
        omega
      rw [hd e e' hlt hp.group hp'.group h]
      exact ⟨rfl, hab⟩
  | call c args =>
    cases p' with
    | apply => exact hi'.elim
    | leaf => exact absurd h.symm (leaf_call hb)
    | group => exact absurd h call_group
    | call c' args' =>
      simp only [tokens, tokensAll_eq_map, List.cons_append, List.cons.injEq] at h
      obtain ⟨hc, h⟩ := h
      have hf := fun e he => (hp.args e he).fits
      have hf' := fun e he => (hp'.args e he).fits
      obtain ⟨h, hab⟩ := bracketed_append (balanced_args hf) (balanced_args hf') h
      have hparts := congrArg splitCommas h
      rw [splitCommas_args hf, splitCommas_args hf'] at hparts
      rw [Callee.token_injective hc, hd.args (fun e he => ?_) hp.args hp'.args hparts]
      · exact ⟨rfl, hab⟩
      · have hl : e.tokens.length ≤ (joined (args.map tokens)).length := by
          refine length_of_mem_splitCommas ?_
          rw [splitCommas_args hf]
          exact List.mem_map_of_mem he
        simp only [tokens, tokensAll_eq_map, bracketed, List.length_cons, List.length_append]
        omega

/-- Operands with operators between them are told apart by their tokens. -/
theorem Distinct.row {p p' : Term} {ps ps' : List (Token × Term)} (hd : Distinct r n)
    (hp : p.Proper r) (hp' : p'.Proper r) (hi : p.IsOperand) (hi' : p'.IsOperand)
    (hps : IsRow r ps) (hps' : IsRow r ps') (hn : (p.tokens ++ rowTokens ps).length ≤ n)
    (h : p.tokens ++ rowTokens ps = p'.tokens ++ rowTokens ps') : p = p' ∧ ps = ps' := by
  induction ps generalizing p p' ps' with
  | nil =>
    obtain ⟨rfl, hrow⟩ := (hd.mono (by simp at hn; omega)).operand hp hp' hi hi'
      hps.opensNothing hps'.opensNothing h
    cases ps' with
    | nil => exact ⟨rfl, rfl⟩
    | cons q' ps' => cases hrow
  | cons q ps ih =>
    obtain ⟨rfl, hrow⟩ := (hd.mono (by simp at hn; omega)).operand hp hp' hi hi'
      hps.opensNothing hps'.opensNothing h
    cases ps' with
    | nil => cases hrow
    | cons q' ps' =>
      obtain ⟨hq, hps⟩ := List.forall_mem_cons.1 hps
      obtain ⟨hq', hps'⟩ := List.forall_mem_cons.1 hps'
      simp only [rowTokens, List.flatMap_cons, List.cons_append, List.cons.injEq] at hrow hn
      obtain ⟨ht, hps⟩ := ih hq.2.1 hq'.2.1 hq.2.2 hq'.2.2 hps hps'
        (by simp [rowTokens] at hn ⊢; omega) hrow.2
      refine ⟨rfl, ?_⟩
      rw [Prod.ext hrow.1 ht, hps]

theorem distinct (r : Resolver) (n : Nat) : Distinct r n := by
  induction n with
  | zero => exact fun t t' hl => absurd hl (Nat.not_lt_zero _)
  | succ n ih =>
    intro t t' hn hp hp' h
    rw [tokens_eq t] at hn
    rw [tokens_eq t, tokens_eq t'] at h
    obtain ⟨hh, ht⟩ := ih.row hp.head hp'.head t.isOperand_head t'.isOperand_head hp.isRow_tail
      hp'.isRow_tail (Nat.le_of_lt_succ hn) h
    rw [← hp.ordered.build_eq, ← hp'.ordered.build_eq, hh, ht]

/-- **Ordered trees with the same tokens are equal.** -/
theorem Proper.ext {t t' : Term} (h : t.Proper r) (h' : t'.Proper r) (ht : t.tokens = t'.tokens) :
    t = t' :=
  distinct r _ t t' (Nat.lt_succ_self _) h h' ht

end

end Term

end Naskah.Expression
