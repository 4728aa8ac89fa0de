/-
  The grammar of expressions.  A run of tokens compiles if and only if it can be derived from the
  grammar, and its code is then that of the one ordered tree that has these tokens (`compile_iff`).

  What can be derived has an ordered tree (`Derives.hasTree`), which compiles.  What has been read
  as items is an operand at first, and then operators with the operands behind them, up to the
  brackets that close (`Continues`).
-/
import Naskah.Proofs.Expression.Code
import Naskah.Proofs.Expression.Compiled

namespace Naskah.Expression

/-! ## Derivations -/

/-- What tokens can be derived as.  Arguments are counted. -/
inductive Nonterminal
  | expression
  | operand
  | arguments (n : Nat)

/-- Tokens that can be derived from the grammar, with the names that a resolver accepts. -/
inductive Derives (r : Resolver) : Nonterminal → List Token → Prop
  | operand {ts : List Token} (h : Derives r .operand ts) : Derives r .expression ts
  | apply {a b : List Token} {s : Token} {o : Operator} (ha : Derives r .expression a)
      (hs : operator? s = some o) (ho : o ≠ .negation) (hb : Derives r .operand b) :
      Derives r .expression (a ++ s :: b)
  | leaf {t : Token} (h : Readable r t) : Derives r .operand [t]
  | group {ts : List Token} (h : Derives r .expression ts) : Derives r .operand (bracketed ts)
  | call {c : Callee} {n : Nat} {ts : List Token} (hc : c.check r = .ok ()) (hn : c.Accepts n)
      (h : Derives r (.arguments n) ts) : Derives r .operand (c.token :: bracketed ts)
  | none : Derives r (.arguments 0) []
  | one {ts : List Token} (h : Derives r .expression ts) : Derives r (.arguments 1) ts
  | more {n : Nat} {a b : List Token} (ha : Derives r .expression a)
      (hb : Derives r (.arguments (n + 1)) b) :
      Derives r (.arguments (n + 2)) (a ++ .punctuation .comma :: b)

section
variable {r : Resolver} {N : Nonterminal} {ts : List Token}

theorem joined_cons {parts : List (List Token)} (h : parts ≠ []) (part : List Token) :
    joined (part :: parts) = part ++ .punctuation .comma :: joined parts := by
  cases parts with
  | nil => exact absurd rfl h
  | cons first parts => simp [joined]

/-- Expressions with commas between them are arguments. -/
theorem derives_joined {parts : List (List Token)} (h : ∀ ts ∈ parts, Derives r .expression ts) :
    Derives r (.arguments parts.length) (joined parts) := by
  induction parts with
  | nil => exact .none
  | cons part parts ih =>
    rw [List.forall_mem_cons] at h
    cases parts with
    | nil => simpa [joined] using Derives.one h.1
    | cons first parts =>
      rw [joined_cons (by simp)]
      exact .more h.1 (ih h.2)

/-! ## Trees of derivations -/

/-- Tokens that an ordered tree has, or some ordered trees with commas between them. -/
def HasTree (r : Resolver) : Nonterminal → List Token → Prop
  | .expression, ts => ∃ t : Term, t.Proper r ∧ t.tokens = ts
  | .operand, ts => ∃ t : Term, t.Proper r ∧ t.IsOperand ∧ t.tokens = ts
  | .arguments n, ts => ∃ es : List Term, es.length = n ∧ (∀ e ∈ es, e.Proper r) ∧
      joined (es.map Term.tokens) = ts

/-- **What can be derived has an ordered tree.** -/
theorem Derives.hasTree (h : Derives r N ts) : HasTree r N ts := by
  induction h with
  | operand _ ih =>
    obtain ⟨t, ht, -, he⟩ := ih
    exact ⟨t, ht, he⟩
  | @apply a b s o _ hs ho _ iha ihb =>
    obtain ⟨t, ht, rfl⟩ := iha
    obtain ⟨p, hp, hi, rfl⟩ := ihb
    have hn : sign s ≠ .negation := by simpa [sign, hs] using ho
    exact ⟨t.graft s p, ⟨ht.fits.graft hn hp.fits, ht.ordered.graft hp.ordered hi⟩,
      Term.tokens_graft⟩
  | @leaf t ht => exact ⟨.leaf t, ⟨.leaf ht, .leaf t⟩, trivial, by rw [Term.tokens]⟩
  | group _ ih =>
    obtain ⟨t, ht, rfl⟩ := ih
    exact ⟨.group t, ⟨.group ht.fits, .group ht.ordered⟩, trivial, by rw [Term.tokens]⟩
  | @call c n ts hc hn _ ih =>
    obtain ⟨es, rfl, hes, rfl⟩ := ih
    exact ⟨.call c es, ⟨.call hc hn fun e he => (hes e he).fits,
      .call c fun e he => (hes e he).ordered⟩, trivial, by simp [Term.tokens]⟩
  | none => exact ⟨[], rfl, by simp, rfl⟩
  | one _ ih =>
    obtain ⟨t, ht, rfl⟩ := ih
    exact ⟨[t], rfl, by simpa using ht, by simp [joined]⟩
  | more _ _ iha ihb =>
    obtain ⟨t, ht, rfl⟩ := iha
    obtain ⟨es, hn, hes, rfl⟩ := ihb
    have hne : es ≠ [] := List.ne_nil_of_length_eq_add_one hn
    exact ⟨t :: es, by simp [hn], List.forall_mem_cons.2 ⟨ht, hes⟩, joined_cons (by simpa using hne) _⟩

/-! ## Pieces of a run -/

theorem joined_prepend (t : Token) {parts : List (List Token)} :
    joined (prepend [t] parts) = t :: joined parts := by
  cases parts <;> simp [prepend, joined]

theorem joined_splitCommas (ts : List Token) : joined (splitCommas ts) = ts := by
  have hfrom : ∀ depth, joined (splitCommasFrom depth ts) = ts := by
    induction ts with
    | nil => exact fun _ => rfl
    | cons t ts ih =>
      intro depth
      by_cases h : t = .punctuation .comma ∧ depth = 0
      · rw [splitCommasFrom, if_pos h, joined_cons (splitCommasFrom_ne_nil _ _), ih, h.1]
        rfl
      · rw [splitCommasFrom_cons h, joined_prepend, ih]
  rw [splitCommas]
  split
  · next h => rw [h]; rfl
  · exact hfrom 0

theorem token_of_callee? {t : Token} {c : Callee} (h : callee? t = some c) : t = c.token := by
  unfold callee? at h
  split at h <;> cases h <;> rfl

/-! ## Items and their code -/

/-- All operands have code. -/
def HasCode (is : List Item) : Prop :=
  ∀ o, .operand o ∈ is → ∃ code, o.code = .ok code

theorem hasCode_cons {i : Item} {is : List Item} :
    HasCode (i :: is) ↔ (∀ o, i = .operand o → ∃ code, o.code = .ok code) ∧ HasCode is := by
  simp only [HasCode, List.mem_cons]
  exact ⟨fun h => ⟨fun o ho => h o (.inl ho.symm), fun o ho => h o (.inr ho)⟩,
    fun h o ho => ho.elim (fun ho => h.1 o ho.symm) (h.2 o)⟩

theorem hasCode_of_foldlM {is : List Item} {pending : List (Option Operator)}
    {groups : List (List Asm)} :
    Ensures ((toPostfix pending is).foldlM combine groups) fun _ => HasCode is := by
  -- operators in front, and an item that is no operand, change nothing
  have skip : ∀ (out : List Postfix) {i : Item} {is : List Item}
      {pending : List (Option Operator)} {groups : List (List Asm)}, (∀ o, i ≠ .operand o) →
      (∀ groups, Ensures ((toPostfix pending is).foldlM combine groups) fun _ => HasCode is) →
      Ensures ((out ++ toPostfix pending is).foldlM combine groups) fun _ => HasCode (i :: is) := by
    intro out i is pending groups hi ih
    rw [List.foldlM_append]
    refine Ensures.after fun groups' _ => ?_
    exact (ih groups').mono fun _ h => hasCode_cons.2 ⟨fun o ho => absurd ho (hi o), h⟩
  induction is generalizing pending groups with
  | nil => exact fun _ _ o ho => absurd ho List.not_mem_nil
  | cons i is ih =>
    cases i with
    | operand o =>
      rw [toPostfix, List.foldlM_cons]
      refine Ensures.bind (P := fun _ => ∃ code, o.code = .ok code) ?_ fun groups' _ hc => ?_
      · rw [combine]
        intro groups' h
        cases hc : o.code with
        | error e => rw [hc] at h; cases h
        | ok code => exact ⟨code, rfl⟩
      · exact ih.mono fun _ h => hasCode_cons.2 ⟨fun o' ho => by cases ho; exact hc, h⟩
    | openRound => exact skip [] (by simp) fun _ => ih
    | closeRound => exact skip _ (by simp) fun _ => ih
    | operator o => exact skip _ (by simp) fun _ => ih

theorem hasCode_of_itemsCode (is : List Item) : Ensures (itemsCode is) fun _ => HasCode is :=
  hasCode_of_foldlM.bind fun _ _ h _ _ => h

/-! ## What is read -/

/-- What follows an operand inside of open brackets: operators with the operands behind them, and
    the brackets that close. -/
inductive Follows (r : Resolver) : Nat → List Token → Prop
  | done : Follows r 0 []
  | sign {depth : Nat} {s : Token} {o : Operator} {p rest : List Token}
      (hs : operator? s = some o) (ho : o ≠ .negation) (hp : Derives r .operand p)
      (h : Follows r depth rest) : Follows r depth (s :: (p ++ rest))
  | close {depth : Nat} {rest : List Token} (h : Follows r depth rest) :
      Follows r (depth + 1) (.bracket .closeRound :: rest)

/-- The expression goes on up to the end, or up to the bracket that closes it. -/
theorem Follows.split {depth : Nat} {rest : List Token} (h : Follows r depth rest) :
    ∃ tail after, rest = tail ++ after ∧
      (∀ a, Derives r .expression a → Derives r .expression (a ++ tail)) ∧
      (depth = 0 ∧ after = [] ∨ ∃ depth' after', depth = depth' + 1 ∧
        after = .bracket .closeRound :: after' ∧ Follows r depth' after') := by
  induction h with
  | done => exact ⟨[], [], rfl, fun a ha => by simpa using ha, .inl ⟨rfl, rfl⟩⟩
  | @sign depth s o p rest hs ho hp h ih =>
    obtain ⟨tail, after, rfl, htail, hafter⟩ := ih
    refine ⟨s :: (p ++ tail), after, by simp, fun a ha => ?_, hafter⟩
    simpa using htail _ (.apply ha hs ho hp)
  | @close depth rest h ih =>
    exact ⟨[], _, rfl, fun a ha => by simpa using ha, .inr ⟨depth, rest, rfl, rfl, h⟩⟩

theorem Follows.derives {a rest : List Token} (h : Follows r 0 rest)
    (ha : Derives r .expression a) : Derives r .expression (a ++ rest) := by
  obtain ⟨tail, after, rfl, htail, ⟨-, rfl⟩ | ⟨depth, after, hd, -⟩⟩ := h.split
  · simpa using htail a ha
  · cases hd

/-- The bracket that an operand stands behind is closed. -/
theorem Follows.group {depth : Nat} {p rest : List Token} (hp : Derives r .operand p)
    (h : Follows r (depth + 1) rest) :
    ∃ ts after, .bracket .openRound :: (p ++ rest) = bracketed ts ++ after ∧
      Derives r .expression ts ∧ Follows r depth after := by
  obtain ⟨tail, after, rfl, htail, ⟨hd, -⟩ | ⟨depth', after', hd, rfl, hafter⟩⟩ := h.split
  · cases hd
  · cases hd
    exact ⟨p ++ tail, after', by simp [bracketed], htail p (.operand hp), hafter⟩

/-- What makes an expression of the items read so far, the latest first. -/
def Ends (r : Resolver) (depth : Nat) (read : List Item) (ts : List Token) : Prop :=
  if isComplete read then Follows r depth ts
  else ∃ p rest, ts = p ++ rest ∧ Derives r .operand p ∧ Follows r depth rest

/-- The items that were read, and those of tokens that make an expression of them. -/
def Parses (r : Resolver) (depth : Nat) (read : List Item) (ts : List Token) (is : List Item) :
    Prop :=
  ∃ rest, is = read.reverse ++ rest ∧ (HasCode rest → Ends r depth read ts)

section
variable {line : UInt32} {depth depth' : Nat} {read is : List Item}

theorem Parses.of_cons {i : Item} {ts' : List Token} (h : Parses r depth' (i :: read) ts' is)
    (hi : (∀ o, i = .operand o → ∃ code, o.code = .ok code) → Ends r depth' (i :: read) ts' →
      Ends r depth read ts) : Parses r depth read ts is := by
  obtain ⟨rest, rfl, hr⟩ := h
  refine ⟨i :: rest, by simp, fun hc => ?_⟩
  rw [hasCode_cons] at hc
  exact hi hc.1 (hr hc.2)

theorem ends_of_operand {p rest : List Token} {o : Operand} (hc : ¬ isComplete read = true)
    (hp : Derives r .operand p) (h : Ends r depth (.operand o :: read) rest) :
    Ends r depth read (p ++ rest) := by
  rw [Ends, if_neg hc]
  exact ⟨p, rest, rfl, hp, h⟩

/-- What is read from its first token on, and has code, is an expression. -/
theorem Parses.derives {code : List Asm} (h : Parses r 0 [] ts is) (hc : itemsCode is = .ok code) :
    Derives r .expression ts := by
  obtain ⟨rest, rfl, hends⟩ := h
  obtain ⟨p, rest, rfl, hp, hrest⟩ := hends (hasCode_of_itemsCode _ code hc)
  exact hrest.derives (.operand hp)

/-- **What is read can be derived.** -/
theorem Itemizes.parses (h : Itemizes r line depth read ts is) (hs : ∀ t ∈ ts, isSilent t = false)
    (hd : read.head? = some .openRound → 0 < depth) : Parses r depth read ts is := by
  induction h with
  | done hc =>
    obtain ⟨rfl, rfl⟩ := of_complete hc
    refine ⟨[], by simp, fun _ => ?_⟩
    rw [Ends, if_pos (isComplete_of_complete hc hd)]
    exact .done
  | silent hsil => exact absurd hsil (by simp [hs])
  | sign ho hn hc _ ih =>
    refine (ih (List.forall_mem_cons.1 hs).2 (by simp)).of_cons fun _ he => ?_
    obtain ⟨p, rest, rfl, hp, hrest⟩ := he
    rw [Ends, if_pos hc]
    exact .sign ho hn hp hrest
  | opens hc _ ih =>
    refine (ih (List.forall_mem_cons.1 hs).2 (by simp)).of_cons fun _ he => ?_
    obtain ⟨p, rest, rfl, hp, hrest⟩ := he
    obtain ⟨ts, after, hts, hg, hafter⟩ := hrest.group hp
    rw [Ends, if_neg (by simp [hc]), hts]
    exact ⟨bracketed ts, after, rfl, .group hg, hafter⟩
  | closes hc _ ih =>
    refine (ih (List.forall_mem_cons.1 hs).2 (by simp)).of_cons fun _ he => ?_
    rw [Ends, if_pos hc]
    exact .close he
  | @call _ _ _ t callee inner after _ args _ hcallee hcheck hsplit hparts hargs hc _ ihparts ih =>
    obtain rfl := eq_of_splitClose hsplit
    simp only [List.forall_mem_cons, List.forall_mem_append] at hs
    obtain ⟨-, -, hinner, -, hafter⟩ := hs
    obtain ⟨hlength, hderives⟩ : args.length = (splitCommas inner).length ∧
        ∀ part ∈ splitCommas inner, Derives r .expression part := by
      refine Ensures.mapM_mem (fun part hpart code hcode => ?_) args hargs
      rw [compile, (hparts part hpart).items_eq] at hcode
      refine (ihparts part hpart (fun t ht => ?_) (by simp)).derives hcode
      exact hinner t (mem_of_mem_splitCommas hpart t ht)
    refine (ih hafter (by simp)).of_cons fun hcode he => ?_
    have hn : callee.Accepts (splitCommas inner).length := by
      obtain ⟨code, hcode⟩ := hcode _ rfl
      rw [← hlength]
      exact Callee.accepts_of_code hcode
    have hcall := Derives.call hcheck hn (derives_joined hderives)
    rw [joined_splitCommas] at hcall
    rw [token_of_callee? hcallee]
    simpa [bracketed] using ends_of_operand (by simp [hc]) hcall he
  | simple _ _ _ _ _ hsimple hc _ ih =>
    refine (ih (List.forall_mem_cons.1 hs).2 (by simp)).of_cons fun _ he => ?_
    exact ends_of_operand (by simp [hc]) (.leaf (readable_of_simpleOperand hsimple)) he

theorem compile_derives (line : UInt32) (hs : ∀ t ∈ ts, isSilent t = false) :
    Ensures (compile r line ts) fun _ => Derives r .expression ts :=
  items_itemizes.bind fun _ _ his _ hcode => (his.parses hs (by simp)).derives hcode

end

end

/-! ## Main statement -/

/-- **Expressions.**  Tokens that an expression does not pass over compile if and only if they can
    be derived from the grammar, and then to the code of the one ordered tree that has them.  (Parts
    of a text are counted in 32 bits, so this is about fewer than `2 ^ 32` of them.) -/
theorem compile_iff (r : Resolver) (line : UInt32) (ts : List Token)
    (hs : ∀ t ∈ ts, isSilent t = false) :
    ((∃ code, compile r line ts = .ok code) ↔ Derives r .expression ts) ∧
      ∀ code, compile r line ts = .ok code →
        ∃ t : Term, t.Proper r ∧ t.tokens = ts ∧ t.code = code ∧
          ∀ t' : Term, t'.Proper r → t'.tokens = ts → t' = t := by
  refine ⟨⟨fun ⟨code, hc⟩ => compile_derives line hs code hc, fun h => ?_⟩, fun code hc => ?_⟩
  · obtain ⟨t, ht, rfl⟩ := h.hasTree
    exact ⟨t.code, ht.compile line⟩
  · obtain ⟨t, ht, rfl⟩ := (compile_derives line hs code hc).hasTree
    rw [ht.compile line] at hc
    cases hc
    exact ⟨t, ht, rfl, rfl, fun t' ht' he => ht'.ext ht he⟩

/-- Two names and a function. -/
def sampleScope : Scope where
  names := ⟨[("a", ⟨.var, .int, 1⟩), ("b", ⟨.const, .int, 1⟩)]⟩
  functions := ⟨["f"]⟩

/-- `a - b - 2 * f(b + 1, tampilkan()) adalah (1 - a)`; comparisons bind tightest. -/
def sampleTokens : List Token :=
  [.identifier ⟨"a", 2⟩, .operator (.binary .sub), .identifier ⟨"b", 2⟩, .operator (.binary .sub),
    .integer ⟨"2", 2⟩, .operator (.binary .mul), .identifier ⟨"f", 2⟩, .bracket .openRound,
    .identifier ⟨"b", 2⟩, .operator (.binary .add), .integer ⟨"1", 2⟩, .punctuation .comma,
    .keyword .print, .bracket .openRound, .bracket .closeRound, .bracket .closeRound,
    .keyword .equal, .bracket .openRound, .integer ⟨"1", 2⟩, .operator (.binary .sub),
    .identifier ⟨"a", 2⟩, .bracket .closeRound]

def sampleCode : List Asm :=
  [.loadName "a", .loadName "b", .binary .sub, .loadConst (.int 2), .loadName "f", .loadName "b",
    .loadConst (.int 1), .binary .add, .loadName Builtin.print.name, .buildString 0, .call 1,
    .call 2, .loadConst (.int 1), .loadName "a", .binary .sub, .compare .eq, .binary .mul,
    .binary .sub].map .op

theorem compile_sample :
    Derives sampleScope .expression sampleTokens ∧
      ∃ t : Term, t.Proper sampleScope ∧ t.tokens = sampleTokens ∧ t.code = sampleCode := by
  have hc : compile sampleScope 2 sampleTokens = .ok sampleCode := by decide +kernel
  have hiff := compile_iff sampleScope 2 sampleTokens (by decide)
  obtain ⟨t, ht, htokens, hcode, -⟩ := hiff.2 sampleCode hc
  exact ⟨hiff.1.1 ⟨sampleCode, hc⟩, t, ht, htokens, hcode⟩

end Naskah.Expression
