/-
  The meaning of expressions that call no functions.  A formula is what is left of an expression
  when brackets and spelling are gone; its value is computed from left to right, both sides of every
  operator included, and what it prints is added to the output (`Formula.eval`).

  The formula of a syntax tree is given by its leaves and signs; a hole of a string has the formula
  of the tokens that it was compiled from (`Means`).  Tokens in which no name stands before a round
  bracket, in the holes of their strings neither (`CallFree`), have a formula
  (`CallFree.exists_denotes`).
-/
import Naskah.Machine.Arithmetic
import Naskah.Proofs.Expression.Silent

namespace Naskah.Expression

/-! ## Formulas -/

inductive Formula
  | const (v : Value)
  | name (x : String)
  /-- The texts of some values, joined. -/
  | join (parts : List Formula)
  /-- Prints the texts of some values in one line. -/
  | print (args : List Formula)
  | binary (op : Operation) (l r : Formula)
  | compare (c : Comparison) (l r : Formula)

/-- Computations that print lines and may fail. -/
abbrev Evaluation := EStateM Fault (Array String)

namespace Evaluation

/-- An outcome that prints nothing. -/
def lift {α : Type} : Except Fault α → Evaluation α
  | .ok a => pure a
  | .error e => throw e

/-- Calls with one text what stands under the name of the builtin. -/
def call (line : String) : Value → Evaluation Value
  | .builtin .print => do
    modify fun out => out.push line
    return .null
  | v => throw (.notCallable v.kind)

end Evaluation

/-- The texts of values, joined. -/
def textOf (vs : List Value) : String :=
  String.join (vs.map Value.text)

open Evaluation

mutual

/-- The value of a formula, when `look` says what names mean. -/
def Formula.eval (look : String → Except Fault Value) : Formula → Evaluation Value
  | .const v => return v
  | .name x => lift (look x)
  | .join parts => do return .string (textOf (← evalAll look parts))
  | .print args => do
    let callee ← lift (look Builtin.print.name)
    call (textOf (← evalAll look args)) callee
  | .binary op l r => do
    let a ← l.eval look
    let b ← r.eval look
    lift (op.apply a b)
  | .compare c l r => do
    let a ← l.eval look
    let b ← r.eval look
    return .bool (← lift (c.apply a b))

def evalAll (look : String → Except Fault Value) : List Formula → Evaluation (List Value)
  | [] => return []
  | f :: fs => do
    let v ← f.eval look
    return v :: (← evalAll look fs)

end

/-! ## Formulas of trees -/

/-- The value that a literal is written for. -/
def literal? : Token → Option Value
  | .integer l => (int64OfString? l.text).map .int
  | .float l => (Decimal.floatOfString? l.text).map .float
  | .boolean l => some (.bool (l.text.toList.map Char.toLower == "benar".toList))
  | _ => none

mutual

/-- The formula of a tree in which no function is called. -/
inductive Means : Term → Formula → Prop
  | literal {t : Token} {v : Value} (h : literal? t = some v) : Means (.leaf t) (.const v)
  | name (l : Literal) : Means (.leaf (.identifier l)) (.name l.text)
  | string {s : StringLiteral} {fs : List Formula} (h : PartsMean s.parts fs) :
      Means (.leaf (.string s)) (.join fs)
  | print {args : List Term} {fs : List Formula} (h : AllMean args fs) :
      Means (.call .print args) (.print fs)
  | group {e : Term} {f : Formula} (h : Means e f) : Means (.group e) f
  | binary {s : Token} {op : Operation} {l r : Term} {a b : Formula}
      (hs : sign s = .binary op) (hl : Means l a) (hr : Means r b) :
      Means (.apply s l r) (.binary op a b)
  | compare {s : Token} {c : Comparison} {l r : Term} {a b : Formula}
      (hs : sign s = .compare c) (hl : Means l a) (hr : Means r b) :
      Means (.apply s l r) (.compare c a b)

/-- The formulas of trees, in order. -/
inductive AllMean : List Term → List Formula → Prop
  | nil : AllMean [] []
  | cons {t : Term} {f : Formula} {ts : List Term} {fs : List Formula} (h : Means t f)
      (hs : AllMean ts fs) : AllMean (t :: ts) (f :: fs)

/-- The formulas of the parts of a string. -/
inductive PartsMean : List StringPart → List Formula → Prop
  | nil : PartsMean [] []
  | text (s : String) {parts : List StringPart} {fs : List Formula} (hs : PartsMean parts fs) :
      PartsMean (.text s :: parts) (.const (.string s) :: fs)
  | hole {r : Resolver} {line : UInt32} {ts : List Token} {code : List Asm} {t : Term} {f : Formula}
      {parts : List StringPart} {fs : List Formula} (hc : compile r line ts = .ok code)
      (ht : t.Proper r) (he : t.tokens = visible ts) (h : Means t f) (hs : PartsMean parts fs) :
      PartsMean (.hole code :: parts) (f :: fs)

end

/-- The formula of tokens: that of the ordered tree that has them, the silent ones left out. -/
def Denotes (r : Resolver) (ts : List Token) (f : Formula) : Prop :=
  ∃ t : Term, t.Proper r ∧ t.tokens = visible ts ∧ Means t f

/-! ## Tokens without calls -/

mutual

/-- Tokens in which no function is called, in the holes of their strings neither. -/
inductive CallFree : List Token → Prop
  | intro {ts : List Token} (hcall : ∀ l, ¬ [.identifier l, .bracket .openRound] <:+: visible ts)
      (hholes : ∀ s, .string s ∈ ts → ∀ code, .hole code ∈ s.parts → CallFreeCode code) :
      CallFree ts

/-- The code of such tokens. -/
inductive CallFreeCode : List Asm → Prop
  | intro {r : Resolver} {line : UInt32} {ts : List Token} {code : List Asm}
      (hc : compile r line ts = .ok code) (hf : CallFree ts) : CallFreeCode code

end

/-- A hole with a formula. -/
def HoleMeans (code : List Asm) : Prop :=
  ∃ r line ts f, compile r line ts = .ok code ∧ Denotes r ts f

theorem exists_partsMean {parts : List StringPart}
    (h : ∀ code, .hole code ∈ parts → HoleMeans code) : ∃ fs, PartsMean parts fs := by
  induction parts with
  | nil => exact ⟨[], .nil⟩
  | cons part parts ih =>
    obtain ⟨fs, hfs⟩ := ih fun code hc => h code (List.mem_cons_of_mem _ hc)
    cases part with
    | text s => exact ⟨_, .text s hfs⟩
    | hole code =>
      obtain ⟨r, line, ts, f, hc, t, ht, he, hf⟩ := h code (by simp)
      exact ⟨_, .hole hc ht he hf hfs⟩

theorem exists_allMean {args : List Term} (h : ∀ e ∈ args, ∃ f, Means e f) :
    ∃ fs, AllMean args fs := by
  induction args with
  | nil => exact ⟨[], .nil⟩
  | cons e args ih =>
    rw [List.forall_mem_cons] at h
    obtain ⟨f, hf⟩ := h.1
    obtain ⟨fs, hfs⟩ := ih h.2
    exact ⟨_, .cons hf hfs⟩

theorem infix_joined {part : List Token} {parts : List (List Token)} (h : part ∈ parts) :
    part <:+: joined parts := by
  induction parts with
  | nil => cases h
  | cons first parts ih =>
    rcases List.mem_cons.1 h with rfl | h
    · exact (List.prefix_append _ _).isInfix
    · rw [joined_cons (List.ne_nil_of_mem h)]
      exact (ih h).trans ((List.suffix_cons _ _).trans (List.suffix_append _ _)).isInfix

theorem infix_bracketed (ts : List Token) : ts <:+: bracketed ts :=
  ⟨[.bracket .openRound], [.bracket .closeRound], rfl⟩

/-- A tree has a formula if the holes of its strings have one and it calls no function. -/
theorem Term.Fits.exists_means {r : Resolver} {t : Term} (h : t.Fits r)
    (hcall : ∀ l, ¬ [.identifier l, .bracket .openRound] <:+: t.tokens)
    (hholes : ∀ s, .string s ∈ t.tokens → ∀ code, .hole code ∈ s.parts → HoleMeans code) :
    ∃ f, Means t f := by
  induction h with
  | @leaf t ht =>
    cases t with
    | identifier l => exact ⟨_, .name l⟩
    | integer l =>
      obtain ⟨n, hn⟩ := Option.isSome_iff_exists.1 ht
      exact ⟨_, .literal (v := .int n) (by rw [literal?, hn]; rfl)⟩
    | float l =>
      obtain ⟨x, hx⟩ := Option.isSome_iff_exists.1 ht
      exact ⟨_, .literal (v := .float x) (by rw [literal?, hx]; rfl)⟩
    | boolean l => exact ⟨_, .literal rfl⟩
    | string s =>
      obtain ⟨fs, hfs⟩ := exists_partsMean (hholes s (by rw [Term.tokens]; simp))
      exact ⟨_, .string hfs⟩
    | keyword | operator | compound | bracket | punctuation => exact ht.elim
  | @call c args _ _ _ ih =>
    rw [Term.tokens, Term.tokensAll_eq_map] at hcall hholes
    cases c with
    | function l =>
      exact absurd (List.IsPrefix.isInfix ⟨_, rfl⟩) (hcall l)
    | print =>
      have hsub : ∀ e ∈ args, e.tokens <:+: Callee.token .print ::
          bracketed (joined (args.map Term.tokens)) := fun e he =>
        (infix_joined (List.mem_map_of_mem he)).trans
          ((infix_bracketed _).trans (List.suffix_cons _ _).isInfix)
      obtain ⟨fs, hfs⟩ := exists_allMean fun e he => ih e he
        (fun l hl => hcall l (hl.trans (hsub e he)))
        (fun s hs => hholes s ((hsub e he).subset hs))
      exact ⟨_, .print hfs⟩
  | group _ ih =>
    rw [Term.tokens] at hcall hholes
    obtain ⟨f, hf⟩ := ih (fun l hl => hcall l (hl.trans (infix_bracketed _)))
      (fun s hs => hholes s ((infix_bracketed _).subset hs))
    exact ⟨f, .group hf⟩
  | @apply s lhs rhs hs _ _ ihl ihr =>
    rw [Term.tokens] at hcall hholes
    have hl : lhs.tokens <:+: lhs.tokens ++ s :: rhs.tokens := (List.prefix_append _ _).isInfix
    have hr : rhs.tokens <:+: lhs.tokens ++ s :: rhs.tokens :=
      ((List.suffix_cons _ _).trans (List.suffix_append _ _)).isInfix
    obtain ⟨a, ha⟩ := ihl (fun l h => hcall l (h.trans hl)) (fun s h => hholes s (hl.subset h))
    obtain ⟨b, hb⟩ := ihr (fun l h => hcall l (h.trans hr)) (fun s h => hholes s (hr.subset h))
    cases ho : sign s with
    | binary op => exact ⟨_, .binary ho ha hb⟩
    | compare c => exact ⟨_, .compare ho ha hb⟩
    | negation => exact absurd ho hs

mutual

/-- **Tokens without calls have a formula.** -/
theorem CallFree.exists_denotes {r : Resolver} {line : UInt32} {ts : List Token} {code : List Asm}
    (hc : compile r line ts = .ok code) : CallFree ts → ∃ f, Denotes r ts f
  | .intro hcall hholes => by
    obtain ⟨t, ht, he⟩ := exists_tree hc
    obtain ⟨f, hf⟩ := ht.fits.exists_means (by rw [he]; exact hcall) fun s hs code hcode =>
      (hholes s (List.mem_of_mem_filter (he ▸ hs)) code hcode).holeMeans
    exact ⟨f, t, ht, he, hf⟩

theorem CallFreeCode.holeMeans {code : List Asm} : CallFreeCode code → HoleMeans code
  | .intro hc hf => by
    obtain ⟨f, hf⟩ := hf.exists_denotes hc
    exact ⟨_, _, _, f, hc, hf⟩

end

end Naskah.Expression
