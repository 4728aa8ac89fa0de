/-
  The tokens of an expression compile to its code (`compile_tokens`).  They are those of a syntax
  tree (`Expr.term`) in which every operator stands between brackets of its own, so that
  precedence has nothing to decide.
-/
import Naskah.Proofs.Expression.Compiled
import Naskah.Proofs.Token.Spelling

namespace Naskah

namespace Tree

open Expression

/-! ## Tokens -/

/-- The symbolic code of an expression. -/
def Expr.asm (e : Expr) : List Asm :=
  e.code.map .op

/-- The parts of a string up to its last hole. -/
def Template.holes : Template → List StringPart
  | .last _ => []
  | .hole s e rest => .text s :: .hole e.asm :: rest.holes

/-- The text after the last hole. -/
def Template.lastText : Template → String
  | .last s => s
  | .hole _ _ rest => rest.lastText

/-- The parts of a string. -/
def Template.parts (t : Template) : List StringPart :=
  Desk.closingParts t.holes t.lastText

mutual

/-- The tokens of an expression on a line. -/
def Expr.tokens (line : UInt32) : Expr → List Token
  | .int n => [.integer ⟨String.ofList (Nat.toDigits 10 n), line⟩]
  | .float w => [.float ⟨w, line⟩]
  | .bool b => [.boolean ⟨truthWord b, line⟩]
  | .string _ t => [.string ⟨t.parts, line⟩]
  | .name x => [.identifier ⟨x, line⟩]
  | .call f args =>
    .identifier ⟨f, line⟩ ::
      (.bracket .openRound :: argTokens line args ++ [.bracket .closeRound])
  | .print args =>
    .keyword .print :: (.bracket .openRound :: argTokens line args ++ [.bracket .closeRound])
  | .apply o l r =>
    .bracket .openRound :: (l.tokens line ++ [o.token] ++ r.tokens line) ++ [.bracket .closeRound]

def argTokens (line : UInt32) : List Expr → List Token
  | [] => []
  | e :: es => e.tokens line ++ moreTokens line es

def moreTokens (line : UInt32) : List Expr → List Token
  | [] => []
  | e :: es => .punctuation .comma :: e.tokens line ++ moreTokens line es

end

theorem Expr.tokens_ne_nil (line : UInt32) (e : Expr) : e.tokens line ≠ [] := by
  cases e <;> simp [Expr.tokens]

/-! ## Strings -/

/-- The code of the texts and holes of a string, one group for each that has code. -/
def Template.groups (t : Template) : List (List Asm) :=
  t.parts.filterMap partCode?

theorem filterMap_text (s : String) :
    [StringPart.text s].filterMap partCode? =
      if s = "" then [] else [[.op (.loadConst (.string s))]] := by
  by_cases hs : s = "" <;> simp [partCode?, hs]

/-- The last text is left out only if it has no code. -/
theorem Template.groups_eq (t : Template) :
    t.groups = t.holes.filterMap partCode? ++ [StringPart.text t.lastText].filterMap partCode? := by
  rw [groups, parts, Desk.closingParts]
  split
  · rw [List.filterMap_append]
  · next h =>
    rw [not_or, not_not] at h
    rw [filterMap_text, if_pos h.1, List.append_nil]

theorem Template.groups_hole (s : String) (e : Expr) (rest : Template) :
    (Template.hole s e rest).groups =
      [StringPart.text s].filterMap partCode? ++ e.asm :: rest.groups := by
  rw [groups_eq, groups_eq, holes, lastText]
  by_cases hs : s = "" <;> simp [partCode?, hs]

theorem Template.groups_code : ∀ t : Template,
    t.groups.flatten = t.code.map Asm.op ∧ t.groups.length = t.count
  | .last s => by
    rw [groups_eq, holes, lastText, code, count, textCode, filterMap_text]
    by_cases hs : s = "" <;> simp [hs]
  | .hole s e rest => by
    obtain ⟨hf, hl⟩ := groups_code rest
    rw [groups_hole, code, count, textCode, filterMap_text]
    by_cases hs : s = "" <;> simp [hs, hf, hl, Expr.asm] <;> omega

theorem stringCode_parts (q : Quote) (line : UInt32) : ∀ t : Template,
    stringCode ⟨t.parts, line⟩ = (Expr.string q t).asm
  | .last s => by
    have hp : (Template.last s).parts = [.text s] := by
      simp [Template.parts, Template.holes, Template.lastText, Desk.closingParts]
    rw [hp]
    simp [stringCode, isText, partText, Expr.asm, Expr.code, String.join]
  | .hole s e rest => by
    have hall : (Template.hole s e rest).parts.all isText = false := by
      rw [Template.parts, Desk.closingParts]
      split <;> simp [Template.holes, isText]
    obtain ⟨hf, hl⟩ := (Template.hole s e rest).groups_code
    rw [Template.groups] at hf hl
    simp only [stringCode, hall, joinCode, hf, hl]
    simp [Expr.asm, Expr.code, Template.code]

/-! ## Syntax trees -/

mutual

/-- The syntax tree of an expression on a line, with brackets around every operator. -/
def Expr.term (line : UInt32) : Expr → Term
  | .int n => .leaf (.integer ⟨String.ofList (Nat.toDigits 10 n), line⟩)
  | .float w => .leaf (.float ⟨w, line⟩)
  | .bool b => .leaf (.boolean ⟨truthWord b, line⟩)
  | .string _ t => .leaf (.string ⟨t.parts, line⟩)
  | .name x => .leaf (.identifier ⟨x, line⟩)
  | .call f args => .call (.function ⟨f, line⟩) (terms line args)
  | .print args => .call .print (terms line args)
  | .apply o l r => .group (.apply o.token (l.term line) (r.term line))

def terms (line : UInt32) : List Expr → List Term
  | [] => []
  | e :: es => e.term line :: terms line es

end

theorem Expr.isOperand_term (line : UInt32) (e : Expr) : (e.term line).IsOperand := by
  cases e <;> (rw [Expr.term]; trivial)

theorem length_terms (line : UInt32) (es : List Expr) : (terms line es).length = es.length := by
  induction es with
  | nil => rfl
  | cons e es ih => rw [terms, List.length_cons, ih, List.length_cons]

mutual

theorem Expr.tokens_term (line : UInt32) : ∀ e : Expr, (e.term line).tokens = e.tokens line
  | .int _ | .float _ | .bool _ | .string _ _ | .name _ => by
    rw [Expr.term, Term.tokens, Expr.tokens]
  | .call f args => by
    rw [Expr.term, Term.tokens, Term.tokensAll_eq_map, joined_terms, Expr.tokens]
    rfl
  | .print args => by
    rw [Expr.term, Term.tokens, Term.tokensAll_eq_map, joined_terms, Expr.tokens]
    rfl
  | .apply o l r => by
    rw [Expr.term, Term.tokens, Term.tokens, l.tokens_term, r.tokens_term, Expr.tokens]
    simp [bracketed]

theorem joined_terms (line : UInt32) : ∀ es : List Expr,
    joined ((terms line es).map Term.tokens) = argTokens line es
  | [] => by rw [terms, argTokens]; rfl
  | e :: es => by
    rw [terms, argTokens, List.map_cons, joined, e.tokens_term, flatMap_terms]

theorem flatMap_terms (line : UInt32) : ∀ es : List Expr,
    ((terms line es).map Term.tokens).flatMap (.punctuation .comma :: ·) = moreTokens line es
  | [] => by rw [terms, moreTokens]; rfl
  | e :: es => by
    rw [terms, moreTokens, List.map_cons, List.flatMap_cons, e.tokens_term, flatMap_terms]

end

theorem signCode_token (o : Sign) : signCode o.token = [.op o.instr] := by
  cases o <;> rfl

theorem codeAll_map (es : List Expr) :
    (codeAll es).map Asm.op = (es.map Expr.asm).flatten := by
  induction es with
  | nil => simp [codeAll]
  | cons e es ih => simp [codeAll, ih, Expr.asm]

mutual

theorem Expr.code_term {ctx : Context} (line : UInt32) : ∀ {e : Expr}, e.fits ctx = true →
    (e.term line).code = e.asm
  | .int n, h => by
    rw [Expr.fits, decide_eq_true_eq] at h
    rw [Expr.term, Term.code, leafCode, int64OfString?_digits h, Expr.asm, Expr.code]
    rfl
  | .float w, _ => by
    rw [Expr.term, Term.code, Expr.asm, Expr.code]
    rfl
  | .bool b, _ => by
    rw [Expr.term, Term.code, Expr.asm, Expr.code]
    cases b <;> simp [leafCode, truthWord]
  | .string q t, _ => by
    rw [Expr.term, Term.code]
    exact stringCode_parts q line t
  | .name x, _ => by
    rw [Expr.term, Term.code, Expr.asm, Expr.code]
    rfl
  | .call f args, h => by
    rw [Expr.fits, Bool.and_eq_true] at h
    rw [Expr.term, Term.code, Term.codeAll_eq_map, map_code_terms line h.2, Expr.asm, Expr.code]
    simp [Callee.code, codeAll_map]
  | .print args, h => by
    rw [Expr.fits] at h
    rw [Expr.term, Term.code, Term.codeAll_eq_map, map_code_terms line h, Expr.asm, Expr.code]
    simp [Callee.code, codeAll_map]
  | .apply o l r, h => by
    rw [Expr.fits, Bool.and_eq_true] at h
    rw [Expr.term, Term.code, Term.code, Expr.code_term line h.1, Expr.code_term line h.2, signCode_token]
    simp [Expr.asm, Expr.code]

theorem map_code_terms {ctx : Context} (line : UInt32) : ∀ {es : List Expr}, fitAll ctx es = true →
    (terms line es).map Term.code = es.map Expr.asm
  | [], _ => by rw [terms]; rfl
  | e :: es, h => by
    rw [fitAll, Bool.and_eq_true] at h
    rw [terms, List.map_cons, Expr.code_term line h.1, map_code_terms line h.2, List.map_cons]

end

/-! ## Scopes -/

/-- The context that names and functions make. -/
def contextOf (names : Names) (functions : Functions) : Context :=
  ⟨functions.declared, names.entries.map fun p => (p.1, p.2.kind)⟩

theorem lookup_contextOf (names : Names) (functions : Functions) (x : String) :
    (contextOf names functions).names.lookup x = (names.get? x).map NameInfo.kind := by
  rw [contextOf, Names.get?]
  induction names.entries with
  | nil => rfl
  | cons p entries ih =>
    obtain ⟨k, info⟩ := p
    simp only [List.map_cons, List.lookup_cons]
    cases x == k with
    | true => rfl
    | false => exact ih

section
variable {names : Names} {functions : Functions}

theorem reference_of_hasName {x : String} (h : (contextOf names functions).hasName x = true)
    (line : UInt32) : (Scope.mk names functions).resolver.reference x line = .ok () := by
  rw [Context.hasName, lookup_contextOf, Option.isSome_map] at h
  obtain ⟨info, hi⟩ := Option.isSome_iff_exists.1 h
  simp only [Scope.resolver, Names.reference, hi]
  rfl

theorem check_of_hasFunction {f : String} (h : (contextOf names functions).hasFunction f = true)
    (line : UInt32) : functions.check f line = .ok () := by
  rw [Functions.check, if_pos]
  exact .inr h

end

/-! ## Compiling -/

section
variable {names : Names} {functions : Functions} (line : UInt32)

mutual

theorem Expr.proper_term : ∀ {e : Expr}, e.fits (contextOf names functions) = true →
    (e.term line).Proper (Scope.mk names functions)
  | .int n, h => by
    rw [Expr.fits, decide_eq_true_eq] at h
    rw [Expr.term]
    exact ⟨.leaf (by simp [Readable, int64OfString?_digits h]), .leaf _⟩
  | .float w, h => by
    rw [Expr.fits] at h
    rw [Expr.term]
    exact ⟨.leaf (by simp [Readable, floatOfString?_fraction h]), .leaf _⟩
  | .bool _, _ | .string _ _, _ => by
    rw [Expr.term]
    exact ⟨.leaf trivial, .leaf _⟩
  | .name x, h => by
    rw [Expr.fits, Bool.and_eq_true] at h
    rw [Expr.term]
    exact ⟨.leaf (reference_of_hasName h.2 line), .leaf _⟩
  | .call f args, h => by
    simp only [Expr.fits, Bool.and_eq_true, decide_eq_true_eq] at h
    obtain ⟨⟨⟨-, hf⟩, hn⟩, ha⟩ := h
    have ha := proper_terms ha
    rw [Expr.term]
    refine ⟨.call (check_of_hasFunction hf line) ?_ fun t ht => (ha t ht).fits,
      .call _ fun t ht => (ha t ht).ordered⟩
    show (terms line args).length ≤ 255
    rw [length_terms]
    exact hn
  | .print args, h => by
    rw [Expr.fits] at h
    have ha := proper_terms h
    rw [Expr.term]
    exact ⟨.call rfl trivial fun t ht => (ha t ht).fits, .call _ fun t ht => (ha t ht).ordered⟩
  | .apply o l r, h => by
    rw [Expr.fits, Bool.and_eq_true] at h
    have hl := Expr.proper_term h.1
    have hr := Expr.proper_term h.2
    have hs : sign o.token ≠ .negation := by cases o <;> simp [sign, operator?, Sign.token]
    rw [Expr.term]
    exact ⟨.group (.apply hs hl.fits hr.fits), .group (.apply hl.ordered hr.ordered
      ((l.isOperand_term line).binds _) ((r.isOperand_term line).binds _))⟩

theorem proper_terms : ∀ {es : List Expr}, fitAll (contextOf names functions) es = true →
    ∀ t ∈ terms line es, t.Proper (Scope.mk names functions)
  | [], _ => by simp [terms]
  | e :: es, h => by
    rw [fitAll, Bool.and_eq_true] at h
    rw [terms]
    exact List.forall_mem_cons.2 ⟨Expr.proper_term h.1, proper_terms h.2⟩

end

/-- **The tokens of an expression compile to its code.** -/
theorem compile_tokens {e : Expr} (h : e.fits (contextOf names functions) = true) :
    Expression.compile (Scope.mk names functions) line (e.tokens line) = .ok e.asm := by
  rw [← e.tokens_term, (Expr.proper_term line h).compile line, Expr.code_term line h]

end

end Tree

end Naskah
