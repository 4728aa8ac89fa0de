/-
  Reading expressions.  The text of an expression adds its tokens to the run at hand and changes
  nothing else on the desk (`takeAll_expr`).  The holes of a string are compiled on the way, and
  leave the desk as it was but for the string.
-/
import Naskah.Proofs.Tree.Expressions

namespace Naskah

open Scan

namespace Cursor

/-! ## Signs that need no blank after them -/

/-- A sign of one character, if no longer one stands there. -/
theorem next_of_char {c : Char} {cs : List Char} {s : String} {l : Lexeme} (line : UInt32)
    (hs : Vocabulary.symbol? s = some l) (ht : s.toList = [c]) (hg : l.symbol.isGap = false)
    (h : ∀ l' ∈ Vocabulary.symbols, 1 < l'.text.toList.length →
      l'.text.toList.head? = some c → ¬ l'.text.toList <+: c :: cs) :
    (Cursor.mk (c :: cs) line).next =
      (.ok (.token (.ofSymbol l.symbol)), Cursor.mk cs line) := by
  obtain ⟨hl, rfl⟩ := Vocabulary.mem_symbols hs
  have he : Ends l.text.toList cs := by
    rw [ht]
    exact .of_char (Vocabulary.startsSymbol_of_mem hl ht) h
  have hn := next_symbol line hs hg he
  rw [ht] at hn
  exact hn

/-- A sign that no longer one begins with is read whatever follows. -/
theorem next_alone {c : Char} {s : String} {l : Lexeme} (hs : Vocabulary.symbol? s = some l)
    (ht : s.toList = [c]) (hg : l.symbol.isGap = false)
    (hall : (Vocabulary.symbols.all fun l =>
      decide (l.text.toList.length ≤ 1) || l.text.toList.head? != some c) = true)
    (cs : List Char) (line : UInt32) :
    (Cursor.mk (c :: cs) line).next =
      (.ok (.token (.ofSymbol l.symbol)), Cursor.mk cs line) := by
  refine next_of_char line hs ht hg fun l hl hlt hh _ => ?_
  have h := List.all_eq_true.1 hall l hl
  simp only [Bool.or_eq_true, decide_eq_true_eq, bne_iff_ne] at h
  exact h.elim (Nat.not_le.2 hlt) (absurd hh)

theorem next_closeCurly (cs : List Char) (line : UInt32) :
    (Cursor.mk ('}' :: cs) line).next =
      (.ok (.token (.bracket .closeCurly)), Cursor.mk cs line) :=
  next_alone (s := "\x7d") rfl rfl rfl rfl cs line

theorem next_openRound (cs : List Char) (line : UInt32) :
    (Cursor.mk ('(' :: cs) line).next =
      (.ok (.token (.bracket .openRound)), Cursor.mk cs line) :=
  next_alone (s := "(") rfl rfl rfl rfl cs line

/-- A quote is read unless two more of its kind follow. -/
theorem next_quote (q : Quote) {cs : List Char} (line : UInt32)
    (h : ¬ [q.char, q.char] <+: cs) :
    (Cursor.mk (q.char :: cs) line).next =
      (.ok (.token (.punctuation (.quote q))), Cursor.mk cs line) := by
  have hall : (Vocabulary.symbols.all fun l => decide (l.text.toList.length ≤ 1) ||
      l.text.toList.head? != some q.char || l.text.toList == [q.char, q.char, q.char]) = true := by
    cases q <;> rfl
  have hlong : ∀ l ∈ Vocabulary.symbols, 1 < l.text.toList.length →
      l.text.toList.head? = some q.char → ¬ l.text.toList <+: q.char :: cs := by
    intro l hl hlt hh hp
    have hl := List.all_eq_true.1 hall l hl
    simp only [Bool.or_eq_true, decide_eq_true_eq, bne_iff_ne, beq_iff_eq] at hl
    rcases hl with (hl | hl) | hl
    · omega
    · exact hl hh
    · rw [hl] at hp
      exact h (List.cons_prefix_cons.1 hp).2
  cases q with
  | double => exact next_of_char line (s := "\"") rfl rfl rfl hlong
  | single => exact next_of_char line (s := "'") rfl rfl rfl hlong

end Cursor

namespace Desk

variable {d d' : Desk} {line : UInt32} {rest : List Char}

/-! ## Steps of reading -/

theorem takeAll_next {c c' : Cursor} {t : Token} (hq : d.nesting.inString = false)
    (hn : c.next = (.ok (.token t), c')) (ht : d.take t c' = .ok d') :
    d.takeAll c = d'.takeAll c' := by
  rw [takeAll_eq, if_neg (by simp [hq]), hn]
  simp only [ht]
  rfl

theorem takeAll_congr {c₁ c₂ : Cursor} (hq : d.nesting.inString = false) (h : c₁.next = c₂.next) :
    d.takeAll c₁ = d.takeAll c₂ := by
  rw [takeAll_eq d c₁, takeAll_eq d c₂, if_neg (by simp [hq]), if_neg (by simp [hq]), h]

theorem takeAll_blank {b : Char} (hb : Text.isBlank b = true) (hq : d.nesting.inString = false) :
    d.takeAll ⟨b :: rest, line⟩ = d.takeAll ⟨rest, Cursor.lineAfter line b⟩ := by
  exact takeAll_congr hq (Cursor.next_blank hb)

theorem takeAll_spelled {w : List Char} {t : UInt32 → Token} (hw : Spelled w t)
    (hq : d.nesting.inString = false) (hr : Apart rest)
    (ht : d.take (t line) ⟨rest, line⟩ = .ok d') :
    d.takeAll ⟨' ' :: w ++ rest, line⟩ = d'.takeAll ⟨rest, line⟩ := by
  rw [List.cons_append, takeAll_blank rfl hq]
  exact takeAll_next hq (hw rest line hr) ht

theorem takeAll_closed {s : Draft} {strings : List Draft} {text : String} {c c' : Cursor}
    (hq : d.nesting.inString = true) (hs : d.strings = s :: strings)
    (hc : c.segment s.quote.char = (.closed text, c')) (ht : d.closeString text = .ok d') :
    d.takeAll c = d'.takeAll c' := by
  rw [takeAll_eq, if_pos hq, hs]
  simp only [hc, ht]
  rfl

theorem takeAll_hole {s : Draft} {strings : List Draft} {text : String} {c c' : Cursor}
    (hq : d.nesting.inString = true) (hs : d.strings = s :: strings)
    (hc : c.segment s.quote.char = (.hole text, c')) (ht : d.openHole text c'.line = .ok d') :
    d.takeAll c = d'.takeAll c' := by
  rw [takeAll_eq, if_pos hq, hs]
  simp only [hc, ht]
  rfl

theorem takeAll_spaced {s : String} {t : UInt32 → Token} (hw : Spelled s.toList t)
    (hq : d.nesting.inString = false) (hr : Apart rest)
    (ht : d.take (t line) ⟨rest, line⟩ = .ok d') :
    d.takeAll ⟨Tree.spaced s ++ rest, line⟩ = d'.takeAll ⟨rest, line⟩ :=
  takeAll_spelled hw hq hr ht

/-! ## Tokens that join the run -/

/-- Adds tokens to the current run. -/
def gather (d : Desk) (ts : List Token) : Desk :=
  { d with run := { d.run with tokens := d.run.tokens ++ ts } }

theorem push_eq (d : Desk) (t : Token) : d.push t = d.gather [t] := rfl

theorem gather_nil (d : Desk) : d.gather [] = d := by
  simp [gather]

/-- A word or sign that joins the run. -/
theorem takeAll_joined {s : String} {t : UInt32 → Token} (hw : Spelled s.toList t)
    (hq : d.nesting.inString = false) (hr : Apart rest)
    (ht : d.take (t line) ⟨rest, line⟩ = .ok (d.gather [t line])) :
    d.takeAll ⟨Tree.spaced s ++ rest, line⟩ =
      (d.gather [t line]).takeAll ⟨rest, line⟩ :=
  takeAll_spaced hw hq hr ht

theorem gather_gather (d : Desk) (a b : List Token) : (d.gather a).gather b = d.gather (a ++ b) := by
  simp [gather]

/-- What expressions may refer to. -/
def context (d : Desk) : Tree.Context :=
  Tree.contextOf d.names d.functions

/-- Whether a round bracket after a token encloses an operand. -/
def opensGroup : Option Token → Bool
  | some (.identifier _) => false
  | some (.keyword k) => !k.opensBlock && k ≠ .print && k ≠ .function
  | _ => true

/-- A desk at which an operand may begin. -/
structure AtOperand (d : Desk) : Prop where
  inCode : d.nesting.inString = false
  opens : opensGroup d.run.tokens.getLast? = true

theorem atOperand_gather (h : d.nesting.inString = false) {t : Token}
    (ht : opensGroup (some t) = true) : (d.gather [t]).AtOperand :=
  ⟨h, by simp [gather, ht]⟩

/-! ## Round brackets -/

/-- The desk after an opening bracket. -/
def opened (d : Desk) (kind : RoundKind) : Desk :=
  { d with
    nesting := .round :: d.nesting
    run := ⟨d.run.tokens ++ [.bracket .openRound], ⟨kind, d.run.tokens.length⟩ :: d.run.rounds⟩ }

theorem atOperand_opened (d : Desk) (kind : RoundKind) : (d.opened kind).AtOperand :=
  ⟨rfl, by simp [opened, opensGroup]⟩

theorem not_atStart_opened (d : Desk) (kind : RoundKind) : (d.opened kind).atStart = false := by
  simp [opened, atStart]

theorem definedName?_of_opens (h : opensGroup d.run.tokens.getLast? = true) :
    d.definedName? = none := by
  unfold definedName?
  split
  · next hd => rw [hd] at h; cases h
  · rfl

theorem definedName?_gather (h : opensGroup d.run.tokens.getLast? = true) (t : Token) :
    (d.gather [t]).definedName? = none := by
  unfold definedName?
  split
  · next name hd =>
    have hd : d.run.tokens ++ [t] = [.keyword .function] ++ [.identifier name] := hd
    have hf : d.run.tokens = [.keyword .function] := (List.append_inj' hd rfl).1
    rw [hf] at h
    cases h
  · rfl

/-- A bracket where an operand may begin encloses one. -/
theorem openRound_group (h : d.AtOperand) (line : UInt32) :
    d.openRound line = .ok (d.opened .group) := by
  have hk : d.roundKind line = .ok .group := by
    have ho := h.opens
    simp only [roundKind, definedName?_of_opens h.opens]
    split
    · next he => cases he
    · next k he =>
      rw [he] at ho
      simp only [opensGroup, Bool.and_eq_true, Bool.not_eq_true', decide_eq_true_eq] at ho
      simp [ho]
    · next he => rw [he] at ho; cases ho
    · rfl
  rw [openRound, hk]
  rfl

/-- Whether a call that begins here is a statement. -/
def atHead (d : Desk) : Bool :=
  d.atStart && d.run.tokens.isEmpty

theorem head_gather (d : Desk) (t : Token) :
    ((d.gather [t]).atStart && (d.gather [t]).run.tokens.length == 1) = d.atHead := by
  change (d.atStart && (d.run.tokens ++ [t]).length == 1) = (d.atStart && d.run.tokens.isEmpty)
  cases d.run.tokens <;> simp

/-- A bracket after the name of a function encloses arguments. -/
theorem openRound_call (h : d.AtOperand) {f : String} (hf : d.context.hasFunction f = true)
    (line : UInt32) :
    (d.gather [.identifier ⟨f, line⟩]).openRound line =
      .ok ((d.gather [.identifier ⟨f, line⟩]).opened (.call d.atHead)) := by
  have hc : d.functions.check f line = .ok () := Tree.check_of_hasFunction hf line
  have hl : (d.gather [.identifier ⟨f, line⟩]).run.tokens.getLast? = some (.identifier ⟨f, line⟩) := by
    simp [gather]
  have hk : (d.gather [.identifier ⟨f, line⟩]).roundKind line = .ok (.call d.atHead) := by
    simp only [roundKind, head_gather, definedName?_gather h.opens, hl]
    change (d.functions.check f line >>= fun _ => _) = _
    rw [hc]
    rfl
  rw [openRound, hk]
  rfl

theorem openRound_print (h : d.AtOperand) (line : UInt32) :
    (d.gather [.keyword .print]).openRound line =
      .ok ((d.gather [.keyword .print]).opened (.call d.atHead)) := by
  have hl : (d.gather [.keyword .print]).run.tokens.getLast? = some (.keyword .print) := by
    simp [gather]
  have hk : (d.gather [.keyword .print]).roundKind line = .ok (.call d.atHead) := by
    simp only [roundKind, head_gather, definedName?_gather h.opens, hl]
    rfl
  rw [openRound, hk]
  rfl

/-- A closing bracket of an expression joins the run. -/
theorem closeRound_opened {kind : RoundKind} {c : Cursor} (ts : List Token)
    (hk : kind = .group ∨ ∃ head, kind = .call head ∧ (head = true → c.search ";" = .ok ())) :
    ((d.opened kind).gather ts).closeRound c =
      .ok (d.gather (.bracket .openRound :: ts ++ [.bracket .closeRound])) := by
  have hpush : ({ (d.opened kind).gather ts with
      nesting := d.nesting
      run := ⟨((d.opened kind).gather ts).run.tokens, d.run.rounds⟩ } : Desk).push
        (.bracket .closeRound) = d.gather (.bracket .openRound :: ts ++ [.bracket .closeRound]) := by
    simp [opened, gather, push]
  rcases hk with rfl | ⟨head, rfl, hs⟩
  · exact congrArg Except.ok hpush
  · cases head with
    | false => exact congrArg Except.ok hpush
    | true =>
      change (c.search ";" >>= fun _ => _) = _
      rw [hs rfl]
      exact congrArg Except.ok hpush

/-! ## Holes -/

/-- The desk in a hole that follows a text of a string. -/
def holed (d : Desk) (draft : Draft) (strings : List Draft) (s : String) (line : UInt32) : Desk :=
  { d with
    strings := { draft with parts := draft.parts ++ [.text s] } :: strings
    blocks := .function ⟨.anonymous, [], {}, line, []⟩ :: d.blocks
    run := {}
    outer := d.run :: d.outer
    nesting := .curly :: d.nesting }

section
variable (draft : Draft) (strings : List Draft)

theorem openHole_eq (hs : d.strings = draft :: strings) (s : String) (line : UInt32) :
    d.openHole s line = .ok (d.holed draft strings s line) := by
  rw [openHole, addPart, hs]
  rfl

theorem atOperand_holed (d : Desk) (s : String) (line : UInt32) :
    (d.holed draft strings s line).AtOperand :=
  ⟨rfl, rfl⟩

/-- A hole ends with its expression compiled. -/
theorem take_holed {e : Tree.Expr} (he : e.fits d.context = true) {q : Quote} {n : Nesting}
    (hn : d.nesting = .quote q :: n) (s : String) (line : UInt32) (rest : List Char) :
    ((d.holed draft strings s line).gather (e.tokens line)).take (.bracket .closeCurly)
        ⟨rest, line⟩ =
      .ok { d with strings :=
        { draft with parts := draft.parts ++ [.text s] ++ [.hole e.asm] } :: strings } := by
  have hc : Expression.compile (Scope.mk d.names d.functions) line (e.tokens line) = .ok e.asm :=
    Tree.compile_tokens line he
  have hh : Nesting.inHole (.curly :: d.nesting) = true := by rw [hn]; rfl
  change (if Nesting.inHole (.curly :: d.nesting) then _ else _) = _
  rw [if_pos hh]
  change (Expression.compile (Scope.mk d.names d.functions) line (e.tokens line) >>= fun _ => _) = _
  rw [hc]
  rfl

end

end Desk

namespace Tree

/-! ## What follows a word is a blank -/

theorem apart_spaced (s : String) (rest : List Char) : Apart (spaced s ++ rest) :=
  .cons rfl _

theorem Expr.apart_render (e : Expr) (rest : List Char) : Apart (e.render ++ rest) := by
  cases e <;> (rw [Expr.render]; exact .cons rfl _)

theorem apart_renderMore {rest : List Char} (hr : Apart rest) (es : List Expr) :
    Apart (renderMore es ++ rest) := by
  cases es with
  | nil => rw [renderMore]; exact hr
  | cons e es => rw [renderMore]; exact .cons rfl _

theorem apart_renderArgs {rest : List Char} (hr : Apart rest) (es : List Expr) :
    Apart (renderArgs es ++ rest) := by
  cases es with
  | nil => rw [renderArgs]; exact hr
  | cons e es => rw [renderArgs, List.append_assoc]; exact e.apart_render _

theorem not_isBlank_quote (q : Quote) : Text.isBlank q.char = false := by
  cases q <;> rfl

/-- A string is not taken for one between three quotes. -/
theorem Template.not_two_quotes (q : Quote) {rest : List Char} (hr : Apart rest) (t : Template) :
    ¬ [q.char, q.char] <+: t.render q ++ rest := by
  have hs : ∀ (s : String) (more : List Char), ¬ [q.char, q.char] <+: more →
      ¬ [q.char, q.char] <+: escaped q s ++ more := fun s more hm =>
    Cursor.not_two_quotes_flatMap (escaped_escape q) hm s.toList
  cases t with
  | last s =>
    rw [Template.render, List.append_assoc]
    refine hs s _ fun hp => ?_
    cases rest with
    | nil => simpa using hp.length_le
    | cons b bs =>
      have hb := (List.cons_prefix_cons.1 (List.cons_prefix_cons.1 hp).2).1
      have := hr b rfl
      rw [← hb, not_isBlank_quote] at this
      cases this
  | hole s e more =>
    rw [Template.render]
    simp only [List.append_assoc]
    refine hs s _ fun hp => ?_
    have := (List.cons_prefix_cons.1 hp).1
    cases q <;> cases this

end Tree

namespace Desk

open Naskah.Tree

theorem spelled_openRound : Spelled "(".toList fun _ => .bracket .openRound :=
  .of_symbol (.bracket .openRound) rfl rfl

theorem spelled_closeRound : Spelled ")".toList fun _ => .bracket .closeRound :=
  .of_symbol (.bracket .closeRound) rfl rfl

theorem spelled_comma : Spelled ",".toList fun _ => .punctuation .comma :=
  .of_symbol (.punctuation .comma) rfl rfl

/-- What stands between brackets is read inside of them. -/
theorem takeAll_bracketed {d : Desk} {kind : RoundKind} {inner rest : List Char} {line : UInt32}
    {ts : List Token} (ho : d.openRound line = .ok (d.opened kind))
    (hq : d.nesting.inString = false)
    (hk : kind = .group ∨ ∃ head, kind = .call head ∧
      (head = true → (Cursor.mk rest line).search ";" = .ok ()))
    (ha : Apart (inner ++ (spaced ")" ++ rest)))
    (hin : (d.opened kind).takeAll ⟨inner ++ (spaced ")" ++ rest), line⟩ =
      ((d.opened kind).gather ts).takeAll ⟨spaced ")" ++ rest, line⟩) (hr : Apart rest) :
    d.takeAll ⟨spaced "(" ++ (inner ++ (spaced ")" ++ rest)), line⟩ =
      (d.gather (.bracket .openRound :: ts ++ [.bracket .closeRound])).takeAll
        ⟨rest, line⟩ := by
  rw [takeAll_spaced spelled_openRound hq ha ho, hin]
  exact takeAll_spaced spelled_closeRound rfl hr (closeRound_opened ts hk)

/-- A call is read if its arguments are, however many there are. -/
theorem takeAll_call {d : Desk} {f : String} {args : List Expr} {line : UInt32} {rest : List Char}
    (hl : isLegalName f = true) (hf : d.context.hasFunction f = true) (hd : d.AtOperand)
    (hargs : ((d.gather [.identifier ⟨f, line⟩]).opened (.call d.atHead)).takeAll
        ⟨renderArgs args ++ (spaced ")" ++ rest), line⟩ =
      (((d.gather [.identifier ⟨f, line⟩]).opened (.call d.atHead)).gather
        (argTokens line args)).takeAll ⟨spaced ")" ++ rest, line⟩)
    (hr : Apart rest) (hhead : d.atHead = true → (Cursor.mk rest line).search ";" = .ok ()) :
    d.takeAll ⟨(Expr.call f args).render ++ rest, line⟩ =
      (d.gather ((Expr.call f args).tokens line)).takeAll ⟨rest, line⟩ := by
  have hname : d.take (.identifier ⟨f, line⟩) ⟨spaced "(" ++ (renderArgs args ++
      (spaced ")" ++ rest)), line⟩ = .ok (d.gather [.identifier ⟨f, line⟩]) := rfl
  rw [Expr.render, Expr.tokens]
  simp only [List.append_assoc]
  rw [takeAll_spaced (spelled_name hl) hd.inCode (apart_spaced _ _) hname,
    takeAll_bracketed (openRound_call hd hf line) hd.inCode (.inr ⟨_, rfl, hhead⟩)
      (apart_renderArgs (apart_spaced _ _) args) hargs hr, gather_gather]
  rfl

mutual

/-- **The text of an expression adds its tokens to the run.** -/
theorem takeAll_expr : ∀ {e : Expr} {d : Desk}, e.fits d.context = true → d.AtOperand →
    ∀ {line : UInt32} {rest : List Char}, Apart rest →
      (d.atHead = true → (Cursor.mk rest line).search ";" = .ok ()) →
      d.takeAll ⟨e.render ++ rest, line⟩ =
        (d.gather (e.tokens line)).takeAll ⟨rest, line⟩
  | .int n, d, _, hd, line, rest, hr, _ => by
    rw [Expr.render, Expr.tokens]
    exact takeAll_spelled (spelled_digits n) hd.inCode hr rfl
  | .float w, d, h, hd, line, rest, hr, _ => by
    rw [Expr.fits] at h
    rw [Expr.render, Expr.tokens]
    exact takeAll_spaced (spelled_fraction h) hd.inCode hr rfl
  | .bool b, d, _, hd, line, rest, hr, _ => by
    rw [Expr.render, Expr.tokens]
    exact takeAll_spaced (spelled_truthWord b) hd.inCode hr rfl
  | .string q t, d, h, hd, line, rest, hr, _ => by
    rw [Expr.fits] at h
    rw [Expr.render, Expr.tokens, List.cons_append, takeAll_blank rfl hd.inCode, List.cons_append,
      takeAll_next hd.inCode (Cursor.next_quote q _ (t.not_two_quotes q hr)) rfl]
    exact takeAll_template (d := d.openString q line) h rfl rfl line rest
  | .name x, d, h, hd, line, rest, hr, _ => by
    rw [Expr.fits, Bool.and_eq_true] at h
    rw [Expr.render, Expr.tokens]
    exact takeAll_spaced (spelled_name h.1) hd.inCode hr rfl
  | .call f args, d, h, hd, line, rest, hr, hhead => by
    simp only [Expr.fits, Bool.and_eq_true] at h
    obtain ⟨⟨⟨hl, hf⟩, -⟩, ha⟩ := h
    have hargs := takeAll_args (d := (d.gather [.identifier ⟨f, line⟩]).opened (.call d.atHead)) ha
      (atOperand_opened _ _) (not_atStart_opened _ _) line (apart_spaced ")" rest)
    exact takeAll_call hl hf hd hargs hr hhead
  | .print args, d, h, hd, line, rest, hr, hhead => by
    rw [Expr.fits] at h
    have hword : d.take (.keyword .print) ⟨spaced "(" ++ (renderArgs args ++
        (spaced ")" ++ rest)), line⟩ = .ok (d.gather [.keyword .print]) := rfl
    have hargs := takeAll_args (d := (d.gather [.keyword .print]).opened (.call d.atHead)) h
      (atOperand_opened _ _) (not_atStart_opened _ _) line (apart_spaced ")" rest)
    rw [Expr.render, Expr.tokens]
    simp only [List.append_assoc]
    rw [takeAll_spaced (.of_keyword rfl fun _ => rfl) hd.inCode (apart_spaced _ _) hword,
      takeAll_bracketed (openRound_print hd line) hd.inCode (.inr ⟨_, rfl, hhead⟩)
        (apart_renderArgs (apart_spaced _ _) args) hargs hr, gather_gather]
    rfl
  | .apply o l r, d, h, hd, line, rest, hr, _ => by
    rw [Expr.fits, Bool.and_eq_true] at h
    let d₁ := d.opened .group
    let d₂ := d₁.gather (l.tokens line)
    have hsign : d₂.take o.token ⟨r.render ++ (spaced ")" ++ rest), line⟩ =
        .ok (d₂.gather [o.token]) := by cases o <;> rfl
    have hd₃ : (d₂.gather [o.token]).AtOperand := atOperand_gather rfl (by cases o <;> rfl)
    have hin : d₁.takeAll ⟨l.render ++ spaced o.text ++ r.render ++ (spaced ")" ++ rest), line⟩ =
        (d₁.gather (l.tokens line ++ [o.token] ++ r.tokens line)).takeAll
          ⟨spaced ")" ++ rest, line⟩ := by
      simp only [List.append_assoc]
      rw [takeAll_expr (d := d₁) h.1 (atOperand_opened _ _) (apart_spaced _ _)
          (by simp [atHead, d₁, not_atStart_opened]),
        takeAll_spaced (spelled_sign o) rfl (r.apart_render _) hsign,
        takeAll_expr (d := d₂.gather [o.token]) h.2 hd₃ (apart_spaced _ _) (by simp [atHead, gather]),
        gather_gather, gather_gather]
    rw [Expr.render, Expr.tokens]
    have happ : Apart (l.render ++ spaced o.text ++ r.render ++ (spaced ")" ++ rest)) := by
      simp only [List.append_assoc]
      exact l.apart_render _
    have := takeAll_bracketed (openRound_group hd line) hd.inCode (.inl rfl) happ hin hr
    simpa only [List.append_assoc] using this

theorem takeAll_template : ∀ {t : Template} {d : Desk}, t.fits d.context = true →
    ∀ {draft : Draft} {strings : List Draft} {n : Nesting}, d.strings = draft :: strings →
      d.nesting = .quote draft.quote :: n → ∀ (line : UInt32) (rest : List Char),
      d.takeAll ⟨t.render draft.quote ++ rest, line⟩ =
        (({ d with nesting := n, strings } : Desk).gather
          [.string ⟨closingParts (draft.parts ++ t.holes) t.lastText, draft.line⟩]).takeAll
            ⟨rest, line⟩
  | .last s, d, _, draft, strings, n, hs, hn, line, rest => by
    have hc := segment_closed draft.quote line rest s
    rw [Template.render, List.append_assoc, List.singleton_append]
    refine takeAll_closed (by rw [hn]; rfl) hs hc ?_
    rw [closeString, hs, Template.holes, Template.lastText, List.append_nil, hn]
    rfl
  | .hole s e more, d, h, draft, strings, n, hs, hn, line, rest => by
    rw [Template.fits, Bool.and_eq_true] at h
    have hc := segment_hole draft.quote line
      (e.render ++ (spaced "\x7d" ++ (more.render draft.quote ++ rest))) s
    have hend := take_holed draft strings h.1 hn s line
      (more.render draft.quote ++ rest)
    rw [Template.render]
    simp only [List.append_assoc, List.cons_append, List.nil_append]
    rw [takeAll_hole (by rw [hn]; rfl) hs hc (openHole_eq draft strings hs s line),
      takeAll_expr (d := d.holed draft strings s line) h.1 (atOperand_holed draft strings d s line)
        (apart_spaced _ _) (by simp [atHead, atStart, holed])]
    change ((d.holed draft strings s line).gather (e.tokens line)).takeAll
      ⟨' ' :: '}' :: (more.render draft.quote ++ rest), line⟩ = _
    rw [takeAll_blank rfl rfl]
    refine (takeAll_next rfl (Cursor.next_closeCurly _ _) hend).trans ?_
    have := takeAll_template (d := { d with strings :=
      { draft with parts := draft.parts ++ [.text s] ++ [.hole e.asm] } :: strings })
      h.2 rfl hn line rest
    simpa [Template.holes, Template.lastText] using this

theorem takeAll_args : ∀ {es : List Expr} {d : Desk}, fitAll d.context es = true → d.AtOperand →
    d.atStart = false → ∀ (line : UInt32) {rest : List Char}, Apart rest →
      d.takeAll ⟨renderArgs es ++ rest, line⟩ =
        (d.gather (argTokens line es)).takeAll ⟨rest, line⟩
  | [], d, _, _, _, line, rest, _ => by
    rw [renderArgs, argTokens, gather_nil, List.nil_append]
  | e :: es, d, h, hd, hst, line, rest, hr => by
    rw [fitAll, Bool.and_eq_true] at h
    rw [renderArgs, argTokens, List.append_assoc,
      takeAll_expr h.1 hd (apart_renderMore hr es) (by simp [atHead, hst]),
      takeAll_more (d := d.gather (e.tokens line)) h.2 hd.inCode hst hr, gather_gather]

theorem takeAll_more : ∀ {es : List Expr} {d : Desk}, fitAll d.context es = true →
    d.nesting.inString = false → d.atStart = false → ∀ {line : UInt32} {rest : List Char},
      Apart rest → d.takeAll ⟨renderMore es ++ rest, line⟩ =
        (d.gather (moreTokens line es)).takeAll ⟨rest, line⟩
  | [], d, _, _, _, line, rest, _ => by
    rw [renderMore, moreTokens, gather_nil, List.nil_append]
  | e :: es, d, h, hq, hst, line, rest, hr => by
    rw [fitAll, Bool.and_eq_true] at h
    have hcomma : d.take (.punctuation .comma) ⟨e.render ++ (renderMore es ++ rest), line⟩ =
      .ok (d.gather [.punctuation .comma]) := rfl
    have hd : (d.gather [.punctuation .comma]).AtOperand := atOperand_gather hq rfl
    rw [renderMore, moreTokens]
    simp only [List.append_assoc]
    rw [takeAll_spaced spelled_comma hq (e.apart_render _) hcomma,
      takeAll_expr (d := d.gather [.punctuation .comma]) h.1 hd (apart_renderMore hr es)
        (by simp [atHead, gather]),
      takeAll_more (d := (d.gather [.punctuation .comma]).gather (e.tokens line)) h.2 hq hst hr,
      gather_gather, gather_gather]
    rfl

end

end Desk

end Naskah
