/-
  What a token, or a text of a string, can do to a desk.  `Move c d awaited d'` lists the ways in
  which a desk `d` becomes `d'` when something was read up to the cursor `c`, each with what holds
  before it.  Facts about all desks that a source can lead to are proved by going through the
  moves.

  Twice the compiler looks ahead and relies on what it has seen: after the head of a block its
  curly bracket comes next, and after a clause the word that continues the chain.  `awaited` is
  that token.
-/
import Naskah.Compile
import Naskah.Proofs.Block.Pieces
import Naskah.Proofs.Token.Lookahead

namespace Naskah

/-- Tokens of a source that only join the run.  Strings are put together from their parts. -/
def Token.isCollected : Token → Bool
  | string _ => false
  | bracket .openSquare | bracket .closeSquare => true
  | bracket _ => false
  | punctuation (.quote _) | punctuation .semicolon => false
  | punctuation .tripleQuote | punctuation .closeComment => false
  | _ => true

/-- Round brackets that belong to the head of a block. -/
def RoundKind.isHeader : RoundKind → Bool
  | definition _ | entry | guard _ => true
  | call _ | group => false

namespace Desk

/-- Adds code to the innermost block, or to the module. -/
def added (d : Desk) (code : List Asm) : Desk :=
  match d.blocks with
  | [] => { d with code := d.code ++ code }
  | b :: blocks => { d with blocks := b.add code :: blocks }

theorem emit_eq {d : Desk} (h : ∀ c blocks, d.blocks = .chain c :: blocks → c.state = .filling)
    (code : List Asm) : d.emit code = .ok (d.added code) := by
  unfold emit added
  split
  · next hb => simp only [hb]
  · next c blocks hb => rw [if_neg (by simp [h c blocks hb])]; simp only [hb]; rfl
  · next b blocks _ hb => simp only [hb]

/-- Names are replaced in the innermost function that has some. -/
theorem replaceNames?_eq_some {names : Names} : ∀ {bs bs' : List Block},
    replaceNames? names bs = some bs' → ∃ inner b outer, bs = inner ++ .function b :: outer ∧
      bs' = inner ++ .function { b with names } :: outer ∧ b.isAnonymous = false ∧
        ∀ x ∈ inner, x.names? = none
  | [], _, h => by cases h
  | x :: bs, bs', h => by
    by_cases hx : x.names? = none
    · have hr : (replaceNames? names bs).map (x :: ·) = some bs' := by
        rw [← h]
        cases x with
        | function b =>
          have hb : b.isAnonymous = true := by simpa [Block.names?] using hx
          simp [replaceNames?, hb]
        | loop b | chain c => simp [replaceNames?]
      obtain ⟨bs₁, h₁, rfl⟩ := Option.map_eq_some_iff.1 hr
      obtain ⟨inner, b, outer, rfl, rfl, hb, hi⟩ := replaceNames?_eq_some h₁
      exact ⟨x :: inner, b, outer, rfl, rfl, hb, List.forall_mem_cons.2 ⟨hx, hi⟩⟩
    · cases x with
      | function b =>
        have hb : b.isAnonymous = false := by simpa [Block.names?] using hx
        simp only [replaceNames?, hb, Bool.false_eq_true, if_false, Option.some.injEq] at h
        exact ⟨[], b, bs, rfl, h.symm, hb, by simp⟩
      | loop b | chain c => exact absurd rfl hx

/-- The header that the tokens between round brackets make. -/
def Heads (d : Desk) (line : UInt32) (round : Round) (h : Header) : Prop :=
  let inner := d.run.tokens.drop (round.start + 1)
  match round.kind with
  | .definition name => ∃ params,
      (Expression.splitCommas inner).mapM (param line) = .ok params ∧
        h = .function name params line
  | .entry => h = .entry line
  | .guard kind => ∃ guard, d.expression line inner = .ok guard ∧ h = .guarded kind guard line
  | .call _ | .group => False

/-- The desk without its innermost open bracket. -/
def unround (d : Desk) (nesting : Nesting) (rounds : List Round) : Desk :=
  { d with nesting, run := { d.run with rounds } }

/-- What has been read up to a cursor can turn a desk into another one. -/
inductive Move (c : Cursor) (d : Desk) : Option Token → Desk → Prop
  | stay : Move c d none d
  | collect {t : Token} {awaited : Option Token} (ht : t.isCollected = true)
      (ha : ∀ a ∈ awaited, t = a) (hl : t.Legal)
      (ho : t = .keyword .otherwise →
        d.chained?.isSome = true ∧ d.outer = [] ∧ d.run.tokens = []) : Move c d awaited (d.push t)
  | openRound {kind : RoundKind} {functions : Functions} {hasEntry : Bool}
      (hq : d.nesting.inString = false) (hk : d.roundKind c.line = .ok kind)
      (hf : d.announce kind c.line = .ok { d with functions, hasEntry }) :
      Move c d none { d with
        functions, hasEntry
        nesting := .round :: d.nesting
        run := ⟨d.run.tokens ++ [.bracket .openRound],
          ⟨kind, d.run.tokens.length⟩ :: d.run.rounds⟩ }
  | closeRound {nesting : Nesting} {round : Round} {rounds : List Round}
      (hn : d.nesting = .round :: nesting) (hr : d.run.rounds = round :: rounds)
      (hk : round.kind.isHeader = false) :
      Move c d none ((d.unround nesting rounds).push (.bracket .closeRound))
  | closeHeader {nesting : Nesting} {round : Round} {rounds : List Round} {h : Header}
      (hn : d.nesting = .round :: nesting) (hr : d.run.rounds = round :: rounds)
      (hh : d.Heads c.line round h) (hs : c.search "\x7b" = .ok ()) :
      Move c d none { (d.unround nesting rounds).clear with header := some h }
  | statement {code : List Asm} {d₁ : Desk} (hq : d.nesting.inString = false) (ho : d.outer = [])
      (hr : d.run.rounds = []) (hf : d.run.tokens.head? ≠ some (.keyword .otherwise))
      (hd : d₁ = d.clear ∨ ∃ names, d₁ = d.clear.setNames names)
      (hs : d.clear.statement c.line d.run.tokens = .ok (code, d₁)) :
      Move c d none (d₁.added code)
  | openString (q : Quote) : Move c d none (d.openString q c.line)
  | closeString {s : Draft} {strings : List Draft} (text : String)
      (hq : d.nesting.inString = true) (hs : d.strings = s :: strings) :
      Move c d none ({ d with nesting := d.nesting.tail, strings }.push
        (.string ⟨closingParts s.parts text, s.line⟩))
  | openHole {s : Draft} {strings : List Draft} (text : String)
      (hq : d.nesting.inString = true) (hs : d.strings = s :: strings) :
      Move c d none { d with
        strings := { s with parts := s.parts ++ [.text text] } :: strings
        blocks := .function ⟨.anonymous, [], {}, c.line, []⟩ :: d.blocks
        run := {}
        outer := d.run :: d.outer
        nesting := .curly :: d.nesting }
  | closeHole {run : Run} {outer : List Run} {b : FunctionBlock} {blocks : List Block}
      {s : Draft} {strings : List Draft} {code : List Asm} (hn : d.nesting.inHole = true)
      (ho : d.outer = run :: outer) (hb : d.blocks = .function b :: blocks)
      (hs : d.strings = s :: strings) (he : d.expression c.line d.run.tokens = .ok code) :
      Move c d none { d with
        run, outer, blocks
        strings := { s with parts := s.parts ++ [.hole code] } :: strings
        nesting := d.nesting.tail }
  | beginFunction {name : String} {params : List Param} {line : UInt32} {names : Names}
      (hh : d.header = some (.function name params line))
      (hn : FunctionBlock.declareParams params line = .ok names) :
      Move c d (some (.bracket .openCurly)) { d with
        header := none
        blocks := .function ⟨.named name, params, names, line, []⟩ :: d.blocks
        nesting := .curly :: d.nesting }
  | beginEntry {line : UInt32} (hh : d.header = some (.entry line)) :
      Move c d (some (.bracket .openCurly)) { d with
        header := none
        labels := d.labels.fresh.2
        blocks := .function ⟨.entry d.labels.fresh.1, [], {}, line, []⟩ :: d.blocks
        nesting := .curly :: d.nesting }
  | beginChain {guard : List Asm} {line : UInt32}
      (hh : d.header = some (.guarded .first guard line)) :
      Move c d (some (.bracket .openCurly)) { d with
        header := none
        blocks := .chain (.start guard line) :: d.blocks
        nesting := .curly :: d.nesting }
  | beginLoop {guard : List Asm} {line : UInt32}
      (hh : d.header = some (.guarded .loop guard line)) :
      Move c d (some (.bracket .openCurly)) { d with
        header := none
        labels := (LoopBlock.begin guard line d.labels).2
        blocks := .loop (LoopBlock.begin guard line d.labels).1 :: d.blocks
        nesting := .curly :: d.nesting }
  | beginFurther {guard : List Asm} {line : UInt32} {chain : Chain} {blocks : List Block}
      (hh : d.header = some (.guarded .further guard line))
      (hb : d.blocks = .chain chain :: blocks) (hs : chain.state = .chained) :
      Move c d (some (.bracket .openCurly)) { d with
        header := none
        blocks := .chain ⟨⟨.further, some guard, [], line⟩ :: chain.clauses, .filling⟩ :: blocks
        nesting := .curly :: d.nesting }
  | beginLast {chain : Chain} {blocks : List Block} (hq : d.nesting.inString = false)
      (ht : d.run.tokens = [.keyword .otherwise]) (ho : d.outer = [])
      (hb : d.blocks = .chain chain :: blocks) (hs : chain.state = .chained) :
      Move c d none { d.clear with
        blocks := .chain ⟨⟨.last, none, [], c.line⟩ :: chain.clauses, .filling⟩ :: blocks
        nesting := .curly :: d.nesting }
  | endFunction {nesting : Nesting} {b : FunctionBlock} {blocks : List Block} {code : List Asm}
      {chunks : List Chunk} (hn : d.nesting = .curly :: nesting)
      (hi : d.nesting.inHole = false) (ht : d.run.tokens = [])
      (hb : d.blocks = .function b :: blocks) (hr : b.isAnonymous = false)
      (hf : b.finish d.chunks = .ok (code, chunks)) :
      Move c d none ({ d with nesting, blocks, chunks }.added code)
  | endLoop {nesting : Nesting} {b : LoopBlock} {blocks : List Block}
      (hn : d.nesting = .curly :: nesting) (hi : d.nesting.inHole = false)
      (ht : d.run.tokens = []) (hb : d.blocks = .loop b :: blocks) :
      Move c d none ({ d with nesting, blocks }.added b.finish)
  | endClause {nesting : Nesting} {chain : Chain} {blocks : List Block}
      (hn : d.nesting = .curly :: nesting) (hi : d.nesting.inHole = false)
      (ht : d.run.tokens = []) (hb : d.blocks = .chain chain :: blocks)
      (hw : c.nextWordIs "selainnya" = true)
      (hk : ∀ clause ∈ chain.clauses.head?, clause.kind ≠ .last) :
      Move c d none { d with nesting, blocks := .chain ⟨chain.clauses, .chained⟩ :: blocks }
  | endChain {nesting : Nesting} {chain : Chain} {blocks : List Block}
      (hn : d.nesting = .curly :: nesting) (hi : d.nesting.inHole = false)
      (ht : d.run.tokens = []) (hb : d.blocks = .chain chain :: blocks) :
      Move c d none ({ d with nesting, blocks, labels := chain.supplyAfter d.labels }.added
        (chain.code d.labels))

end Desk

end Naskah
