/-
  Reading is determined by texts.  A token that was read stands in the source with its own text
  (`next_spec`), and wherever this text ends it is read as the same token again, on the line where
  it stands then (`next_written`).  So tokens that are written one after the other, with a blank
  and any further gap between them, are read as the same tokens (`stream_printed`).
-/
import Naskah.Proofs.Token.Agreement
import Naskah.Token.Stream

namespace Naskah

open Scan

/-! ## Tokens without their lines -/

namespace Token

/-- The token on another line. -/
def onLine (line : UInt32) : Token → Token
  | integer l => integer { l with line }
  | float l => float { l with line }
  | boolean l => boolean { l with line }
  | string s => string { s with line }
  | identifier l => identifier { l with line }
  | t => t

theorem onLine_onLine (a b : UInt32) (t : Token) : (t.onLine a).onLine b = t.onLine b := by
  cases t <;> rfl

theorem onLine_ofSymbol (line : UInt32) (s : Symbol) : (ofSymbol s).onLine line = ofSymbol s := by
  cases s <;> rfl

theorem text_ofSymbol (s : Symbol) : (ofSymbol s).text = s.text := by
  cases s <;> rfl

end Token

/-! ## Texts of the vocabulary -/

namespace Vocabulary

/-- No two pieces stand for the same. -/
theorem text_of_mem {l : Lexeme} (h : l ∈ lexemes) : l.symbol.text = l.text := by
  have hall : (lexemes.all fun l => decide (l.symbol.text = l.text)) = true := rfl
  exact of_decide_eq_true (List.all_eq_true.1 hall l h)

theorem text_ofSymbol {l : Lexeme} (h : l ∈ symbols) : (Token.ofSymbol l.symbol).text = l.text := by
  rw [Token.text_ofSymbol, text_of_mem (List.mem_of_mem_filter h)]

theorem text_keyword {s : String} {k : Keyword} (h : keyword? s = some k) :
    (Token.keyword k).text = s := by
  unfold keyword? at h
  split at h
  · next text id k' hl =>
    cases h
    have ht : text = s := by simpa using List.find?_some hl
    exact (text_of_mem (List.mem_of_find?_eq_some hl)).trans ht
  · cases h

/-- The symbols that are passed over between tokens, or end the text. -/
theorem text_of_isGap {l : Lexeme} (hl : l ∈ symbols) (hg : l.symbol.isGap = true) :
    l.text.toList ∈ [[' '], ['/', '/'], ['/', '*'], [endMark]] := by
  have hall : (symbols.all fun l => !l.symbol.isGap ||
      [[' '], ['/', '/'], ['/', '*'], [endMark]].contains l.text.toList) = true := rfl
  have h := List.all_eq_true.1 hall l hl
  rw [hg, Bool.not_true, Bool.false_or] at h
  exact List.contains_iff_mem.1 h

/-- What comes after a gap is not passed over. -/
theorem isGap_of_bare {l : Lexeme} {rest : List Char} (hl : l ∈ symbols)
    (hb : Bare (l.text.toList ++ rest)) (he : atEnd (l.text.toList ++ rest) = false) :
    l.symbol.isGap = false := by
  rw [← Bool.not_eq_true]
  intro hg
  have ht := text_of_isGap hl hg
  simp only [List.mem_cons, List.not_mem_nil, or_false] at ht
  rcases ht with ht | ht | ht | ht <;> rw [ht] at hb he
  · exact absurd (hb.blank ' ' rfl) (by decide)
  · exact hb.lineComment ⟨rest, rfl⟩
  · exact hb.blockComment ⟨rest, rfl⟩
  · cases he

end Vocabulary

/-! ## Words -/

namespace Scan

variable {w : List Char} {line : UInt32} {t : Token}

/-- What a word is classified as has the text of the word, and only its line depends on where the
    word stands. -/
theorem classify_spec (h : classify w line = .ok t) : t.text = String.ofList w ∧ t.onLine line = t ∧
    ∀ line', classify w line' = .ok (t.onLine line') := by
  simp only [classify] at h ⊢
  split at h
  · next hw =>
    cases h
    exact ⟨rfl, rfl, fun _ => if_pos hw⟩
  · next hw =>
    simp only [if_neg hw]
    split at h
    · next hd =>
      cases h
      exact ⟨rfl, rfl, fun _ => if_pos hd⟩
    · next hd =>
      simp only [if_neg hd]
      split at h
      · next hf =>
        cases h
        exact ⟨rfl, rfl, fun _ => if_pos hf⟩
      · next hf =>
        simp only [if_neg hf]
        split at h
        · next k hk =>
          cases h
          exact ⟨Vocabulary.text_keyword hk, rfl, fun _ => rfl⟩
        · split at h
          · next hn =>
            cases h
            exact ⟨rfl, rfl, fun _ => if_pos hn⟩
          · cases h

/-- The word at the front of a text ends there. -/
theorem ends_word {cs : List Char} (hne : word cs ≠ []) : Ends (word cs) (afterWord cs) := by
  refine .of_word hne (fun c hc => List.mem_takeWhile_imp hc) fun c hc => ?_
  obtain ⟨cs', hcs⟩ := List.head?_eq_some_iff.1 hc
  have hcs : cs.dropWhile isWordChar = c :: cs' := hcs
  have h := List.head_dropWhile_not isWordChar (l := cs) (by rw [hcs]; exact List.cons_ne_nil c cs')
  simpa only [hcs, List.head_cons] using h

theorem length_of_symbolOf? {cs rest : List Char} {n : Nat} {l : Lexeme}
    (h : symbolOf? cs n = some (l, rest)) : l.text.toList.length = n := by
  unfold symbolOf? at h
  split at h
  · next hn =>
    obtain ⟨l', hl, he⟩ := Option.map_eq_some_iff.1 h
    cases he
    rw [(Vocabulary.mem_symbols hl).2, String.toList_ofList, hn]
  · cases h

/-- The symbol at the front of a text ends there: it is the longest one. -/
theorem ends_symbol {cs rest : List Char} {l : Lexeme} (h : symbol? cs = some (l, rest)) :
    Ends l.text.toList rest := by
  obtain ⟨hl, rfl⟩ := eq_of_symbol? h
  obtain ⟨a, as, ht⟩ := List.exists_cons_of_ne_nil (Vocabulary.text_ne_nil hl)
  refine ⟨fun l' hl' hlt hp => ?_, fun hw => ?_⟩
  · -- the lengths are tried in order, and the longer symbol would have been found
    obtain ⟨longer, n, shorter, hsplit, hn, hnone⟩ := List.findSome?_eq_some_iff.1 h
    obtain ⟨more, hmore⟩ := hp
    have hm : endMark ∉ l'.text.toList := by
      have hall : (Vocabulary.symbols.all fun l => decide (l.text.toList.length ≤ 1) ||
          !l.text.toList.contains endMark) = true := rfl
      have h' := List.all_eq_true.1 hall l' hl'
      rw [decide_eq_false (by rw [ht, List.length_cons] at hlt; omega), Bool.false_or,
        Bool.not_eq_true'] at h'
      simpa using h'
    have hfound := symbolOf?_length hl' hm more
    rw [hmore] at hfound
    have hmem : l'.text.toList.length ∈ longer := by
      have hlen : l.text.toList.length = n := length_of_symbolOf? hn
      have hsorted : [3, 2, 1].Pairwise (· > ·) := by decide
      have hmem := Vocabulary.length_of_mem hl'
      rw [hsplit, List.pairwise_append, List.pairwise_cons] at hsorted
      rw [hsplit, List.mem_append, List.mem_cons] at hmem
      rcases hmem with hmem | hmem | hmem
      · exact hmem
      · omega
      · have := hsorted.2.1.1 _ hmem
        omega
    rw [show symbolOf? _ _ = none from hnone _ hmem] at hfound
    cases hfound
  · have hs := Vocabulary.startsSymbol_of_mem hl ht
    rw [not_startsSymbol_of_isWordChar (hw a (by rw [ht]; exact List.mem_cons_self))] at hs
    cases hs

end Scan

/-! ## Tokens that can be read -/

/-- Tokens that a source can have, with the text that stands for them. -/
inductive Token.Written : Token → Prop
  | symbol {l : Lexeme} (hl : l ∈ Vocabulary.symbols) (hg : l.symbol.isGap = false) :
      Written (.ofSymbol l.symbol)
  | word {w : List Char} {line : UInt32} {t : Token} (hne : w ≠ [])
      (hw : ∀ c ∈ w, isWordChar c = true) (hc : classify w line = .ok t) : Written t

namespace Token.Written

variable {t : Token}

theorem text_ne_nil (ht : t.Written) : t.text.toList ≠ [] := by
  cases ht with
  | symbol hl hg =>
    rw [Vocabulary.text_ofSymbol hl]
    exact Vocabulary.text_ne_nil hl
  | word hne hw hc =>
    rw [(classify_spec hc).1, String.toList_ofList]
    exact hne

/-- A token with the text of a symbol is that symbol. -/
theorem eq_ofSymbol (ht : t.Written) {l : Lexeme} (hs : Vocabulary.symbol? t.text = some l) :
    t = .ofSymbol l.symbol := by
  cases ht with
  | @symbol l' hl' hg =>
    rw [Vocabulary.text_ofSymbol hl', Vocabulary.symbol?_text hl'] at hs
    rw [Option.some.inj hs]
  | @word w line t hne hw hc =>
    -- no symbol begins like a word
    obtain ⟨hl, htext⟩ := Vocabulary.mem_symbols hs
    obtain ⟨a, as, rfl⟩ := List.exists_cons_of_ne_nil hne
    rw [(classify_spec hc).1] at htext
    have hcons : l.text.toList = a :: as := by rw [htext, String.toList_ofList]
    have hstarts := Vocabulary.startsSymbol_of_mem hl hcons
    rw [not_startsSymbol_of_isWordChar (hw a List.mem_cons_self)] at hstarts
    cases hstarts

end Token.Written

namespace Cursor

variable {c c' : Cursor} {t : Token} {g rest : List Char}

/-- Blanks and comments in front change nothing but the line. -/
theorem next_trivia (hg : Trivia g) (rest : List Char) (line : UInt32) :
    (Cursor.mk (g ++ rest) line).next = (Cursor.mk rest (line + newlines g)).next := by
  have hgap : (Cursor.mk (g ++ rest) line).gap = _ := skip_trivia hg line rest
  simp only [next, hgap]
  rfl

/-- The position of a cursor is the length of what stands before it. -/
theorem position_of_append {source : String} {before : List Char}
    (h : source.toList = before ++ c.rest) : c.position source = before.length := by
  rw [position, ← String.length_toList, h, List.length_append, Nat.add_sub_cancel]

/-- **The text of a token is read as the token, wherever it ends.** -/
theorem next_written (ht : t.Written) (he : Ends t.text.toList rest) (line : UInt32) :
    (Cursor.mk (t.text.toList ++ rest) line).next =
      (.ok (.token (t.onLine line)), ⟨rest, line⟩) := by
  cases ht with
  | @symbol l hl hg =>
    rw [Vocabulary.text_ofSymbol hl] at he ⊢
    rw [Token.onLine_ofSymbol]
    exact next_symbol line (Vocabulary.symbol?_text hl) hg he
  | word hne hw hc =>
    obtain ⟨htext, -, hline⟩ := classify_spec hc
    rw [htext, String.toList_ofList] at he ⊢
    exact next_word hne hw (hline line) he

/-- **A token that is read stands in the source with its own text**, after a gap, and ends there.
    It carries the line on which it stands. -/
theorem next_spec (h : c.next = (.ok (.token t), c')) :
    t.Written ∧ Ends t.text.toList c'.rest ∧ t.onLine c'.line = t ∧ c.Reads t.text := by
  have he : atEnd c.gap.rest = false := by
    have hf := found_next c
    rw [h] at hf
    simpa [found] using hf.symm
  -- what is found after the gap
  have hread : t.Written ∧ Ends t.text.toList c'.rest ∧ t.onLine c'.line = t ∧
      lexeme? c.gap.rest = some t.text := by
    cases hs : symbol? c.gap.rest with
    | some p =>
      obtain ⟨l, rest⟩ := p
      obtain ⟨hl, hrest⟩ := eq_of_symbol? hs
      obtain ⟨g, -, -, hb, -⟩ := gap_spec he
      have hends := ends_symbol hs
      rw [next_of_symbol? hs] at h
      cases h
      rw [← Vocabulary.text_ofSymbol hl] at hends
      rw [hrest] at he hb
      refine ⟨.symbol hl (Vocabulary.isGap_of_bare hl hb he), hends, Token.onLine_ofSymbol _ _, ?_⟩
      rw [← hrest] at he
      simp [lexeme?, he, hs, Vocabulary.text_ofSymbol hl]
    | none =>
      have hne := word_ne_nil he hs
      have hw : ∀ a ∈ word c.gap.rest, isWordChar a = true := List.all_eq_true.1 List.all_takeWhile
      rw [next_of_word he hs] at h
      cases hc : classify (word c.gap.rest) c.gap.line with
      | error e =>
        rw [hc] at h
        cases h
      | ok t' =>
        rw [hc] at h
        cases h
        obtain ⟨htext, hline, -⟩ := classify_spec hc
        refine ⟨.word hne hw hc, ?_, hline, ?_⟩
        · rw [htext, String.toList_ofList]
          exact ends_word hne
        · simp [lexeme?, he, hs, htext]
  obtain ⟨t', ht', hrest, hline⟩ := next_lexeme he
  rw [hread.2.2.2, Option.some.injEq] at ht'
  subst ht'
  exact ⟨hread.1, hread.2.1, hread.2.2.1, (reads_iff he hrest hline _).2 rfl⟩

end Cursor

/-! ## Streams -/

/-- The tokens of a stream without their lines. -/
def Stream.unlined (s : Stream) : List Token :=
  s.tokens.map fun p => p.1.onLine 0

namespace Cursor

variable {c c' : Cursor} {t : Token} {g rest : List Char} {ts : List Token}

/-- From the cursor on the source is read as the given tokens, up to its end; their lines are left
    out. -/
def Lexes (c : Cursor) (ts : List Token) : Prop :=
  c.stream.unlined = ts ∧ c.stream.stop = .ok .endOfText

theorem stream_of_token (h : c.next = (.ok (.token t), c')) :
    c.stream = { c'.stream with tokens := (t, c') :: c'.stream.tokens } := by
  rw [stream_eq, h]

theorem lexes_of_token (h : c.next = (.ok (.token t), c')) :
    c.Lexes (t.onLine 0 :: ts) ↔ c'.Lexes ts := by
  rw [Lexes, Lexes, stream_of_token h]
  simp [Stream.unlined]

theorem lexes_of_end (h : c.next.1 = .ok .endOfText) : c.Lexes [] := by
  have hs : c.stream = ⟨[], .ok .endOfText, c.next.2⟩ := by
    rw [stream_eq, show c.next = (.ok .endOfText, c.next.2) from Prod.ext h rfl]
  rw [Lexes, hs]
  exact ⟨rfl, rfl⟩

theorem lexes_trivia (hg : Trivia g) {line : UInt32} :
    (Cursor.mk (g ++ rest) line).Lexes ts ↔
      (Cursor.mk rest (line + newlines g)).Lexes ts := by
  rw [Lexes, Lexes, stream_eq, stream_eq (Cursor.mk rest _), next_trivia hg]

theorem lexes_written (ht : t.Written) (he : Ends t.text.toList rest) {line : UInt32} :
    (Cursor.mk (t.text.toList ++ rest) line).Lexes (t.onLine 0 :: ts) ↔
      (Cursor.mk rest line).Lexes ts := by
  rw [← lexes_of_token (next_written ht he line), Token.onLine_onLine]

/-- The tokens of a stream can be read. -/
theorem written_of_mem {p : Token × Cursor} :
    ∀ {c : Cursor}, p ∈ c.stream.tokens → p.1.Written := by
  intro c
  induction hn : c.rest.length using Nat.strongRecOn generalizing c with
  | ind n ih =>
    intro hp
    rw [stream_eq] at hp
    split at hp
    · next t c' h =>
      rcases List.mem_cons.1 hp with rfl | hp
      · exact (next_spec h).1
      · exact ih _ (hn ▸ length_of_next h) rfl hp
    · cases hp

end Cursor

/-! ## Printing -/

/-- Blanks and comments of which a blank comes first. -/
def Separates (g : List Char) : Prop :=
  ∃ b g', g = b :: g' ∧ Text.isBlank b = true ∧ Trivia g'

/-- The texts of tokens one after the other, each two of them separated. -/
inductive Printed : List Token → List Char → Prop
  | nil : Printed [] []
  | single (t : Token) : Printed [t] t.text.toList
  | cons (t : Token) {t' : Token} {ts : List Token} {g cs : List Char} (hg : Separates g)
      (h : Printed (t' :: ts) cs) : Printed (t :: t' :: ts) (t.text.toList ++ (g ++ cs))

namespace Cursor

/-- What was printed is read as what it was printed from. -/
theorem lexes_printed {ts : List Token} {cs : List Char} (h : Printed ts cs)
    (ht : ∀ t ∈ ts, t.Written) (line : UInt32) :
    (Cursor.mk cs line).Lexes (ts.map (Token.onLine 0)) := by
  have hend : ∀ line, (Cursor.mk [] line).Lexes [] := fun line =>
    lexes_of_end (congrArg Prod.fst (next_atEnd rfl line))
  induction h generalizing line with
  | nil => exact hend line
  | single t =>
    have hw := ht t List.mem_cons_self
    rw [← List.append_nil t.text.toList]
    exact (lexes_written hw (.of_apart hw.text_ne_nil .nil)).2 (hend line)
  | @cons t t' ts g cs hg _ ih =>
    obtain ⟨b, g', rfl, hb, hg'⟩ := hg
    have hw := ht t List.mem_cons_self
    have hends : Ends t.text.toList (b :: g' ++ cs) :=
      .of_apart hw.text_ne_nil (.cons hb (g' ++ cs))
    rw [List.map_cons, lexes_written hw hends, lexes_trivia (.blank hb hg')]
    exact ih (fun t ht' => ht t (List.mem_cons_of_mem _ ht')) _

/-- **Printing and reading again is the identity**, for all tokens that a source begins with: with
    separators of any kind between their texts they are read as the same tokens, up to the end, and
    only their lines may differ.  And the text of every token is what reading takes off the source
    for it. -/
theorem stream_printed (source : String) :
    (∀ ts cs, ts <+: (start source).stream.tokens.map Prod.fst → Printed ts cs →
      (start (.ofList cs)).Lexes (ts.map (Token.onLine 0))) ∧
    ∀ (c c' : Cursor) t, c.next = (.ok (.token t), c') → c.Reads t.text := by
  refine ⟨fun ts cs hts hcs => ?_, fun c c' t h => (next_spec h).2.2.2⟩
  rw [start, String.toList_ofList]
  refine lexes_printed hcs (fun t ht => ?_) 1
  obtain ⟨p, hp, rfl⟩ := List.mem_map.1 (hts.mem ht)
  exact written_of_mem hp

/-- Three tokens without blanks between them, printed with comments between them. -/
theorem stream_printed_assignment :
    [.identifier ⟨"a", 1⟩, .compound (.assign .div), .identifier ⟨"b", 1⟩] <+:
      (start "a/=b").stream.tokens.map Prod.fst ∧
    Printed [.identifier ⟨"a", 1⟩, .compound (.assign .div), .identifier ⟨"b", 1⟩]
      "a\n/* = */ /= //\nb".toList ∧
    (start "a\n/* = */ /= //\nb").Lexes
      [.identifier ⟨"a", 0⟩, .compound (.assign .div), .identifier ⟨"b", 0⟩] := by
  have hts : [.identifier ⟨"a", 1⟩, .compound (.assign .div), .identifier ⟨"b", 1⟩] <+:
      (start "a/=b").stream.tokens.map Prod.fst := by
    have ha : (start "a/=b").next = (.ok (.token (.identifier ⟨"a", 1⟩)), ⟨"/=b".toList, 1⟩) := rfl
    have hsign : (Cursor.mk "/=b".toList 1).next =
        (.ok (.token (.compound (.assign .div))), ⟨"b".toList, 1⟩) := rfl
    have hb : (Cursor.mk "b".toList 1).next = (.ok (.token (.identifier ⟨"b", 1⟩)), ⟨[], 1⟩) := rfl
    rw [stream_of_token ha, stream_of_token hsign, stream_of_token hb]
    exact List.prefix_append [_, _, _] _
  have hblock : Trivia ('/' :: '*' :: (" = ".toList ++ '*' :: '/' :: [' '])) :=
    .blockComment (by decide) (by decide) (.blank rfl .nil)
  have hline : Trivia ('/' :: '/' :: ([] ++ '\n' :: [])) :=
    .lineComment (by decide) (by decide) .nil
  have hfirst : Separates "\n/* = */ ".toList := ⟨'\n', _, rfl, rfl, hblock⟩
  have hsecond : Separates " //\n".toList := ⟨' ', _, rfl, rfl, hline⟩
  have hcs : Printed [.identifier ⟨"a", 1⟩, .compound (.assign .div), .identifier ⟨"b", 1⟩]
      "a\n/* = */ /= //\nb".toList := .cons _ hfirst (.cons _ hsecond (.single _))
  exact ⟨hts, hcs, (stream_printed "a/=b").1 _ _ hts hcs⟩

end Cursor

end Naskah
