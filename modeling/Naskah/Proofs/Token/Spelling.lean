/-
  Reading what was written: a word or sign that ends where it was written (`Ends`) is read as the
  token it stands for (`next_word`, `next_symbol`), and the text of a string is read back from any
  escaped form of it (`segment_quote`, `segment_dollar`).
-/
import Mathlib.Data.List.TakeWhile
import Naskah.Proofs.Token.Lookahead
import Naskah.Proofs.Tree.Render

namespace Naskah

namespace Cursor

/-! ## Gaps -/

section
variable {b : Char} {cs : List Char} {line : UInt32}

theorem gap_blank (hb : Text.isBlank b = true) :
    (Cursor.mk (b :: cs) line).gap = (Cursor.mk cs (lineAfter line b)).gap := by
  have hs : b ≠ '/' := by rintro rfl; cases hb
  simp only [gap]
  rw [skip_blanks (fun _ h _ => hs h) (fun _ h _ => hs h), if_pos hb]

/-- A blank in front changes nothing but the line. -/
theorem next_blank (hb : Text.isBlank b = true) :
    (Cursor.mk (b :: cs) line).next = (Cursor.mk cs (lineAfter line b)).next := by
  simp only [next, gap_blank hb]

theorem search_blank (hb : Text.isBlank b = true) (wanted : String) :
    (Cursor.mk (b :: cs) line).search wanted =
      (Cursor.mk cs (lineAfter line b)).search wanted := by
  simp only [search, gap_blank hb]

theorem nextWordIs_blank (hb : Text.isBlank b = true) (w : String) :
    (Cursor.mk (b :: cs) line).nextWordIs w =
      (Cursor.mk cs (lineAfter line b)).nextWordIs w := by
  simp only [nextWordIs, gap_blank hb]

/-- There is no gap before a character that is no blank and begins no comment. -/
theorem gap_eq {c : Char} (hb : Text.isBlank c = false)
    (hc : c = '/' → cs.head? ≠ some '/' ∧ cs.head? ≠ some '*') :
    (Cursor.mk (c :: cs) line).gap = ⟨c :: cs, line, false⟩ := by
  simp only [gap]
  rw [skip_blanks (fun _ h he => (hc h).1 (by rw [he]; rfl))
    (fun _ h he => (hc h).2 (by rw [he]; rfl)), if_neg (by simp [hb])]

end

end Cursor

namespace Scan

/-- The end of a text, or a blank. -/
def Apart (rest : List Char) : Prop :=
  ∀ c ∈ rest.head?, Text.isBlank c = true

theorem Apart.nil : Apart [] := by
  simp [Apart]

theorem Apart.cons {c : Char} (hc : Text.isBlank c = true) (cs : List Char) : Apart (c :: cs) := by
  simpa [Apart] using hc

/-! ## The end -/

theorem word_atEnd {cs : List Char} (h : atEnd cs = true) : word cs = [] := by
  cases cs with
  | nil => rfl
  | cons c cs =>
    obtain rfl : c = endMark := by simpa [atEnd] using h
    rfl

end Scan

namespace Cursor

variable {cs : List Char}

theorem gap_atEnd (h : atEnd cs = true) (line : UInt32) :
    (Cursor.mk cs line).gap = ⟨cs, line, false⟩ := by
  cases cs with
  | nil => rfl
  | cons c cs =>
    obtain rfl : c = endMark := by simpa [atEnd] using h
    exact gap_eq rfl (by rintro ⟨⟩)

theorem next_atEnd (h : atEnd cs = true) (line : UInt32) :
    (Cursor.mk cs line).next = (.ok .endOfText, ⟨cs, line⟩) := by
  simp [next, gap_atEnd h, h]

end Cursor

namespace Scan

/-! ## Words -/

theorem not_isBlank_of_isWordChar {c : Char} (h : isWordChar c = true) : Text.isBlank c = false := by
  simp only [isWordChar, Bool.and_eq_true, Bool.not_eq_true'] at h
  exact h.1

theorem not_startsSymbol_of_isWordChar {c : Char} (h : isWordChar c = true) :
    Vocabulary.startsSymbol c = false := by
  simp only [isWordChar, Bool.and_eq_true, Bool.not_eq_true'] at h
  exact h.2

theorem isWordChar_of_isBlank {c : Char} (h : Text.isBlank c = true) : isWordChar c = false := by
  simp [isWordChar, h]

/-- What follows a text does not go on with it: no longer symbol stands there, and if the text is a
    word, no longer word. -/
structure Ends (w rest : List Char) : Prop where
  symbol : ∀ l ∈ Vocabulary.symbols, w.length < l.text.toList.length →
    ¬ l.text.toList <+: w ++ rest
  word : (∀ c ∈ w, isWordChar c = true) → ∀ c ∈ rest.head?, isWordChar c = false

section
variable {w rest : List Char} (hw : ∀ c ∈ w, isWordChar c = true) (he : Ends w rest)
include hw he

theorem word_append : word (w ++ rest) = w := by
  rw [word, List.takeWhile_append_of_pos hw]
  cases rest with
  | nil => simp
  | cons c cs => rw [List.takeWhile_cons_of_neg (by simp [he.word hw c rfl])]; simp

theorem afterWord_append : afterWord (w ++ rest) = rest := by
  rw [afterWord, List.dropWhile_append_of_pos hw]
  cases rest with
  | nil => rfl
  | cons c cs => rw [List.dropWhile_cons_of_neg (by simp [he.word hw c rfl])]

end

end Scan

open Scan

namespace Cursor

variable {rest : List Char} {line : UInt32}

theorem gap_word {w : List Char} (hne : w ≠ []) (hw : ∀ c ∈ w, isWordChar c = true)
    (rest : List Char) (line : UInt32) :
    (Cursor.mk (w ++ rest) line).gap = ⟨w ++ rest, line, false⟩ := by
  obtain ⟨c, cs, rfl⟩ := List.exists_cons_of_ne_nil hne
  have hc := hw c (by simp)
  refine gap_eq (not_isBlank_of_isWordChar hc) fun he => ?_
  rw [he] at hc
  cases hc

/-- **A word that ends is read as what it is classified as.** -/
theorem next_word {w : List Char} {t : Token} (hne : w ≠ []) (hw : ∀ c ∈ w, isWordChar c = true)
    (ht : classify w line = .ok t) (he : Ends w rest) :
    (Cursor.mk (w ++ rest) line).next = (.ok (.token t), Cursor.mk rest line) := by
  have hg := gap_word hne hw rest line
  have hs : symbol? (w ++ rest) = none := by
    obtain ⟨c, cs, rfl⟩ := List.exists_cons_of_ne_nil hne
    exact symbol?_eq_none (not_startsSymbol_of_isWordChar (hw c (by simp))) _
  have hend : atEnd (w ++ rest) = false := by
    obtain ⟨c, cs, rfl⟩ := List.exists_cons_of_ne_nil hne
    refine atEnd_eq_false.2 ⟨c, cs ++ rest, rfl, ?_⟩
    rintro rfl
    cases hw endMark (by simp)
  rw [next_of_word (by rw [hg]; exact hend) (by rw [hg]; exact hs), hg]
  simp only [word_append hw he, afterWord_append hw he, ht]
  rfl

end Cursor

/-! ## Symbols -/

/-- Symbols that are passed over between tokens, or end the text. -/
def Symbol.isGap : Symbol → Bool
  | .punctuation .space | .punctuation .lineComment | .punctuation .openComment
  | .punctuation .endOfText => true
  | _ => false

namespace Vocabulary

/-- No symbol of more than one character has a blank in it. -/
theorem not_isBlank_of_mem {l : Lexeme} (hl : l ∈ symbols) (hn : 1 < l.text.toList.length) {c : Char}
    (hc : c ∈ l.text.toList) : Text.isBlank c = false := by
  have hall : (symbols.all fun l =>
      decide (l.text.toList.length ≤ 1) || l.text.toList.all fun c => !Text.isBlank c) = true := rfl
  have h := List.all_eq_true.1 hall l hl
  simp only [Bool.or_eq_true, decide_eq_true_eq, List.all_eq_true, Bool.not_eq_true'] at h
  exact h.resolve_left (by omega) c hc

theorem length_of_mem {l : Lexeme} (hl : l ∈ symbols) : l.text.toList.length ∈ [3, 2, 1] := by
  have hall : (symbols.all fun l => [3, 2, 1].contains l.text.toList.length) = true := rfl
  exact List.contains_iff_mem.1 (List.all_eq_true.1 hall l hl)

/-- A symbol that is not passed over begins with no blank and no comment. -/
theorem not_gap_of_mem {l : Lexeme} (hl : l ∈ symbols) (hg : l.symbol.isGap = false) {c : Char}
    {cs : List Char} (ht : l.text.toList = c :: cs) :
    Text.isBlank c = false ∧ (c = '/' → cs.head? ≠ some '/' ∧ cs.head? ≠ some '*') := by
  have hall : (symbols.all fun l => l.symbol.isGap || (!l.text.toList.head?.any Text.isBlank &&
      (l.text.toList.head? != some '/' || (l.text.toList.tail.head? != some '/' &&
        l.text.toList.tail.head? != some '*')))) = true := rfl
  have h := List.all_eq_true.1 hall l hl
  rw [hg, ht, Bool.false_or, Bool.and_eq_true] at h
  refine ⟨by simpa using h.1, fun hc => ?_⟩
  simpa [hc] using h.2

theorem endMark_not_mem {l : Lexeme} (hl : l ∈ symbols) (hg : l.symbol.isGap = false) :
    endMark ∉ l.text.toList := by
  have hall : (symbols.all fun l => l.symbol.isGap || !l.text.toList.contains endMark) = true := rfl
  have h := List.all_eq_true.1 hall l hl
  rw [hg, Bool.false_or, Bool.not_eq_true'] at h
  simpa using h

end Vocabulary

namespace Scan

open Vocabulary

variable {l : Lexeme} {rest : List Char}

/-- The symbol of a given length at the front of a text. -/
def symbolOf? (cs : List Char) (n : Nat) : Option (Lexeme × List Char) :=
  if (window n cs).length = n then
    (Vocabulary.symbol? (String.ofList (window n cs))).map fun l => (l, cs.drop n)
  else none

theorem symbolOf?_length (hl : l ∈ symbols) (hm : endMark ∉ l.text.toList) (rest : List Char) :
    symbolOf? (l.text.toList ++ rest) l.text.toList.length = some (l, rest) := by
  have hw : window l.text.toList.length (l.text.toList ++ rest) = l.text.toList := by
    rw [window, List.take_left, List.takeWhile_eq_self_iff]
    intro c hc
    rw [decide_eq_true_eq]
    rintro rfl
    exact hm hc
  simp [symbolOf?, hw, symbol?_text hl]

theorem symbolOf?_eq_none {cs : List Char} {n : Nat}
    (h : ∀ l ∈ symbols, l.text.toList.length = n → ¬ l.text.toList <+: cs) :
    symbolOf? cs n = none := by
  unfold symbolOf?
  split
  · next hn =>
    cases hs : Vocabulary.symbol? (String.ofList (window n cs)) with
    | none => rfl
    | some l =>
      obtain ⟨hl, ht⟩ := mem_symbols hs
      have he : l.text.toList = window n cs := by rw [ht, String.toList_ofList]
      have hp : l.text.toList <+: cs := by
        rw [he, window_eq_take hn]
        exact List.take_prefix n cs
      exact absurd hp (h l hl (by rw [he, hn]))
  · rfl

/-- The symbol at the front of a text, if no longer one is. -/
theorem symbol?_eq (hl : l ∈ symbols) (hg : l.symbol.isGap = false)
    (h : ∀ l' ∈ symbols, l.text.toList.length < l'.text.toList.length →
      ¬ l'.text.toList <+: l.text.toList ++ rest) :
    symbol? (l.text.toList ++ rest) = some (l, rest) := by
  have hlong : ∀ n, l.text.toList.length < n → symbolOf? (l.text.toList ++ rest) n = none :=
    fun n hn => symbolOf?_eq_none fun l' hl' he => h l' hl' (he ▸ hn)
  have hhere := symbolOf?_length hl (endMark_not_mem hl hg) rest
  change [3, 2, 1].findSome? (symbolOf? _) = _
  have hn := length_of_mem hl
  generalize l.text.toList.length = n at hlong hhere hn
  simp only [List.mem_cons, List.not_mem_nil, or_false] at hn
  rcases hn with rfl | rfl | rfl
  · simp [hhere]
  · simp [hhere, hlong 3]
  · simp [hhere, hlong 3, hlong 2]

/-- A word ends where no further character of a word stands. -/
theorem Ends.of_word {w : List Char} (hne : w ≠ []) (hw : ∀ c ∈ w, isWordChar c = true)
    (hr : ∀ c ∈ rest.head?, isWordChar c = false) : Ends w rest := by
  refine ⟨fun l hl _ hp => ?_, fun _ => hr⟩
  -- no symbol begins like a word
  obtain ⟨a, as, rfl⟩ := List.exists_cons_of_ne_nil hne
  obtain ⟨b, bs, ht⟩ := List.exists_cons_of_ne_nil (text_ne_nil hl)
  rw [ht, List.cons_append, List.cons_prefix_cons] at hp
  have hs := not_startsSymbol_of_isWordChar (hw a List.mem_cons_self)
  rw [← hp.1, startsSymbol_of_mem hl ht] at hs
  cases hs

/-- A sign of one character ends where no longer one that begins with it stands. -/
theorem Ends.of_char {c : Char} {cs : List Char} (hc : startsSymbol c = true)
    (h : ∀ l ∈ symbols, 1 < l.text.toList.length → l.text.toList.head? = some c →
      ¬ l.text.toList <+: c :: cs) : Ends [c] cs := by
  refine ⟨fun l hl hlt hp => h l hl hlt ?_ hp, fun hw => ?_⟩
  · obtain ⟨b, bs, ht⟩ := List.exists_cons_of_ne_nil (text_ne_nil hl)
    rw [ht] at hp ⊢
    exact congrArg some (List.cons_prefix_cons.1 hp).1
  · rw [not_startsSymbol_of_isWordChar (hw c List.mem_cons_self)] at hc
    cases hc

/-- A text in front of a blank ends there. -/
theorem Ends.of_apart {w : List Char} (hw : w ≠ []) (hr : Apart rest) : Ends w rest := by
  refine ⟨fun l hl hlt hp => ?_, fun _ c hc => isWordChar_of_isBlank (hr c hc)⟩
  have hn : 0 < w.length := List.length_pos_iff.2 hw
  cases rest with
  | nil =>
    have := hp.length_le
    simp only [List.append_nil] at this
    omega
  | cons b cs =>
    -- the longer symbol would have the blank in it
    have hb : b ∈ l.text.toList := by
      rw [List.prefix_iff_eq_take.1 hp, List.take_append, List.take_of_length_le (by omega)]
      refine List.mem_append_right _ ?_
      rw [show l.text.toList.length - w.length = l.text.toList.length - w.length - 1 + 1 by omega,
        List.take_succ_cons]
      exact List.mem_cons_self ..
    have := not_isBlank_of_mem hl (by omega) hb
    rw [hr b rfl] at this
    cases this

end Scan

namespace Cursor

section
variable {s : String} {l : Lexeme} {rest : List Char}

theorem gap_symbol (line : UInt32) (hs : Vocabulary.symbol? s = some l)
    (hg : l.symbol.isGap = false) (he : Ends s.toList rest) :
    (Cursor.mk (s.toList ++ rest) line).gap = ⟨s.toList ++ rest, line, false⟩ := by
  obtain ⟨hl, rfl⟩ := Vocabulary.mem_symbols hs
  obtain ⟨c, cs, ht⟩ := List.exists_cons_of_ne_nil (Vocabulary.text_ne_nil hl)
  obtain ⟨hb, hc⟩ := Vocabulary.not_gap_of_mem hl hg ht
  rw [ht] at he ⊢
  refine gap_eq hb fun hslash => ?_
  cases cs with
  | cons a as => exact hc hslash
  | nil =>
    -- the beginning of a comment is a longer symbol
    subst hslash
    have hlong : ∀ {a : Char} (l' : Lexeme), Vocabulary.symbol? l'.text = some l' →
        l'.text.toList = ['/', a] → rest.head? ≠ some a := by
      intro a l' hl' ht' hh
      obtain ⟨cs, rfl⟩ := List.head?_eq_some_iff.1 hh
      refine he.symbol l' (Vocabulary.mem_symbols hl').1 ?_ ?_
      · rw [ht']
        exact Nat.lt_succ_self 1
      · rw [ht']
        exact ⟨cs, rfl⟩
    exact ⟨hlong ⟨"//", 709, .punctuation .lineComment⟩ rfl rfl,
      hlong ⟨"/*", 710, .punctuation .openComment⟩ rfl rfl⟩

/-- **A sign that ends is read as its token.** -/
theorem next_symbol (line : UInt32) (hs : Vocabulary.symbol? s = some l)
    (hg : l.symbol.isGap = false) (he : Ends s.toList rest) :
    (Cursor.mk (s.toList ++ rest) line).next =
      (.ok (.token (.ofSymbol l.symbol)), Cursor.mk rest line) := by
  have hgap := gap_symbol line hs hg he
  obtain ⟨hl, rfl⟩ := Vocabulary.mem_symbols hs
  rw [next_of_symbol? (by rw [hgap]; exact symbol?_eq hl hg he.symbol), hgap]

/-- A sign that comes next is found. -/
theorem search_spaced (line : UInt32) (y : Symbol)
    (hs : (Vocabulary.symbol? s).map Lexeme.symbol = some y) (hg : y.isGap = false)
    (hr : Apart rest) :
    (Cursor.mk (Tree.spaced s ++ rest) line).search s = .ok () := by
  change (Cursor.mk (' ' :: (s.toList ++ rest)) line).search s = _
  obtain ⟨l, hsym, rfl⟩ := Option.map_eq_some_iff.1 hs
  obtain ⟨hl, rfl⟩ := Vocabulary.mem_symbols hsym
  have he : Ends l.text.toList rest := .of_apart (Vocabulary.text_ne_nil hl) hr
  have hgap := gap_symbol line hsym hg he
  have hsym := symbol?_eq hl hg he.symbol
  have hx : lexeme? (l.text.toList ++ rest) = some l.text := by
    unfold lexeme?
    split
    · next he => rw [symbol?_of_atEnd he] at hsym; cases hsym
    · rw [hsym]
  have hgap : (Cursor.mk (l.text.toList ++ rest) (lineAfter line ' ')).gap = _ := hgap
  rw [search_blank rfl, search, hgap]
  simp only [hx, if_true]

end

end Cursor

/-! ## Spelled tokens -/

/-- A text that is read as a token wherever a blank follows; the token may know its line. -/
def Spelled (w : List Char) (t : UInt32 → Token) : Prop :=
  ∀ rest line, Apart rest →
    (Cursor.mk (w ++ rest) line).next = (.ok (.token (t line)), Cursor.mk rest line)

namespace Spelled

theorem of_word {w : List Char} {t : UInt32 → Token} (hne : w ≠ [])
    (hw : ∀ c ∈ w, isWordChar c = true) (ht : ∀ line, classify w line = .ok (t line)) :
    Spelled w t :=
  fun _ line hr => Cursor.next_word hne hw (ht line) (.of_apart hne hr)

/-- Words of the language; the conditions are checked by evaluation. -/
theorem of_keyword {s : String} {k : Keyword}
    (hw : (!s.isEmpty && s.toList.all isWordChar) = true)
    (ht : ∀ line, classify s.toList line = .ok (.keyword k)) :
    Spelled s.toList fun _ => .keyword k := by
  simp only [Bool.and_eq_true, List.all_eq_true] at hw
  exact of_word (by simpa using hw.1) hw.2 ht

theorem of_symbol {s : String} (y : Symbol)
    (hs : (Vocabulary.symbol? s).map Lexeme.symbol = some y) (hg : y.isGap = false) :
    Spelled s.toList fun _ => .ofSymbol y := by
  obtain ⟨l, hl, rfl⟩ := Option.map_eq_some_iff.1 hs
  intro rest line hr
  obtain ⟨hm, rfl⟩ := Vocabulary.mem_symbols hl
  exact Cursor.next_symbol line hl hg (.of_apart (Vocabulary.text_ne_nil hm) hr)

end Spelled

/-! ## Names and numbers -/

namespace Scan

theorem toNat_of_isNameChar {c : Char} (h : isNameChar c = true) :
    48 ≤ c.toNat ∧ c.toNat ≤ 122 := by
  replace h : ((decide (65 ≤ c.val ∧ c.val ≤ 90) || (97 ≤ c.val && c.val ≤ 122) ||
    (48 ≤ c.val && c.val ≤ 57)) || c == '_') = true := h
  simp only [Bool.or_eq_true, Bool.and_eq_true, decide_eq_true_eq, UInt32.le_iff_toNat_le,
    beq_iff_eq] at h
  rcases h with ((h | h) | h) | rfl
  · exact ⟨Nat.le_trans (by decide) h.1, Nat.le_trans h.2 (by decide)⟩
  · exact ⟨Nat.le_trans (by decide) h.1, Nat.le_trans h.2 (by decide)⟩
  · exact ⟨Nat.le_trans (by decide) h.1, Nat.le_trans h.2 (by decide)⟩
  · decide

theorem isWordChar_of_isNameChar {c : Char} (h : isNameChar c = true) : isWordChar c = true := by
  have hs : Vocabulary.startsSymbol c = false := by
    have hall : (Vocabulary.symbolStarts.all fun c => !isNameChar c) = true := rfl
    rw [← Bool.not_eq_true]
    intro hc
    have := List.all_eq_true.1 hall c (List.contains_iff_mem.1 hc)
    simp [h] at this
  have hb : Text.isBlank c = false := by
    have hn := toNat_of_isNameChar h
    simp only [Text.isBlank, Bool.or_eq_false_iff, Bool.and_eq_false_iff, decide_eq_false_iff_not,
      beq_eq_false_iff_ne]
    omega
  simp [isWordChar, hb, hs]

theorem isNameChar_of_isNameStart {c : Char} (h : isNameStart c = true) : isNameChar c = true := by
  simp only [isNameStart, isNameChar, Char.isAlphanum, Bool.or_eq_true] at h ⊢
  exact h.imp_left .inl

theorem isNameChar_of_isDigit {c : Char} (h : c.isDigit = true) : isNameChar c = true := by
  simp [isNameChar, Char.isAlphanum, h]

theorem isNameChar_of_isName {w : List Char} (h : isName w = true) : ∀ c ∈ w, isNameChar c = true := by
  cases w with
  | nil => simp
  | cons a as =>
    simp only [isName, Bool.and_eq_true, List.all_eq_true] at h
    exact List.forall_mem_cons.2 ⟨isNameChar_of_isNameStart h.1, h.2⟩

theorem toNat_of_isDigit {c : Char} (h : c.isDigit = true) : c.toNat ≤ 57 := by
  simp only [Char.isDigit, Bool.and_eq_true, decide_eq_true_eq, UInt32.le_iff_toNat_le] at h
  exact h.2

theorem not_isDigit_of_isNameStart {c : Char} (h : isNameStart c = true) : c.isDigit = false := by
  replace h : ((decide (65 ≤ c.val ∧ c.val ≤ 90) || (97 ≤ c.val && c.val ≤ 122)) || c == '_') =
    true := h
  simp only [Bool.or_eq_true, Bool.and_eq_true, decide_eq_true_eq, UInt32.le_iff_toNat_le,
    beq_iff_eq] at h
  have hn : 57 < c.toNat := by
    rcases h with (h | h) | rfl
    · exact Nat.lt_of_lt_of_le (by decide) h.1
    · exact Nat.lt_of_lt_of_le (by decide) h.1
    · decide
  rw [Bool.eq_false_iff]
  intro hd
  exact absurd (toNat_of_isDigit hd) (by omega)

theorem toLower_of_isDigit {c : Char} (h : c.isDigit = true) : c.toLower = c := by
  refine dif_neg ?_
  rintro ⟨ha, -⟩
  have ha : 65 ≤ c.toNat := UInt32.le_iff_toNat_le.1 ha
  exact absurd (toNat_of_isDigit h) (by omega)

/-- A legal name is an identifier. -/
theorem classify_name {x : String} (h : Tree.isLegalName x = true) (line : UInt32) :
    classify x.toList line = .ok (.identifier ⟨x, line⟩) := by
  simp only [Tree.isLegalName, Bool.and_eq_true, Bool.not_eq_true', Option.isNone_iff_eq_none] at h
  obtain ⟨⟨hn, hk⟩, ht⟩ := h
  obtain ⟨c, cs, hx⟩ : ∃ c cs, x.toList = c :: cs := by
    cases hx : x.toList with
    | nil => rw [hx] at hn; cases hn
    | cons c cs => exact ⟨c, cs, rfl⟩
  have hs : isNameStart c = true := by
    rw [hx, isName, Bool.and_eq_true] at hn
    exact hn.1
  have hd := not_isDigit_of_isNameStart hs
  have hall : x.toList.all Char.isDigit = false := by simp [hx, hd]
  have hf : isFraction x.toList = false := by
    have hp : c ≠ '.' := by rintro rfl; cases hs
    simp [isFraction, hx, hd, hp]
  simp [classify, ht, hall, hf, hk, hn]

theorem classify_digits {w : List Char} (hne : w ≠ []) (hw : ∀ c ∈ w, c.isDigit = true)
    (line : UInt32) : classify w line = .ok (.integer ⟨String.ofList w, line⟩) := by
  have ht : isTruthWord w = false := by
    have hm : w.map Char.toLower = w := by
      rw [List.map_congr_left fun c hc => toLower_of_isDigit (hw c hc), List.map_id']
    obtain ⟨c, cs, rfl⟩ := List.exists_cons_of_ne_nil hne
    have hc := hw c (by simp)
    rw [isTruthWord, hm, Bool.or_eq_false_iff]
    simp only [beq_eq_false_iff_ne]
    constructor <;> rintro ⟨⟩ <;> cases hc
  simp [classify, ht, List.all_eq_true.2 hw]

/-- A fraction has one point, and digits around it. -/
theorem exists_of_isFraction {w : List Char} (h : isFraction w = true) :
    ∃ whole part, w = whole ++ '.' :: part ∧ (∀ c ∈ whole, c.isDigit = true) ∧
      (∀ c ∈ part, c.isDigit = true) ∧ ¬ (whole = [] ∧ part = []) := by
  simp only [isFraction, Bool.and_eq_true, beq_iff_eq, decide_eq_true_eq, List.all_eq_true,
    Bool.or_eq_true] at h
  obtain ⟨⟨hcount, hlen⟩, hall⟩ := h
  have hmem : '.' ∈ w := List.count_pos_iff.1 (by omega)
  obtain ⟨whole, part, rfl, hwhole⟩ := List.eq_append_cons_of_mem hmem
  have hpart : '.' ∉ part := by
    rw [List.count_append, List.count_cons_self, List.count_eq_zero_of_not_mem hwhole] at hcount
    exact List.count_eq_zero.1 (by omega)
  refine ⟨whole, part, rfl, fun c hc => ?_, fun c hc => ?_, ?_⟩
  · exact (hall c (by simp [hc])).resolve_right (ne_of_mem_of_not_mem hc hwhole)
  · exact (hall c (by simp [hc])).resolve_right (ne_of_mem_of_not_mem hc hpart)
  · rintro ⟨rfl, rfl⟩
    exact absurd hlen (by simp)

theorem classify_fraction {w : List Char} (h : isFraction w = true) (line : UInt32) :
    classify w line = .ok (.float ⟨String.ofList w, line⟩) := by
  have hpoint : '.' ∈ w := by
    obtain ⟨whole, part, rfl, -⟩ := exists_of_isFraction h
    simp
  have hall : w.all Char.isDigit = false := List.all_eq_false.2 ⟨'.', hpoint, by decide⟩
  have ht : isTruthWord w = false := by
    have hlower : '.' ∈ w.map Char.toLower := List.mem_map.2 ⟨'.', hpoint, rfl⟩
    rw [isTruthWord, Bool.or_eq_false_iff]
    simp only [beq_eq_false_iff_ne]
    constructor <;> intro he <;> rw [he] at hlower <;> exact absurd hlower (by decide)
  simp [classify, ht, hall, h]

end Scan

namespace Cursor

/-! ## Texts of strings -/

/-- What stands for a character between quotes: itself, or another one behind a backslash. -/
inductive Escaped (q : Quote) : Char → List Char → Prop
  | plain {c : Char} (he : c ≠ endMark) (hq : c ≠ q.char) (hb : c ≠ '\\') (hd : c ≠ '$') :
      Escaped q c [c]
  | coded {c e : Char} (h : unescape e = [c]) : Escaped q c ['\\', e]

section
variable {q : Quote} {c : Char} {w : List Char}

theorem backslash_ne_quote (q : Quote) : '\\' ≠ q.char := by
  cases q <;> decide

/-- No character is written as the quote alone. -/
theorem Escaped.head (h : Escaped q c w) : ∃ a as, w = a :: as ∧ a ≠ q.char := by
  cases h with
  | plain _ hq => exact ⟨_, _, rfl, hq⟩
  | coded => exact ⟨_, _, rfl, backslash_ne_quote q⟩

/-- A character is read back from what stands for it. -/
theorem Escaped.segmentFrom (h : Escaped q c w) (read : List Char) (line : UInt32)
    (rest : List Char) :
    Cursor.segmentFrom q.char read line (w ++ rest) =
      Cursor.segmentFrom q.char (c :: read) (line + newlines w) rest := by
  cases h with
  | plain he hq hb hd =>
    rw [← lineAfter_add_newlines, List.singleton_append, segmentFrom.eq_def]
    simp [he, hq, hb, hd]
  | @coded e h =>
    have he : e ≠ endMark := by rintro rfl; cases h
    have hn : lineAfter line e = line + newlines ['\\', e] := by
      rw [← lineAfter_add_newlines, ← lineAfter_add_newlines, newlines_nil, UInt32.add_zero]
      rfl
    change Cursor.segmentFrom q.char read line ('\\' :: e :: rest) = _
    rw [Cursor.segmentFrom, if_neg (by decide), if_neg (backslash_ne_quote q)]
    simp only [if_neg he, h, hn]
    rfl

end

section
variable {q : Quote} {write : Char → List Char} (hw : ∀ c, Escaped q c (write c))
include hw

/-- A text is read back from what stands for its characters. -/
theorem segmentFrom_flatMap (read : List Char) (line : UInt32) (rest s : List Char) :
    segmentFrom q.char read line (s.flatMap write ++ rest) =
      segmentFrom q.char (s.reverse ++ read) (line + newlines (s.flatMap write)) rest := by
  induction s generalizing read line with
  | nil => rw [List.flatMap_nil, newlines_nil, UInt32.add_zero]; rfl
  | cons c cs ih =>
    rw [List.flatMap_cons, List.append_assoc, (hw c).segmentFrom, ih, newlines_append,
      UInt32.add_assoc, List.reverse_cons, List.append_assoc]
    rfl

theorem segment_quote (line : UInt32) (rest : List Char) (s : String) :
    (Cursor.mk (s.toList.flatMap write ++ q.char :: rest) line).segment q.char =
      (.closed s, Cursor.mk rest (line + newlines (s.toList.flatMap write))) := by
  have h := segmentFrom_flatMap hw [] line (q.char :: rest) s.toList
  have hq : q.char ≠ endMark ∧ ∀ line, lineAfter line q.char = line := by
    cases q <;> exact ⟨by decide, fun _ => rfl⟩
  rw [Cursor.segmentFrom.eq_def q.char _ _ (q.char :: rest)] at h
  simp [segment, h, hq]

theorem segment_dollar (line : UInt32) (rest : List Char) (s : String) :
    (Cursor.mk (s.toList.flatMap write ++ '$' :: '{' :: rest) line).segment q.char =
      (.hole s, Cursor.mk rest (line + newlines (s.toList.flatMap write))) := by
  have h := segmentFrom_flatMap hw [] line ('$' :: '{' :: rest) s.toList
  have hq : '$' ≠ q.char := by cases q <;> decide
  rw [Cursor.segmentFrom.eq_def q.char _ _ ('$' :: '{' :: rest)] at h
  simp [segment, h, hq, endMark]

/-- A text does not begin with a quote unless what follows it does. -/
theorem not_two_quotes_flatMap {more : List Char} (h : ¬ [q.char, q.char] <+: more) (s : List Char) :
    ¬ [q.char, q.char] <+: s.flatMap write ++ more := by
  cases s with
  | nil => exact h
  | cons c cs =>
    obtain ⟨a, as, he, ha⟩ := (hw c).head
    rw [List.flatMap_cons, he]
    intro hp
    exact ha (List.cons_prefix_cons.1 hp).1.symm

end

end Cursor

namespace Tree

theorem spelled_name {x : String} (h : isLegalName x = true) :
    Spelled x.toList fun line => .identifier ⟨x, line⟩ := by
  have hn : isName x.toList = true := by
    simp only [isLegalName, Bool.and_eq_true] at h
    exact h.1.1
  refine .of_word ?_ (fun c hc => isWordChar_of_isNameChar (isNameChar_of_isName hn c hc))
    (classify_name h)
  rintro he
  rw [he] at hn
  cases hn

theorem spelled_digits (n : Nat) :
    Spelled (Nat.toDigits 10 n) fun line => .integer ⟨String.ofList (Nat.toDigits 10 n), line⟩ := by
  have hd : ∀ c ∈ Nat.toDigits 10 n, c.isDigit = true :=
    fun c hc => Nat.isDigit_of_mem_toDigits (by decide) (by decide) hc
  exact .of_word Nat.toDigits_ne_nil
    (fun c hc => isWordChar_of_isNameChar (isNameChar_of_isDigit (hd c hc)))
    (classify_digits Nat.toDigits_ne_nil hd)

theorem spelled_fraction {w : String} (h : isFraction w.toList = true) :
    Spelled w.toList fun line => .float ⟨w, line⟩ := by
  obtain ⟨whole, part, hw, hwhole, hpart, -⟩ := exists_of_isFraction h
  have hdigit : ∀ {c : Char}, c.isDigit = true → isWordChar c = true := fun hc =>
    isWordChar_of_isNameChar (isNameChar_of_isDigit hc)
  refine .of_word (by simp [hw]) (fun c hc => ?_) fun line => ?_
  · rw [hw, List.mem_append, List.mem_cons] at hc
    rcases hc with hc | rfl | hc
    · exact hdigit (hwhole c hc)
    · rfl
    · exact hdigit (hpart c hc)
  · rw [classify_fraction h, String.ofList_toList]

/-- What begins with a digit or a point has no sign. -/
theorem splitSign_unsigned {c : Char} (h : c.isDigit = true ∨ c = '.') (cs : List Char) :
    Decimal.splitSign (c :: cs) = (false, c :: cs) := by
  unfold Decimal.splitSign
  split
  · next he => cases he; exact absurd h (by decide)
  · next he => cases he; exact absurd h (by decide)
  · rfl

/-- The number that digits denote is the one they were written for. -/
theorem int64OfString?_digits {n : Nat} (hn : n ≤ 9223372036854775807) :
    int64OfString? (String.ofList (Nat.toDigits 10 n)) = some (Int64.ofInt n) := by
  have hd : ∀ c ∈ Nat.toDigits 10 n, c.isDigit = true :=
    fun c hc => Nat.isDigit_of_mem_toDigits (by decide) (by decide) hc
  have hs : Decimal.splitSign (Nat.toDigits 10 n) = (false, Nat.toDigits 10 n) := by
    obtain ⟨c, cs, h⟩ := List.exists_cons_of_ne_nil (Nat.toDigits_ne_nil (n := n) (b := 10))
    rw [h]
    exact splitSign_unsigned (.inl (hd c (by simp [h]))) cs
  have hv : Decimal.natOfDigits (Nat.toDigits 10 n) = n := Nat.ofDigitChars_ten_toDigits
  have hall : (Nat.toDigits 10 n).all Char.isDigit = true := List.all_eq_true.2 hd
  simp only [int64OfString?, String.toList_ofList, hs, hv, hall, Nat.toDigits_ne_nil]
  simp [int64?, fitsInt64]
  omega

/-- Every fraction denotes a double. -/
theorem floatOfString?_fraction {w : String} (h : isFraction w.toList = true) :
    Decimal.floatOfString? w = some (fractionValue w) := by
  obtain ⟨whole, part, hw, hwhole, hpart, hne⟩ := exists_of_isFraction h
  have hsign : Decimal.splitSign w.toList = (false, w.toList) := by
    rw [hw]
    cases whole with
    | nil => exact splitSign_unsigned (.inr rfl) part
    | cons c cs => exact splitSign_unsigned (.inl (hwhole c (by simp))) (cs ++ '.' :: part)
  have hchars : Decimal.ofChars? w.toList ≠ none := by
    have htake : (whole ++ '.' :: part).takeWhile Char.isDigit = whole := by
      rw [List.takeWhile_append_of_pos hwhole, List.takeWhile_cons_of_neg (by decide),
        List.append_nil]
    have hdrop : (whole ++ '.' :: part).dropWhile Char.isDigit = '.' :: part := by
      rw [List.dropWhile_append_of_pos hwhole, List.dropWhile_cons_of_neg (by decide)]
    have hpart' : part.takeWhile Char.isDigit = part := List.takeWhile_eq_self_iff.2 hpart
    have hrest : part.dropWhile Char.isDigit = [] := List.dropWhile_eq_nil_iff.2 hpart
    rw [hw]
    simp [Decimal.ofChars?, htake, hdrop, hpart', hrest, hne, Decimal.exponentOfChars?]
  obtain ⟨d, hd⟩ := Option.ne_none_iff_exists'.1 hchars
  have hsome : (Decimal.floatOfString? w).isSome = true := by
    simp only [Decimal.floatOfString?, hsign, hd, Option.isSome_map, Option.map_some]
    split <;> rfl
  obtain ⟨x, hx⟩ := Option.isSome_iff_exists.1 hsome
  rw [fractionValue, hx, Option.getD_some]

theorem spelled_truthWord (b : Bool) :
    Spelled (truthWord b).toList fun line => .boolean ⟨truthWord b, line⟩ := by
  cases b
  · exact .of_word (by decide) (List.all_eq_true.1 rfl) fun _ => rfl
  · exact .of_word (by decide) (List.all_eq_true.1 rfl) fun _ => rfl

theorem spelled_type (t : TypeName) : Spelled t.keyword.toList fun _ => .keyword (.type t) := by
  cases t <;> exact .of_keyword rfl fun _ => rfl

/-- The token of a sign. -/
def Sign.token : Sign → Token
  | binary op => .operator (.binary op)
  | compare c => .operator (.compare c)
  | equal => .keyword .equal
  | notEqual => .keyword .notEqual

theorem spelled_operation (op : Operation) :
    Spelled op.symbol.toList fun _ => .operator (.binary op) := by
  cases op <;> exact .of_symbol (.operator (.binary _)) rfl rfl

theorem spelled_comparison (c : Comparison) :
    Spelled c.symbol.toList fun _ => .operator (.compare c) := by
  cases c <;> exact .of_symbol (.operator (.compare _)) rfl rfl

theorem spelled_sign : ∀ o : Sign, Spelled o.text.toList fun _ => o.token
  | .binary op => spelled_operation op
  | .compare c => spelled_comparison c
  | .equal | .notEqual => .of_keyword rfl fun _ => rfl

theorem spelled_compound {op : Operation} (h : assigns op = true) :
    Spelled (op.symbol ++ "=").toList fun _ => .compound (.assign op) := by
  cases op with
  | and | or => cases h
  | _ => exact .of_symbol (.compound (.assign _)) rfl rfl

/-! ## Strings -/

section
variable (q : Quote) (line : UInt32) (rest : List Char)

theorem escaped_escape (c : Char) : Cursor.Escaped q c (escape q c) := by
  unfold escape
  split_ifs with h₁ h₂ h₃ h₄ h₅
  · subst h₁; exact .coded rfl
  · subst h₂; cases q <;> exact .coded rfl
  · subst h₃; exact .coded rfl
  · subst h₄; exact .coded rfl
  · subst h₅; exact .coded rfl
  · exact .plain h₅ h₂ h₁ h₃

theorem newline_notMem_escape (c : Char) : '\n' ∉ escape q c := by
  have hq : '\n' ≠ q.char := by cases q <;> decide
  unfold escape
  split_ifs with h₁ h₂ h₃ h₄ h₅
  · decide
  · subst h₂; simp [hq]
  · decide
  · decide
  · decide
  · simp [Ne.symm h₄]

/-- Strings stay on their line. -/
theorem count_escaped (s : String) : (escaped q s).count '\n' = 0 := by
  rw [escaped, List.count_eq_zero, List.mem_flatMap]
  rintro ⟨c, -, hc⟩
  exact newline_notMem_escape q c hc

/-- The last text of a string is read up to the quote. -/
theorem segment_closed (s : String) :
    (Cursor.mk (escaped q s ++ q.char :: rest) line).segment q.char =
      (.closed s, Cursor.mk rest line) := by
  rw [escaped, Cursor.segment_quote (escaped_escape q), ← escaped,
    Cursor.newlines_eq_zero (count_escaped q s), UInt32.add_zero]

/-- A text before a hole is read up to the hole. -/
theorem segment_hole (s : String) :
    (Cursor.mk (escaped q s ++ '$' :: '{' :: rest) line).segment q.char =
      (.hole s, Cursor.mk rest line) := by
  rw [escaped, Cursor.segment_dollar (escaped_escape q), ← escaped,
    Cursor.newlines_eq_zero (count_escaped q s), UInt32.add_zero]

end

end Tree

end Naskah
