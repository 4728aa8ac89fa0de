/-
  Looking ahead agrees with reading: a symbol that was searched for, and a word that was asked
  for, is the token that is read next (`next_of_search`, `next_of_nextWordIs`).

  Names that are read are legal (`next_legal`): a keyword is never read as a name.
-/
import Naskah.Token.Progress
import Mathlib.Tactic.Common

namespace Naskah

namespace Vocabulary

/-- No two symbols have the same text. -/
theorem symbol?_text {l : Lexeme} (h : l ∈ symbols) : symbol? l.text = some l := by
  have hall : (symbols.all fun l => decide (symbol? l.text = some l)) = true := rfl
  exact of_decide_eq_true (List.all_eq_true.1 hall l h)

theorem mem_symbols {text : String} {l : Lexeme} (h : symbol? text = some l) :
    l ∈ symbols ∧ l.text = text :=
  ⟨List.mem_of_find?_eq_some h, by simpa using List.find?_some h⟩

/-- A symbol has a first character. -/
theorem text_ne_nil {l : Lexeme} (h : l ∈ symbols) : l.text.toList ≠ [] := by
  have hall : (symbols.all fun l => decide (l.text.toList ≠ [])) = true := rfl
  exact of_decide_eq_true (List.all_eq_true.1 hall l h)

theorem startsSymbol_of_mem {l : Lexeme} (h : l ∈ symbols) {c : Char} {cs : List Char}
    (hc : l.text.toList = c :: cs) : startsSymbol c = true :=
  List.contains_iff_mem.2 (List.mem_filterMap.2 ⟨l, h, by rw [hc]; rfl⟩)

end Vocabulary

namespace Scan

/-- A window of its full length shows what comes next. -/
theorem window_eq_take {n : Nat} {cs : List Char} (h : (window n cs).length = n) :
    window n cs = cs.take n := by
  refine (List.takeWhile_sublist _).eq_of_length_le ?_
  rw [show (List.takeWhile (· ≠ endMark) (cs.take n)).length = n from h, List.length_take]
  exact Nat.min_le_left ..

/-- No symbol stands at the end. -/
theorem symbol?_of_atEnd {cs : List Char} (h : atEnd cs = true) : symbol? cs = none := by
  have hw : ∀ n, window n cs = [] := by
    intro n
    cases cs with
    | nil => simp [window]
    | cons c cs =>
      obtain rfl : c = endMark := by simpa [atEnd] using h
      cases n <;> simp [window]
  simp [symbol?, hw]

/-- A symbol at the front of a text is a symbol of the vocabulary, written out there. -/
theorem eq_of_symbol? {cs rest : List Char} {l : Lexeme} (h : symbol? cs = some (l, rest)) :
    l ∈ Vocabulary.symbols ∧ cs = l.text.toList ++ rest := by
  obtain ⟨n, -, hs⟩ := List.exists_of_findSome?_eq_some h
  split at hs
  · next hn =>
    obtain ⟨l', hl, he⟩ := Option.map_eq_some_iff.1 hs
    obtain ⟨rfl, rfl⟩ := Prod.mk.inj he
    obtain ⟨hm, ht⟩ := Vocabulary.mem_symbols hl
    refine ⟨hm, ?_⟩
    rw [ht, String.toList_ofList, window_eq_take hn, List.take_append_drop]
  · cases hs

/-- No word begins like a symbol. -/
theorem startsSymbol_of_word {cs : List Char} {a : Char} {as : List Char} (h : word cs = a :: as) :
    Vocabulary.startsSymbol a = false := by
  have ha : isWordChar a = true := List.all_eq_true.1 List.all_takeWhile a (by
    rw [show cs.takeWhile isWordChar = a :: as from h]
    exact List.mem_cons_self)
  simp only [isWordChar, Bool.and_eq_true, Bool.not_eq_true'] at ha
  exact ha.2

/-- No symbol stands where none begins. -/
theorem symbol?_eq_none {c : Char} (h : Vocabulary.startsSymbol c = false) (cs : List Char) :
    symbol? (c :: cs) = none := by
  cases hs : symbol? (c :: cs) with
  | none => rfl
  | some r =>
    obtain ⟨hm, he⟩ := eq_of_symbol? hs
    cases ht : r.1.text.toList with
    | nil => exact absurd ht (Vocabulary.text_ne_nil hm)
    | cons a as =>
      rw [ht, List.cons_append, List.cons.injEq] at he
      rw [he.1, Vocabulary.startsSymbol_of_mem hm ht] at h
      cases h

end Scan

/-- A word that can be a name: it is spelled like one, and is no keyword. -/
def LegalName (x : String) : Prop :=
  Scan.isName x.toList = true ∧ Vocabulary.keyword? x = none

/-- A token that is no name, or a legal one. -/
def Token.Legal : Token → Prop
  | identifier l => LegalName l.text
  | _ => True

theorem Scan.classify_legal {w : List Char} {line : UInt32} {t : Token}
    (h : classify w line = .ok t) : t.Legal := by
  simp only [classify] at h
  split at h
  · cases h; trivial
  · split at h
    · cases h; trivial
    · split at h
      · cases h; trivial
      · split at h
        · cases h; trivial
        · next hk =>
          split at h
          · next hn =>
            cases h
            exact ⟨by rw [String.toList_ofList]; exact hn, hk⟩
          · cases h

namespace Cursor

open Scan

/-- The ends of lines in a text, in the 32 bits that lines are counted in. -/
def newlines (cs : List Char) : UInt32 :=
  .ofNat (cs.count '\n')

theorem newlines_append (cs ds : List Char) : newlines (cs ++ ds) = newlines cs + newlines ds := by
  rw [newlines, List.count_append, UInt32.ofNat_add]
  rfl

theorem newlines_eq_zero {cs : List Char} (h : cs.count '\n' = 0) : newlines cs = 0 := by
  rw [newlines, h]
  rfl

@[simp] theorem newlines_nil : newlines [] = 0 := rfl

theorem lineAfter_add_newlines (line : UInt32) (a : Char) (cs : List Char) :
    lineAfter line a + newlines cs = line + newlines (a :: cs) := by
  rw [← List.singleton_append, newlines_append, ← UInt32.add_assoc]
  congr 1
  by_cases ha : a = '\n'
  · subst ha
    rfl
  · rw [lineAfter, if_neg ha, newlines_eq_zero (by simp [ha]), UInt32.add_zero]

section
variable {ch : Char} {cs : List Char}

theorem skip_blanks (h₁ : ∀ cs', ch = '/' → cs = '/' :: cs' → False)
    (h₂ : ∀ cs', ch = '/' → cs = '*' :: cs' → False) (line : UInt32) :
    skip .blanks line (ch :: cs) =
      if Text.isBlank ch then skip .blanks (lineAfter line ch) cs else ⟨ch :: cs, line, false⟩ := by
  rw [skip.eq_def]
  split <;> simp_all

theorem skip_lineComment (hn : ch ≠ '\n') (hc : ch ≠ endMark) (line : UInt32) :
    skip .lineComment line (ch :: cs) = skip .lineComment line cs := by
  rw [skip.eq_def]
  simp only [hc, hn, if_false]

theorem skip_blockComment (h : ∀ cs', ch = '*' → cs = '/' :: cs' → False) (hc : ch ≠ endMark)
    (line : UInt32) :
    skip .blockComment line (ch :: cs) = skip .blockComment (lineAfter line ch) cs := by
  rw [skip.eq_def]
  split <;> simp_all

end

theorem skip_truncated (mode : GapMode) (line : UInt32) (cs : List Char)
    (h : (skip mode line cs).truncated = true) : (skip mode line cs).rest = [] := by
  fun_induction skip mode line cs <;> simp_all

variable {c : Cursor}

theorem not_truncated (h : atEnd c.gap.rest = false) : c.gap.truncated = false := by
  cases ht : c.gap.truncated with
  | false => rfl
  | true =>
    rw [show c.gap.rest = [] from skip_truncated _ _ _ ht] at h
    cases h

theorem next_of_symbol? {l : Lexeme} {rest : List Char} (h : symbol? c.gap.rest = some (l, rest)) :
    c.next = (.ok (.token (.ofSymbol l.symbol)), ⟨rest, c.gap.line⟩) := by
  have he : atEnd c.gap.rest = false := by
    rw [← Bool.not_eq_true]
    intro he
    rw [symbol?_of_atEnd he] at h
    cases h
  unfold next
  simp only [not_truncated he, he, h, Bool.false_eq_true, if_false]

theorem next_of_word (he : atEnd c.gap.rest = false) (h : symbol? c.gap.rest = none) :
    c.next = ((classify (word c.gap.rest) c.gap.line).map .token,
      ⟨afterWord c.gap.rest, c.gap.line⟩) := by
  unfold next
  simp only [not_truncated he, he, h, Bool.false_eq_true, if_false]

/-- Strings are not read as tokens. -/
theorem next_ne_string {t : Token} {c' : Cursor} (h : c.next = (.ok (.token t), c'))
    (s : StringLiteral) : t ≠ .string s := by
  rintro rfl
  simp only [next] at h
  split at h
  · cases h
  · split at h
    · cases h
    · split at h
      · next l rest hs =>
        have ht := congrArg Prod.fst h
        simp only [Except.ok.injEq, Lexed.token.injEq] at ht
        cases hl : l.symbol <;> rw [hl] at ht <;> cases ht
      · have ht := congrArg Prod.fst h
        simp only [classify] at ht
        repeat' split at ht
        all_goals cases ht

/-- **Names that are read are legal.** -/
theorem next_legal {t : Token} {c' : Cursor} (h : c.next = (.ok (.token t), c')) : t.Legal := by
  have ht := congrArg Prod.fst h
  simp only [next] at ht
  split at ht
  · cases ht
  · split at ht
    · cases ht
    · split at ht
      · next l rest hs =>
        simp only [Except.ok.injEq, Lexed.token.injEq] at ht
        rw [← ht]
        cases l.symbol <;> trivial
      · cases hc : classify (word c.gap.rest) c.gap.line with
        | error e => rw [hc] at ht; cases ht
        | ok t' =>
          rw [hc] at ht
          cases ht
          exact classify_legal hc

/-- **A symbol that was searched for is read next.** -/
theorem next_of_search {l : Lexeme} (hl : l ∈ Vocabulary.symbols) (h : c.search l.text = .ok ()) :
    ∃ c', c.next = (.ok (.token (.ofSymbol l.symbol)), c') := by
  have hx : lexeme? c.gap.rest = some l.text := by
    simp only [search] at h
    split at h
    · cases h
    · next found hf =>
      split at h
      · next he => rw [hf, he]
      · cases h
  unfold lexeme? at hx
  split at hx
  · cases hx
  · split at hx
    · next l' rest hs =>
      obtain ⟨hm, -⟩ := eq_of_symbol? hs
      have he : some l' = some l := by
        rw [← Vocabulary.symbol?_text hm, ← Vocabulary.symbol?_text hl, Option.some.inj hx]
      rw [← Option.some.inj he]
      exact ⟨_, next_of_symbol? hs⟩
    · have hw : word c.gap.rest = l.text.toList := by
        rw [← Option.some.inj hx, String.toList_ofList]
      cases ht : l.text.toList with
      | nil => exact absurd ht (Vocabulary.text_ne_nil hl)
      | cons a as =>
        have ha := startsSymbol_of_word (hw.trans ht)
        rw [Vocabulary.startsSymbol_of_mem hl ht] at ha
        cases ha

/-- **The word that was asked for is read next**, if no symbol begins like it. -/
theorem next_of_nextWordIs {w : String} {t : Token} {a : Char} {as : List Char}
    (h : c.nextWordIs w = true) (hw : w.toList = a :: as) (ha : Vocabulary.startsSymbol a = false)
    (ht : ∀ line, classify w.toList line = .ok t) : ∃ c', c.next = (.ok (.token t), c') := by
  have hg : word c.gap.rest = w.toList := by
    simp only [nextWordIs, Bool.and_eq_true, beq_iff_eq] at h
    exact h.2
  obtain ⟨cs, hcs⟩ : ∃ cs, c.gap.rest = a :: cs := by
    cases hr : c.gap.rest with
    | nil => rw [hr, hw] at hg; cases hg
    | cons b bs =>
      rw [hr, hw, word, List.takeWhile_cons] at hg
      split at hg
      · exact ⟨bs, by rw [(List.cons.inj hg).1]⟩
      · cases hg
  have hs : symbol? c.gap.rest = none := by rw [hcs]; exact symbol?_eq_none ha cs
  have he : atEnd c.gap.rest = false := by
    refine atEnd_eq_false.2 ⟨a, cs, hcs, ?_⟩
    rintro rfl
    cases ha
  rw [next_of_word he hs, hg, ht]
  exact ⟨_, rfl⟩

/-- The bracket of a block comes next. -/
theorem next_of_search_openCurly (h : c.search "\x7b" = .ok ()) :
    ∃ c', c.next = (.ok (.token (.bracket .openCurly)), c') :=
  next_of_search (l := ⟨"\x7b", 502, .bracket .openCurly⟩)
    (List.mem_of_find?_eq_some (p := fun l => l.text = "\x7b") rfl) h

/-- The word that continues a chain comes next. -/
theorem next_of_nextWordIs_otherwise (h : c.nextWordIs "selainnya" = true) :
    ∃ c', c.next = (.ok (.token (.keyword .otherwise)), c') :=
  next_of_nextWordIs h rfl rfl fun _ => rfl

end Cursor

end Naskah
