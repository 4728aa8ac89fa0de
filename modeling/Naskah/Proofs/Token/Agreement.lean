/-
  Looking ahead and reading agree at every place of a source (`lookahead_agrees`): what is searched
  for, and the word that is asked for, is the text that reading takes off after a gap.

  A gap is a text of blanks and comments (`Trivia`).  The gap at a cursor is the only one after
  which there is no blank and no comment (`gap_trivia`, `gap_spec`), so that the text that is read
  is determined by the source (`reads_iff`).
-/
import Naskah.Proofs.Token.Spelling

namespace Naskah

/-! ## Gaps -/

/-- Blanks and comments: a comment on a line ends with the line, and a block comment with the first
    `*/` after its beginning. -/
inductive Trivia : List Char → Prop
  | nil : Trivia []
  | blank {b : Char} {g : List Char} : Text.isBlank b = true → Trivia g → Trivia (b :: g)
  | lineComment {body g : List Char} : '\n' ∉ body → endMark ∉ body → Trivia g →
      Trivia ('/' :: '/' :: (body ++ '\n' :: g))
  | blockComment {body g : List Char} : ¬ ['*', '/'] <:+: body → endMark ∉ body → Trivia g →
      Trivia ('/' :: '*' :: (body ++ '*' :: '/' :: g))

/-- No blank and no comment comes next. -/
structure Bare (cs : List Char) : Prop where
  blank : ∀ c ∈ cs.head?, Text.isBlank c = false
  lineComment : ¬ ['/', '/'] <+: cs
  blockComment : ¬ ['/', '*'] <+: cs

namespace Cursor

open Scan

variable {c : Cursor} {g rest : List Char}

theorem skip_lineComment_append : ∀ {body : List Char} (line : UInt32), '\n' ∉ body →
    endMark ∉ body →
      skip .lineComment line (body ++ '\n' :: rest) = skip .blanks (line + 1) rest
  | [], _, _, _ => rfl
  | a :: body, line, hn, he => by
    rw [List.mem_cons, not_or] at hn he
    rw [List.cons_append, skip_lineComment (Ne.symm hn.1) (Ne.symm he.1),
      skip_lineComment_append line hn.2 he.2]

theorem skip_blockComment_append : ∀ {body : List Char} (line : UInt32), ¬ ['*', '/'] <:+: body →
    endMark ∉ body → skip .blockComment line (body ++ '*' :: '/' :: rest) =
      skip .blanks (line + newlines body) rest
  | [], _, _, _ => by rw [newlines_nil, UInt32.add_zero]; rfl
  | a :: body, line, hb, he => by
    rw [List.mem_cons, not_or] at he
    rw [List.infix_cons_iff, not_or] at hb
    have hopen : ∀ cs, a = '*' → body ++ '*' :: '/' :: rest = '/' :: cs → False := by
      rintro cs rfl hcs
      cases body with
      | nil => cases hcs
      | cons d body =>
        cases hcs
        exact hb.1 ⟨body, rfl⟩
    rw [List.cons_append, skip_blockComment hopen (Ne.symm he.1),
      skip_blockComment_append _ hb.2 he.2, lineAfter_add_newlines]

/-- **A gap is skipped**, whatever comes after it. -/
theorem skip_trivia (hg : Trivia g) (line : UInt32) (rest : List Char) :
    skip .blanks line (g ++ rest) = skip .blanks (line + newlines g) rest := by
  induction hg generalizing line with
  | nil => rw [newlines_nil, UInt32.add_zero]; rfl
  | blank hb _ ih =>
    refine (gap_blank hb).trans ?_
    rw [← lineAfter_add_newlines]
    exact ih _
  | @lineComment body g hn he _ ih =>
    have hcount : ('/' :: '/' :: (body ++ '\n' :: g)).count '\n' = 1 + g.count '\n' := by
      simp [List.count_append, List.count_eq_zero.2 hn, Nat.add_comm]
    have hlines : newlines ('/' :: '/' :: (body ++ '\n' :: g)) = 1 + newlines g := by
      rw [newlines, hcount, UInt32.ofNat_add]
      rfl
    rw [List.cons_append, List.cons_append, List.append_assoc, List.cons_append]
    refine (skip_lineComment_append line hn he).trans ?_
    rw [ih, hlines, UInt32.add_assoc]
  | @blockComment body g hb he _ ih =>
    have hcount : ('/' :: '*' :: (body ++ '*' :: '/' :: g)).count '\n' =
        body.count '\n' + g.count '\n' := by
      simp [List.count_append]
    have hlines : newlines ('/' :: '*' :: (body ++ '*' :: '/' :: g)) =
        newlines body + newlines g := by
      rw [newlines, hcount, UInt32.ofNat_add]
      rfl
    rw [List.cons_append, List.cons_append, List.append_assoc, List.cons_append, List.cons_append]
    refine (skip_blockComment_append line hb he).trans ?_
    rw [ih, hlines, UInt32.add_assoc]

/-- Where no blank and no comment comes next there is no gap. -/
theorem gap_bare (hr : Bare rest) (line : UInt32) :
    (Cursor.mk rest line).gap = ⟨rest, line, false⟩ := by
  cases rest with
  | nil => rfl
  | cons a cs =>
    refine gap_eq (hr.blank a rfl) ?_
    rintro rfl
    refine ⟨fun h => hr.lineComment ?_, fun h => hr.blockComment ?_⟩
    all_goals
      obtain ⟨cs', rfl⟩ := List.head?_eq_some_iff.1 h
      exact ⟨cs', rfl⟩

/-- A gap ends where no blank and no comment comes next. -/
theorem gap_trivia (hg : Trivia g) (hr : Bare rest) (line : UInt32) :
    (Cursor.mk (g ++ rest) line).gap = ⟨rest, line + newlines g, false⟩ :=
  (skip_trivia hg line rest).trans (gap_bare hr _)

/-- What is skipped in a part of a gap: in a comment, first what is left of it. -/
def Skipped : GapMode → List Char → Prop
  | .blanks, s => Trivia s
  | .lineComment, s => ∃ body g, '\n' ∉ body ∧ endMark ∉ body ∧ Trivia g ∧ s = body ++ '\n' :: g
  | .blockComment, s => ∃ body g, ¬ ['*', '/'] <:+: body ∧ endMark ∉ body ∧ Trivia g ∧
      s = body ++ '*' :: '/' :: g

theorem skip_spec (mode : GapMode) (line : UInt32) (cs : List Char)
    (h : atEnd (skip mode line cs).rest = false) :
    ∃ s, Skipped mode s ∧ cs = s ++ (skip mode line cs).rest ∧ Bare (skip mode line cs).rest := by
  fun_induction skip mode line cs with
  | case1 line cs ih =>
    obtain ⟨s, ⟨body, g, hn, he, hg, rfl⟩, hcs, hr⟩ := ih h
    exact ⟨_, .lineComment hn he hg, by simpa using hcs, hr⟩
  | case2 line cs ih =>
    obtain ⟨s, ⟨body, g, hn, he, hg, rfl⟩, hcs, hr⟩ := ih h
    exact ⟨_, .blockComment hn he hg, by simpa using hcs, hr⟩
  | case3 line a cs hl hb hblank ih =>
    obtain ⟨s, hg, hcs, hr⟩ := ih h
    exact ⟨a :: s, .blank hblank hg, by rw [List.cons_append, ← hcs], hr⟩
  | case4 line a cs hl hb hblank =>
    refine ⟨[], .nil, rfl, ?_, ?_, ?_⟩
    · rintro _ ⟨⟩
      simpa using hblank
    · rintro ⟨cs', hcs⟩
      cases hcs
      exact hl _ rfl rfl
    · rintro ⟨cs', hcs⟩
      cases hcs
      exact hb _ rfl rfl
  | case5 line => cases h
  | case6 line cs => cases h
  | case7 line cs hne ih =>
    obtain ⟨s, hg, hcs, hr⟩ := ih h
    exact ⟨_, ⟨[], s, by simp, by simp, hg, rfl⟩, by simpa using hcs, hr⟩
  | case8 line a cs he hn ih =>
    obtain ⟨s, ⟨body, g, hn', he', hg, rfl⟩, hcs, hr⟩ := ih h
    exact ⟨_, ⟨a :: body, g, by simp [hn', Ne.symm hn], by simp [he', Ne.symm he], hg, rfl⟩,
      by simpa using hcs, hr⟩
  | case9 line => cases h
  | case10 line cs ih =>
    obtain ⟨s, hg, hcs, hr⟩ := ih h
    exact ⟨_, ⟨[], s, by simp, by simp, hg, rfl⟩, by simpa using hcs, hr⟩
  | case11 line cs hopen => cases h
  | case12 line a cs hopen he ih =>
    obtain ⟨s, ⟨body, g, hb, he', hg, rfl⟩, hcs, hr⟩ := ih h
    refine ⟨_, ⟨a :: body, g, ?_, by simp [he', Ne.symm he], hg, rfl⟩, by simpa using hcs, hr⟩
    rw [List.infix_cons_iff]
    rintro (⟨t, ht⟩ | hi)
    · cases ht
      exact hopen _ rfl hcs
    · exact hb hi
  | case13 line => cases h

/-! ## What is read -/

/-- The gap at a cursor that is not at the end. -/
theorem gap_spec (h : atEnd c.gap.rest = false) :
    ∃ g, Trivia g ∧ c.rest = g ++ c.gap.rest ∧ Bare c.gap.rest ∧
      c.gap.line = c.line + newlines g := by
  obtain ⟨g, hg, hc, hr⟩ := skip_spec .blanks c.line c.rest h
  have hgap : c.gap = _ := (congrArg (skip .blanks c.line) hc).trans (gap_trivia hg hr c.line)
  exact ⟨g, hg, hc, hr, congrArg Gap.line hgap⟩

/-- Reading takes a text off the source, after a gap whose lines are counted. -/
def Reads (c : Cursor) (t : String) : Prop :=
  ∃ g, Trivia g ∧ c.rest = g ++ (t.toList ++ c.next.2.rest) ∧ Bare (t.toList ++ c.next.2.rest) ∧
    c.next.2.line = c.line + newlines g

/-- What is read is determined by the source. -/
theorem reads_iff {t : String} (he : atEnd c.gap.rest = false)
    (ht : c.gap.rest = t.toList ++ c.next.2.rest) (hl : c.next.2.line = c.gap.line) (s : String) :
    c.Reads s ↔ s = t := by
  constructor
  · rintro ⟨g, hg, hc, hr, -⟩
    have hgap := congrArg Gap.rest (gap_trivia hg hr c.line)
    rw [← hc] at hgap
    have hs : t.toList ++ c.next.2.rest = s.toList ++ c.next.2.rest := ht.symm.trans hgap
    exact String.toList_injective (List.append_cancel_right hs).symm
  · rintro rfl
    obtain ⟨g, hg, hc, hr, hline⟩ := gap_spec he
    rw [ht] at hc hr
    exact ⟨g, hg, hc, hr, hl.trans hline⟩

/-- Nothing is read at the end, and only there. -/
theorem found_next (c : Cursor) : found c.next.1 = !atEnd c.gap.rest := by
  cases he : atEnd c.gap.rest with
  | true =>
    simp only [next, he, if_true]
    split <;> rfl
  | false =>
    cases hs : symbol? c.gap.rest with
    | some p =>
      rw [next_of_symbol? hs]
      rfl
    | none =>
      rw [next_of_word he hs]
      cases classify (word c.gap.rest) c.gap.line <;> rfl

/-- What is found after a gap is read. -/
theorem next_lexeme (he : atEnd c.gap.rest = false) : ∃ t, lexeme? c.gap.rest = some t ∧
    c.gap.rest = t.toList ++ c.next.2.rest ∧ c.next.2.line = c.gap.line := by
  cases hs : symbol? c.gap.rest with
  | some p =>
    obtain ⟨l, rest⟩ := p
    refine ⟨l.text, ?_, ?_, ?_⟩
    · simp [lexeme?, he, hs]
    · rw [next_of_symbol? hs]
      exact (eq_of_symbol? hs).2
    · rw [next_of_symbol? hs]
  | none =>
    refine ⟨String.ofList (word c.gap.rest), ?_, ?_, ?_⟩
    · simp [lexeme?, he, hs]
    · rw [next_of_word he hs, String.toList_ofList]
      exact List.takeWhile_append_dropWhile.symm
    · rw [next_of_word he hs]

/-- After a gap there is a symbol or a word. -/
theorem word_ne_nil (he : atEnd c.gap.rest = false) (hs : symbol? c.gap.rest = none) :
    word c.gap.rest ≠ [] := by
  intro hw
  have hlen := length_afterWord he hs (skip_head .blanks c.line c.rest)
  have hrest : word c.gap.rest ++ afterWord c.gap.rest = c.gap.rest :=
    List.takeWhile_append_dropWhile
  rw [hw, List.nil_append] at hrest
  exact absurd (congrArg List.length hrest) (Nat.ne_of_lt hlen)

/-- The word that is asked for is what is found after a gap, if that is no symbol. -/
theorem nextWordIs_iff {t : String} (he : atEnd c.gap.rest = false)
    (ht : lexeme? c.gap.rest = some t) (w : String) :
    c.nextWordIs w = true ↔ w = t ∧ t.toList.head?.any Vocabulary.startsSymbol = false := by
  have hword : c.nextWordIs w = true ↔ word c.gap.rest ≠ [] ∧ word c.gap.rest = w.toList := by
    simp [nextWordIs]
  rw [hword]
  cases hs : symbol? c.gap.rest with
  | some p =>
    obtain ⟨l, rest⟩ := p
    obtain ⟨hl, hr⟩ := eq_of_symbol? hs
    obtain rfl : l.text = t := by simpa [lexeme?, he, hs] using ht
    cases hc : l.text.toList with
    | nil => exact absurd hc (Vocabulary.text_ne_nil hl)
    | cons a as =>
      -- a word does not begin like a symbol
      have ha := Vocabulary.startsSymbol_of_mem hl hc
      have hw : word c.gap.rest = [] := by
        rw [hr, hc, List.cons_append, word, List.takeWhile_cons_of_neg (by simp [isWordChar, ha])]
      simp [hw, ha]
  | none =>
    obtain rfl : String.ofList (word c.gap.rest) = t := by simpa [lexeme?, he, hs] using ht
    cases hw : word c.gap.rest with
    | nil => exact absurd hw (word_ne_nil he hs)
    | cons a as =>
      rw [String.toList_ofList, List.head?_cons, Option.any_some, startsSymbol_of_word hw]
      refine ⟨fun h => ⟨?_, rfl⟩, ?_⟩
      · rw [h.2, String.ofList_toList]
      · rintro ⟨rfl, -⟩
        exact ⟨List.cons_ne_nil a as, String.toList_ofList.symm⟩

/-- **Looking ahead agrees with reading**, at every place of a source.  If reading comes to the end
    or to a block comment that never ends, then nothing that is searched for is found, and no word
    is next.  Otherwise reading takes one text off the source after a gap: it is the only one that
    can be searched for, any other search fails with it and with the line that reading comes to, and
    it is the next word, unless it begins like a symbol.

    So where a chain goes on the keyword is read, and where a block begins its bracket is read. -/
theorem lookahead_agrees (c : Cursor) :
    (if found c.next.1 then
      ∃ t, (∀ s, c.Reads s ↔ s = t) ∧
        (∀ x, c.search x = if x = t then .ok () else refuse (.expected x t) c.next.2.line) ∧
        ∀ w, c.nextWordIs w = true ↔ w = t ∧ t.toList.head?.any Vocabulary.startsSymbol = false
    else
      (∀ x, c.search x = refuseAtEnd (.expectedAtEnd x)) ∧ ∀ w, c.nextWordIs w = false) ∧
    (c.nextWordIs "selainnya" = true → ∃ c', c.next = (.ok (.token (.keyword .otherwise)), c')) ∧
    (c.search "\x7b" = .ok () → ∃ c', c.next = (.ok (.token (.bracket .openCurly)), c')) := by
  refine ⟨?_, next_of_nextWordIs_otherwise, next_of_search_openCurly⟩
  rw [found_next]
  cases he : atEnd c.gap.rest with
  | true =>
    refine ⟨fun x => ?_, fun w => ?_⟩
    · simp [search, lexeme?, he]
    · simp [nextWordIs, word_atEnd he]
  | false =>
    obtain ⟨t, ht, hrest, hline⟩ := next_lexeme he
    refine ⟨t, reads_iff he hrest hline, fun x => ?_, nextWordIs_iff he ht⟩
    simp only [search, ht, hline, eq_comm]

/-- Comments of both kinds in front of the word that continues a chain. -/
example : (start "// jika\n /* \n */ selainnya").nextWordIs "selainnya" = true := by decide

end Cursor

end Naskah
