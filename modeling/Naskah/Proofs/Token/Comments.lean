/-
  Comments between tokens.  A block comment that is put in right after a token changes nothing but
  lines (`stream_commented`), since no symbol goes on with a slash.  There are two exceptions: a
  slash makes the comment a comment on the line, and a star with the slash of the comment is the
  sign that closes a comment (`stream_comment_merged`).
-/
import Naskah.Proofs.Token.Rereading

namespace Naskah

open Scan

namespace Vocabulary

/-- The symbols in which a slash does not come first. -/
theorem text_of_slash {l : Lexeme} (hl : l ∈ symbols) (hs : '/' ∈ l.text.toList.tail) :
    l.text.toList = ['/', '/'] ∨ l.text.toList = ['*', '/'] := by
  have hall : (symbols.all fun l => !l.text.toList.tail.contains '/' ||
      (l.text.toList == ['/', '/'] || l.text.toList == ['*', '/'])) = true := rfl
  have h := List.all_eq_true.1 hall l hl
  rw [List.contains_iff_mem.2 hs, Bool.not_true, Bool.false_or, Bool.or_eq_true, beq_iff_eq,
    beq_iff_eq] at h
  exact h

end Vocabulary

/-- A text that ends still does so when a slash is put in further on, or directly after it unless
    it is a slash or a star. -/
theorem Scan.Ends.slash {w rest : List Char} (read : List Char) (h : Ends w (read ++ rest))
    (hw : w ≠ []) (hs : read = [] → w ≠ ['/'] ∧ w ≠ ['*']) (more : List Char) :
    Ends w (read ++ '/' :: more) := by
  refine ⟨fun l hl hlt hp => ?_, fun hword c hc => ?_⟩
  · have happ : w ++ (read ++ '/' :: more) = (w ++ read ++ ['/']) ++ more := by simp
    by_cases hle : l.text.toList.length ≤ (w ++ read).length
    · -- the longer symbol stands in front of the slash
      have hfront : l.text.toList <+: w ++ read :=
        List.prefix_of_prefix_length_le hp ⟨'/' :: more, by simp⟩ hle
      refine h.symbol l hl hlt (hfront.trans ?_)
      rw [← List.append_assoc]
      exact List.prefix_append _ _
    · -- the slash belongs to it
      have hslash : w ++ read ++ ['/'] <+: l.text.toList := by
        refine List.prefix_of_prefix_length_le ⟨more, happ.symm⟩ hp ?_
        rw [List.length_append, List.length_singleton]
        omega
      obtain ⟨a, as, rfl⟩ := List.exists_cons_of_ne_nil hw
      have hshort : ∀ {x : Char}, l.text.toList = [x, '/'] → as = [] ∧ read = [] ∧ a = x := by
        intro x hx
        rw [hx] at hslash
        have hlen := hslash.length_le
        simp only [List.length_append, List.length_cons, List.length_nil] at hlen
        have hhead : a = x := (List.cons_prefix_cons.1 hslash).1
        exact ⟨List.length_eq_zero_iff.1 (by omega), List.length_eq_zero_iff.1 (by omega), hhead⟩
      have hmem : '/' ∈ l.text.toList.tail := by
        obtain ⟨bs, hbs⟩ := hslash
        rw [← hbs]
        simp
      rcases Vocabulary.text_of_slash hl hmem with hx | hx
      · obtain ⟨rfl, rfl, rfl⟩ := hshort hx
        exact (hs rfl).1 rfl
      · obtain ⟨rfl, rfl, rfl⟩ := hshort hx
        exact (hs rfl).2 rfl
  · cases read with
    | nil =>
      cases hc
      rfl
    | cons a as => exact h.word hword c hc

/-- A closed comment. -/
def blockComment (body : List Char) : List Char :=
  '/' :: '*' :: (body ++ ['*', '/'])

/-- A source with something put in after a number of characters. -/
def inserted (source : String) (n : Nat) (text : List Char) : String :=
  .ofList (source.toList.take n ++ (text ++ source.toList.drop n))

namespace Cursor

variable {c c' : Cursor}

/-- Where a gap ends does not depend on the line. -/
theorem skip_line (mode : GapMode) (line line' : UInt32) (cs : List Char) :
    (skip mode line' cs).rest = (skip mode line cs).rest ∧
      (skip mode line' cs).truncated = (skip mode line cs).truncated := by
  fun_induction skip mode line cs generalizing line' with
  | case1 line cs ih => exact ih line'
  | case2 line cs ih => exact ih line'
  | case3 line a cs h₁ h₂ hb ih =>
    rw [skip_blanks h₁ h₂, if_pos hb]
    exact ih _
  | case4 line a cs h₁ h₂ hb =>
    rw [skip_blanks h₁ h₂, if_neg hb]
    exact ⟨rfl, rfl⟩
  | case5 | case6 | case9 | case11 | case13 => exact ⟨rfl, rfl⟩
  | case7 line cs _ ih => exact ih _
  | case8 line a cs he hn ih =>
    rw [skip_lineComment hn he]
    exact ih line'
  | case10 line cs ih => exact ih line'
  | case12 line a cs h he ih =>
    rw [skip_blockComment h he]
    exact ih _

theorem next_end_iff :
    c.next.1 = .ok .endOfText ↔ c.gap.truncated = false ∧ atEnd c.gap.rest = true := by
  cases he : atEnd c.gap.rest with
  | true =>
    cases ht : c.gap.truncated <;> simp [next, ht, he]
  | false =>
    have hf := found_next c
    rw [he] at hf
    refine ⟨fun h => ?_, fun h => absurd h.2 Bool.false_ne_true⟩
    rw [h] at hf
    cases hf

/-- How a stream begins. -/
theorem stream_cons {t : Token} {ps : List (Token × Cursor)} (h : c.stream.tokens = (t, c') :: ps) :
    c.next = (.ok (.token t), c') ∧ c'.stream.tokens = ps := by
  rw [stream_eq] at h
  split at h
  · next t' c'' hn =>
    cases h
    exact ⟨hn, rfl⟩
  · cases h

theorem stream_nil (h : c.stream.tokens = []) (hs : c.stream.stop = .ok .endOfText) :
    c.next.1 = .ok .endOfText := by
  cases hn : c.next with
  | mk r c₁ =>
    rw [stream_eq, hn] at h hs
    cases r with
    | error e => cases hs
    | ok l =>
      cases l with
      | token t => cases h
      | endOfText => rfl
      | truncated => cases hs

/-- **Only the lines of tokens depend on the line** on which reading begins. -/
theorem lexes_line {ps : List (Token × Cursor)} : ∀ {c : Cursor}, c.stream.tokens = ps →
    c.stream.stop = .ok .endOfText → ∀ line, (Cursor.mk c.rest line).Lexes c.stream.unlined := by
  induction ps with
  | nil =>
    intro c hps hs line
    obtain ⟨hrest, htruncated⟩ := skip_line .blanks c.line line c.rest
    have hgap := next_end_iff.1 (stream_nil hps hs)
    rw [Stream.unlined, hps]
    exact lexes_of_end
      (next_end_iff.2 ⟨htruncated.trans hgap.1, (congrArg atEnd hrest).trans hgap.2⟩)
  | cons p ps ih =>
    obtain ⟨t, c₁⟩ := p
    intro c hps hs line
    obtain ⟨hn, hps'⟩ := stream_cons hps
    obtain ⟨hw, he, -, g, hg, hc, -⟩ := next_spec hn
    rw [hn] at hc
    rw [stream_of_token hn] at hs ⊢
    rw [hc, lexes_trivia hg]
    exact (lexes_written hw he).2 (ih hps' hs _)

/-- **A comment right after a token changes nothing but lines.** -/
theorem lexes_inserted {t : Token} {post : List (Token × Cursor)} {body : List Char}
    (hd : t ≠ .operator (.binary .div)) (hm : t ≠ .operator (.binary .mul))
    (hb : ¬ ['*', '/'] <:+: body) (he : endMark ∉ body) {pre : List (Token × Cursor)} :
    ∀ {c : Cursor}, c.stream.tokens = pre ++ (t, c') :: post → c.stream.stop = .ok .endOfText →
      ∃ read, read ≠ [] ∧ c.rest = read ++ c'.rest ∧ ∀ line,
        (Cursor.mk (read ++ (blockComment body ++ c'.rest)) line).Lexes c.stream.unlined := by
  have hcomment : Trivia (blockComment body) := .blockComment hb he .nil
  induction pre with
  | nil =>
    intro c hps hs
    obtain ⟨hn, -⟩ := stream_cons hps
    obtain ⟨hw, hends, -, g, hg, hc, -⟩ := next_spec hn
    rw [hn] at hc
    have hslash : Ends t.text.toList (blockComment body ++ c'.rest) := by
      refine Ends.slash [] hends hw.text_ne_nil (fun _ => ⟨?_, ?_⟩) _
      · intro ht
        refine hd (hw.eq_ofSymbol (l := ⟨"/", 304, .operator (.binary .div)⟩) ?_)
        rw [← String.ofList_toList (s := t.text), ht]
        rfl
      · intro ht
        refine hm (hw.eq_ofSymbol (l := ⟨"*", 302, .operator (.binary .mul)⟩) ?_)
        rw [← String.ofList_toList (s := t.text), ht]
        rfl
    refine ⟨g ++ t.text.toList, by simp [hw.text_ne_nil], by rw [hc, List.append_assoc],
      fun line => ?_⟩
    rw [stream_of_token hn] at hs ⊢
    rw [List.append_assoc, lexes_trivia hg]
    exact (lexes_written hw hslash).2 ((lexes_trivia hcomment).2 (lexes_line rfl hs _))
  | cons p pre ih =>
    obtain ⟨t₁, c₁⟩ := p
    intro c hps hs
    obtain ⟨hn, hps'⟩ := stream_cons hps
    obtain ⟨hw, hends, -, g, hg, hc, -⟩ := next_spec hn
    rw [hn] at hc
    rw [stream_of_token hn] at hs ⊢
    obtain ⟨read, hne, hread, hlexes⟩ := ih hps' hs
    have hslash : Ends t₁.text.toList (read ++ (blockComment body ++ c'.rest)) :=
      Ends.slash read (hread ▸ hends) hw.text_ne_nil (fun h => absurd h hne) _
    refine ⟨g ++ (t₁.text.toList ++ read), by simp [hne], by rw [hc, hread]; simp, fun line => ?_⟩
    rw [List.append_assoc, lexes_trivia hg, List.append_assoc]
    exact (lexes_written hw hslash).2 (hlexes _)

/-- **Comments are separators.**  Wherever a closed comment is put in right after a token of a
    source that is read to its end, the source is read as the same tokens; only the token must not
    be a slash or a star. -/
theorem stream_commented {source : String} (hs : (start source).stream.stop = .ok .endOfText)
    {pre post : List (Token × Cursor)} {t : Token} {c : Cursor}
    (ht : (start source).stream.tokens = pre ++ (t, c) :: post)
    (hd : t ≠ .operator (.binary .div)) (hm : t ≠ .operator (.binary .mul)) {body : List Char}
    (hb : ¬ ['*', '/'] <:+: body) (he : endMark ∉ body) :
    (start (inserted source (c.position source) (blockComment body))).Lexes
      (start source).stream.unlined := by
  obtain ⟨read, -, hread, hlexes⟩ := lexes_inserted hd hm hb he ht hs
  have hread : source.toList = read ++ c.rest := hread
  rw [start, inserted, String.toList_ofList, position_of_append hread, hread, List.take_left,
    List.drop_left]
  exact hlexes 1

/-- The stream of two digits with a sign between them. -/
theorem stream_digits (source : String) {o : Char} {t : Token}
    (h₁ : (start source).next = (.ok (.token (.integer ⟨"8", 1⟩)), ⟨[o, '2'], 1⟩))
    (h₂ : (Cursor.mk [o, '2'] 1).next = (.ok (.token t), ⟨['2'], 1⟩)) :
    (start source).stream = ⟨[(.integer ⟨"8", 1⟩, ⟨[o, '2'], 1⟩), (t, ⟨['2'], 1⟩),
      (.integer ⟨"2", 1⟩, ⟨[], 1⟩)], .ok .endOfText, ⟨[], 1⟩⟩ := by
  have h₃ : (Cursor.mk ['2'] 1).next = (.ok (.token (.integer ⟨"2", 1⟩)), ⟨[], 1⟩) := rfl
  rw [stream_of_token h₁, stream_of_token h₂, stream_of_token h₃, stream_eq]
  rfl

/-- A comment of two lines inside a difference. -/
theorem stream_commented_difference :
    (start "8-2").stream.stop = .ok .endOfText ∧
    (start "8-2").stream.tokens = [(.integer ⟨"8", 1⟩, ⟨['-', '2'], 1⟩)] ++
      (.operator (.binary .sub), ⟨['2'], 1⟩) :: [(.integer ⟨"2", 1⟩, ⟨[], 1⟩)] ∧
    ¬ ['*', '/'] <:+: ['*', '\n', '/'] ∧ endMark ∉ ['*', '\n', '/'] ∧
    (start (inserted "8-2" (position "8-2" ⟨['2'], 1⟩) (blockComment ['*', '\n', '/']))).Lexes
      (start "8-2").stream.unlined := by
  have hstream := stream_digits "8-2" (t := .operator (.binary .sub)) rfl rfl
  have hs := congrArg Stream.stop hstream
  have ht : (start "8-2").stream.tokens = [(.integer ⟨"8", 1⟩, ⟨['-', '2'], 1⟩)] ++
      (.operator (.binary .sub), ⟨['2'], 1⟩) :: [(.integer ⟨"2", 1⟩, ⟨[], 1⟩)] :=
    congrArg Stream.tokens hstream
  have hb : ¬ ['*', '/'] <:+: ['*', '\n', '/'] := by decide
  have he : endMark ∉ ['*', '\n', '/'] := by decide
  exact ⟨hs, ht, hb, he, stream_commented hs ht (by simp) (by simp) hb he⟩

/-- Right after a slash or a star a comment is not read as one: with the slash it is a comment on
    the line, and with the star the sign that closes a comment. -/
theorem stream_comment_merged :
    ((start "8/2").stream = ⟨[(.integer ⟨"8", 1⟩, ⟨['/', '2'], 1⟩),
        (.operator (.binary .div), ⟨['2'], 1⟩), (.integer ⟨"2", 1⟩, ⟨[], 1⟩)],
        .ok .endOfText, ⟨[], 1⟩⟩ ∧
      ¬ (start (inserted "8/2" (position "8/2" ⟨['2'], 1⟩) (blockComment []))).Lexes
        (start "8/2").stream.unlined) ∧
    (start "8*2").stream = ⟨[(.integer ⟨"8", 1⟩, ⟨['*', '2'], 1⟩),
        (.operator (.binary .mul), ⟨['2'], 1⟩), (.integer ⟨"2", 1⟩, ⟨[], 1⟩)],
        .ok .endOfText, ⟨[], 1⟩⟩ ∧
      ¬ (start (inserted "8*2" (position "8*2" ⟨['2'], 1⟩) (blockComment []))).Lexes
        (start "8*2").stream.unlined := by
  have hdiv := stream_digits "8/2" (t := .operator (.binary .div)) rfl rfl
  have hmul := stream_digits "8*2" (t := .operator (.binary .mul)) rfl rfl
  refine ⟨⟨hdiv, ?_⟩, hmul, ?_⟩
  · rw [hdiv]
    intro h
    have hn : (start "8//**/2").next =
        (.ok (.token (.integer ⟨"8", 1⟩)), ⟨"//**/2".toList, 1⟩) := rfl
    have hone : (start "8//**/2").Lexes [.integer ⟨"8", 0⟩] :=
      (lexes_of_token hn).2 (lexes_of_end rfl)
    cases hone.1.symm.trans h.1
  · rw [hmul]
    intro h
    have hn : (start "8*/**/2").next =
        (.ok (.token (.integer ⟨"8", 1⟩)), ⟨"*/**/2".toList, 1⟩) := rfl
    have hsign : (Cursor.mk "*/**/2".toList 1).next =
        (.ok (.token (.punctuation .closeComment)), ⟨"**/2".toList, 1⟩) := rfl
    have h := (lexes_of_token hn).1 h
    have hnext : (Cursor.mk "*/**/2".toList 1).stream.unlined = .punctuation .closeComment ::
        (Cursor.mk "**/2".toList 1).stream.unlined := by
      rw [stream_of_token hsign]
      rfl
    cases hnext.symm.trans h.1

end Cursor

end Naskah
