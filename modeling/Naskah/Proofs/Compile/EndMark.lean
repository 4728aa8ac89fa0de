/-
  The text of a source ends at the end mark.  A cursor can be clipped there: every scanner finds the
  same at the clipped cursor, on the same line, and leaves a cursor that is clipped likewise
  (`next_clip`, `segment_clip`), and so does the whole compiler (`compileBuffer_eq`).  Hence
  nothing that stands behind the end mark is seen (`compile_endMark`).
-/
import Mathlib.Data.List.TakeWhile
import Naskah.Compile
import Naskah.Proofs.Token.Lookahead

namespace Naskah

/-- The text in front of the end mark. -/
def textOf (cs : List Char) : List Char :=
  cs.takeWhile (· ≠ endMark)

section
variable {c : Char} {cs : List Char}

@[simp] theorem textOf_nil : textOf [] = [] := rfl

@[simp] theorem textOf_endMark (cs : List Char) : textOf (endMark :: cs) = [] := rfl

theorem textOf_cons (h : c ≠ endMark) (cs : List Char) : textOf (c :: cs) = c :: textOf cs :=
  List.takeWhile_cons_of_pos (by simpa using h)

theorem atEnd_textOf (cs : List Char) : atEnd (textOf cs) = atEnd cs := by
  cases cs with
  | nil => rfl
  | cons c cs =>
    by_cases h : c = endMark
    · subst h; rfl
    · rw [textOf_cons h]; rfl

theorem textOf_atEnd (h : atEnd cs = true) : textOf cs = [] := by
  cases cs with
  | nil => rfl
  | cons c cs =>
    obtain rfl : c = endMark := by simpa [atEnd] using h
    rfl

/-- What begins the text begins the buffer. -/
theorem exists_of_textOf_eq_cons {cs' : List Char} (h : textOf cs = c :: cs') :
    ∃ cs'', cs = c :: cs'' := by
  cases cs with
  | nil => cases h
  | cons a cs =>
    by_cases ha : a = endMark
    · subst ha; cases h
    · rw [textOf_cons ha] at h
      exact ⟨cs, by rw [(List.cons.inj h).1]⟩

theorem textOf_append_of_notMem (h : endMark ∉ cs) (more : List Char) :
    textOf (cs ++ more) = cs ++ textOf more := by
  refine List.takeWhile_append_of_pos fun c hc => ?_
  rw [decide_eq_true_eq]
  rintro rfl
  exact h hc

theorem textOf_eq_self (h : endMark ∉ cs) : textOf cs = cs := by
  have ht := textOf_append_of_notMem h []
  rwa [textOf_nil, List.append_nil] at ht

/-- What ends a text adds nothing to it. -/
theorem textOf_append {more : List Char} (he : atEnd more = true) (cs : List Char) :
    textOf (cs ++ more) = textOf cs := by
  induction cs with
  | nil => exact textOf_atEnd he
  | cons c cs ih =>
    by_cases hc : c = endMark
    · subst hc; rfl
    · rw [List.cons_append, textOf_cons hc, textOf_cons hc, ih]

end

/-! ## Words and symbols -/

namespace Scan

theorem window_textOf (n : Nat) (cs : List Char) : window n (textOf cs) = window n cs := by
  change textOf ((textOf cs).take n) = textOf (cs.take n)
  induction cs generalizing n with
  | nil => rfl
  | cons c cs ih =>
    cases n with
    | zero => rfl
    | succ n =>
      by_cases h : c = endMark
      · subst h; rfl
      · rw [textOf_cons h, List.take_succ_cons, List.take_succ_cons, textOf_cons h, textOf_cons h,
          ih]

/-- A window of its full length has no end mark in it. -/
theorem drop_textOf {n : Nat} {cs : List Char} (h : (window n cs).length = n) :
    (textOf cs).drop n = textOf (cs.drop n) := by
  change (textOf (cs.take n)).length = n at h
  induction cs generalizing n with
  | nil => simp
  | cons c cs ih =>
    cases n with
    | zero => rfl
    | succ n =>
      by_cases hc : c = endMark
      · subst hc; cases h
      · rw [List.take_succ_cons, textOf_cons hc, List.length_cons, Nat.add_right_cancel_iff] at h
        rw [textOf_cons hc, List.drop_succ_cons, List.drop_succ_cons, ih h]

theorem symbol?_textOf (cs : List Char) :
    symbol? (textOf cs) = (symbol? cs).map fun r => (r.1, textOf r.2) := by
  have hn : ∀ n, (if (window n (textOf cs)).length = n then
        (Vocabulary.symbol? (String.ofList (window n (textOf cs)))).map
          fun l => (l, (textOf cs).drop n) else none) =
      (if (window n cs).length = n then
        (Vocabulary.symbol? (String.ofList (window n cs))).map fun l => (l, cs.drop n)
        else none).map fun r => (r.1, textOf r.2) := by
    intro n
    rw [window_textOf]
    split
    · next h => rw [drop_textOf h, Option.map_map]; rfl
    · rfl
  simp only [symbol?, hn, List.map_findSome?]
  rfl

theorem word_textOf (cs : List Char) : word (textOf cs) = word cs := by
  induction cs with
  | nil => rfl
  | cons c cs ih =>
    by_cases hc : c = endMark
    · subst hc; rfl
    · rw [textOf_cons hc, word, word, List.takeWhile_cons, List.takeWhile_cons]
      split
      · exact congrArg (c :: ·) ih
      · rfl

theorem afterWord_textOf (cs : List Char) : afterWord (textOf cs) = textOf (afterWord cs) := by
  induction cs with
  | nil => rfl
  | cons c cs ih =>
    by_cases hc : c = endMark
    · subst hc; rfl
    · rw [textOf_cons hc, afterWord, afterWord, List.dropWhile_cons, List.dropWhile_cons]
      split
      · exact ih
      · exact (textOf_cons hc cs).symm

theorem lexeme?_textOf (cs : List Char) : lexeme? (textOf cs) = lexeme? cs := by
  unfold lexeme?
  rw [atEnd_textOf, symbol?_textOf, word_textOf]
  cases symbol? cs <;> rfl

end Scan

open Scan

/-! ## Cursors -/

namespace Cursor

def Gap.clip (g : Gap) : Gap :=
  { g with rest := textOf g.rest }

/-- The cursor in the text alone. -/
def clip (c : Cursor) : Cursor :=
  { c with rest := textOf c.rest }

theorem skip_textOf (mode : GapMode) (line : UInt32) (cs : List Char) :
    skip mode line (textOf cs) = (skip mode line cs).clip := by
  -- a sign of two characters stands in the text only if it stands in the buffer
  have hpair : ∀ {a b c : Char} {cs : List Char}, (∀ cs', c = a → cs = b :: cs' → False) →
      ∀ cs', c = a → textOf cs = b :: cs' → False := by
    intro a b c cs h cs' hc he
    obtain ⟨cs'', hcs⟩ := exists_of_textOf_eq_cons he
    exact h cs'' hc hcs
  fun_induction skip mode line cs with
  | case1 line cs ih => exact ih
  | case2 line cs ih => exact ih
  | case3 line c cs h₁ h₂ hb ih =>
    have hc : c ≠ endMark := by rintro rfl; cases hb
    rw [textOf_cons hc, skip_blanks (hpair h₁) (hpair h₂), if_pos hb, ih]
  | case4 line c cs h₁ h₂ hb =>
    by_cases hc : c = endMark
    · subst hc; rfl
    · rw [textOf_cons hc, skip_blanks (hpair h₁) (hpair h₂), if_neg hb, Gap.clip,
        textOf_cons hc]
  | case5 | case6 | case9 | case13 => rfl
  | case7 line cs _ ih => exact ih
  | case8 line c cs hc hn ih =>
    rw [textOf_cons hc, skip_lineComment hn hc, ih]
  | case10 line cs ih => exact ih
  | case11 line cs _ => rfl
  | case12 line c cs h hc ih =>
    rw [textOf_cons hc, skip_blockComment (hpair h) hc, ih]

theorem gap_clip (c : Cursor) : c.clip.gap = c.gap.clip :=
  skip_textOf ..

/-- **The next token is the one before the end mark.** -/
theorem next_clip (c : Cursor) : c.clip.next = (c.next.1, c.next.2.clip) := by
  unfold next
  rw [gap_clip]
  simp only [Gap.clip, atEnd_textOf, symbol?_textOf, word_textOf, afterWord_textOf]
  split
  · rfl
  · split
    · rfl
    · cases symbol? c.gap.rest <;> rfl

theorem search_clip (c : Cursor) (wanted : String) : c.clip.search wanted = c.search wanted := by
  simp only [search, gap_clip, Gap.clip, lexeme?_textOf]

theorem nextWordIs_clip (c : Cursor) (w : String) : c.clip.nextWordIs w = c.nextWordIs w := by
  simp only [nextWordIs, gap_clip, Gap.clip, word_textOf]

theorem requireBlank_clip (c : Cursor) : c.clip.requireBlank = c.requireBlank := by
  unfold requireBlank
  rw [clip, atEnd_textOf, lexeme?_textOf]
  split
  · rfl
  · next he =>
    obtain ⟨ch, cs, hcs, hne⟩ := atEnd_eq_false.1 (Bool.not_eq_true _ ▸ he)
    rw [hcs, textOf_cons hne]
    rfl

/-- The text of a string ends before the end mark. -/
theorem segmentFrom_textOf (quote : Char) (read : List Char) (line : UInt32) (cs : List Char) :
    segmentFrom quote read line (textOf cs) =
      let (stop, read, line, rest) := segmentFrom quote read line cs
      (stop, read, line, textOf rest) := by
  fun_induction segmentFrom quote read line cs with
  | case1 | case2 => rfl
  | case3 read line cs hc =>
    rw [textOf_cons hc, segmentFrom.eq_def]
    simp only [hc, if_false, if_true]
  | case4 read line cs hc hq =>
    rw [textOf_cons hc, textOf_cons (by decide), segmentFrom, if_neg hc, if_neg hq]
  | case5 read line hc hq =>
    rw [textOf_cons hc, textOf_nil, segmentFrom, if_neg hc, if_neg hq]
    rfl
  | case6 read line cs hc hq =>
    rw [textOf_cons hc, textOf_endMark, segmentFrom, if_neg hc, if_neg hq]
    rfl
  | case7 read line e cs he hc hq ih =>
    rw [textOf_cons hc, textOf_cons he, segmentFrom, if_neg hc, if_neg hq]
    simp only [if_neg he, ih]
  | case8 read line c cs h₁ h₂ h₃ hc hq ih =>
    have hb : c ≠ '\\' := by
      rintro rfl
      cases cs with
      | nil => exact h₂ rfl rfl
      | cons e cs => exact h₃ e cs rfl rfl
    rw [textOf_cons hc, segmentFrom, if_neg hc, if_neg hq, ih]
    · intro cs' hd he
      obtain ⟨cs'', hcs⟩ := exists_of_textOf_eq_cons he
      exact h₁ cs'' hd hcs
    · exact fun h => absurd h hb
    · exact fun _ _ h => absurd h hb

theorem segment_clip (c : Cursor) (quote : Char) :
    c.clip.segment quote = ((c.segment quote).1, (c.segment quote).2.clip) := by
  unfold segment
  rw [clip, segmentFrom_textOf]
  rfl

end Cursor

/-! ## The compiler -/

namespace Desk

open Cursor

variable (d : Desk) (c : Cursor)

theorem closeRound_clip : d.closeRound c.clip = d.closeRound c := by
  unfold closeRound endRound
  simp only [search_clip]
  rfl

theorem closeCurly_clip : d.closeCurly c.clip = d.closeCurly c := by
  unfold closeCurly endBlock
  simp only [nextWordIs_clip]
  rfl

theorem checkNext_clip (t : Token) : d.checkNext t c.clip = d.checkNext t c := by
  unfold checkNext
  simp only [search_clip, requireBlank_clip]
  rfl

theorem take_clip (t : Token) : d.take t c.clip = d.take t c := by
  unfold take
  simp only [closeRound_clip, closeCurly_clip, checkNext_clip]
  rfl

/-- **What is taken is the text before the end mark.** -/
theorem takeAll_clip : d.takeAll c.clip = (d.takeAll c).map fun r => (r.1, r.2.clip) := by
  fun_induction takeAll d c with
  | case1 d c hq hs => rw [takeAll_eq, if_pos hq, hs]; rfl
  | case2 d c hq s _ hs text c' hc ih =>
    rw [takeAll_eq, if_pos hq, hs]
    simp only [segment_clip, hc]
    cases d.closeString text with
    | error e => rfl
    | ok d' => exact ih d'
  | case3 d c hq s _ hs text c' hc ih =>
    rw [takeAll_eq, if_pos hq, hs]
    simp only [segment_clip, hc]
    change (do (← d.openHole text c'.line).takeAll c'.clip) = _
    cases d.openHole text c'.line with
    | error e => rfl
    | ok d' => exact ih d'
  | case4 d c hq s _ hs text c' hc =>
    rw [takeAll_eq, if_pos hq, hs]
    simp only [segment_clip, hc]
    rfl
  | case5 d c hq t c' hc ih =>
    rw [takeAll_eq, if_neg hq, next_clip, hc]
    simp only [take_clip]
    cases d.take t c' with
    | error e => rfl
    | ok d' => exact ih d'
  | case6 d c hq c' hc => rw [takeAll_eq, if_neg hq, next_clip, hc]; rfl
  | case7 d c hq c' hc => rw [takeAll_eq, if_neg hq, next_clip, hc]; rfl
  | case8 d c hq e c' hc => rw [takeAll_eq, if_neg hq, next_clip, hc]; rfl

end Desk

/-- **A buffer is compiled as its text is.** -/
theorem compileBuffer_eq (buffer : String) :
    compileBuffer buffer = compileBuffer (String.ofList (textOf buffer.toList)) := by
  have hstart : Cursor.start (String.ofList (textOf buffer.toList)) = (Cursor.start buffer).clip := by
    rw [Cursor.start, String.toList_ofList]
    rfl
  rw [compileBuffer, compileBuffer, hstart, Desk.takeAll_clip]
  cases ({} : Desk).takeAll (.start buffer) <;> rfl

theorem compileBuffer_append {text buffer : String} {more : List Char}
    (h : endMark ∉ text.toList) (hb : buffer.toList = text.toList ++ more) (he : atEnd more = true) :
    compileBuffer buffer = compileBuffer text := by
  rw [compileBuffer_eq, hb, textOf_append he, textOf_eq_self h, String.ofList_toList]

/-- **Nothing behind the end mark is seen**, whether the text is compiled as it is, with an end mark
    behind it, or with an end mark and more. -/
theorem compile_endMark {text : String} (h : endMark ∉ text.toList) (more : String) :
    compile text = compileBuffer text ∧
      compileBuffer (text.push endMark ++ more) = compileBuffer text ∧
        compile (text.push endMark ++ more) = compileBuffer text := by
  have hmore : (text.push endMark ++ more).toList = text.toList ++ (endMark :: more.toList) := by
    simp
  refine ⟨?_, compileBuffer_append h hmore rfl, ?_⟩
  · obtain ⟨cs, hcs, he⟩ := toList_withEndMark text
    exact compileBuffer_append h hcs he
  · obtain ⟨cs, hcs, -⟩ := toList_withEndMark (text.push endMark ++ more)
    rw [hmore, List.append_assoc] at hcs
    exact compileBuffer_append h hcs rfl

/-- A comment does not end behind the end mark. -/
theorem compile_endMark_comment : endMark ∉ "utama() /* ".toList ∧
    compile "utama() /* " = compileBuffer "utama() /* " ∧
      compileBuffer ("utama() /* ".push endMark ++ "*/ \x7b \x7d") =
          compileBuffer "utama() /* " ∧
        compile ("utama() /* ".push endMark ++ "*/ \x7b \x7d") = compileBuffer "utama() /* " :=
  have h : endMark ∉ "utama() /* ".toList := by decide
  ⟨h, compile_endMark h "*/ \x7b \x7d"⟩

end Naskah
