/-
  Reading a source comes to an end.  Whatever is found in a source, a token, a word that is none or
  a text of a string, moves the cursor forward, and no cursor leaves the source (`Scanned`).  So the
  loop that takes a source piece by piece ends after at most one turn for each character of the
  text and one more (`compileWithin_eq`), however malformed the source is.
-/
import Naskah.Proofs.Compile.EndMark

namespace Naskah

/-! ## Cursors stay in their source -/

namespace Cursor

open Scan

theorem skip_suffix (mode : GapMode) (line : UInt32) (cs : List Char) :
    (skip mode line cs).rest <:+ cs := by
  fun_induction skip mode line cs with
  | case1 line cs ih | case2 line cs ih | case10 line cs ih =>
    exact (ih.trans (List.suffix_cons _ _)).trans (List.suffix_cons _ _)
  | case3 line c cs _ _ _ ih | case8 line c cs _ _ ih | case12 line c cs _ _ ih =>
    exact ih.trans (List.suffix_cons _ _)
  | case7 line cs _ ih => exact ih.trans (List.suffix_cons _ _)
  | case4 | case5 | case6 | case9 => exact List.suffix_rfl
  | case11 | case13 => exact List.nil_suffix

theorem symbol?_suffix {cs rest : List Char} {l : Lexeme} (h : symbol? cs = some (l, rest)) :
    rest <:+ cs := by
  obtain ⟨n, -, hs⟩ := List.exists_of_findSome?_eq_some h
  split at hs
  · obtain ⟨_, _, he⟩ := Option.map_eq_some_iff.1 hs
    cases he
    exact List.drop_suffix _ _
  · cases hs

theorem next_suffix (c : Cursor) : c.next.2.rest <:+ c.rest := by
  have hg : c.gap.rest <:+ c.rest := skip_suffix ..
  unfold next
  simp only
  split
  · exact hg
  · split
    · exact hg
    · split
      · next hs => exact (symbol?_suffix hs).trans hg
      · exact (List.dropWhile_suffix _).trans hg

theorem segmentFrom_suffix (quote : Char) (read : List Char) (line : UInt32) (cs : List Char) :
    (segmentFrom quote read line cs).2.2.2 <:+ cs := by
  fun_induction segmentFrom quote read line cs with
  | case1 | case2 => exact List.suffix_rfl
  | case3 read line cs => exact List.suffix_cons _ _
  | case4 read line cs => exact (List.suffix_cons _ _).trans (List.suffix_cons _ _)
  | case5 => exact List.nil_suffix
  | case6 => exact List.suffix_cons _ _
  | case7 read line e cs _ _ _ ih =>
    exact (ih.trans (List.suffix_cons _ _)).trans (List.suffix_cons _ _)
  | case8 read line c cs _ _ _ _ _ ih => exact ih.trans (List.suffix_cons _ _)

theorem segment_suffix (c : Cursor) (quote : Char) : (c.segment quote).2.rest <:+ c.rest :=
  segmentFrom_suffix quote [] c.line c.rest

end Cursor

/-- The cursors that reading a source leads to, in whatever order tokens and texts are read. -/
inductive Scanned (source : String) : Cursor → Prop
  | start : Scanned source (.start source)
  | next {c : Cursor} (h : Scanned source c) : Scanned source c.next.2
  | segment {c : Cursor} (h : Scanned source c) (quote : Char) :
      Scanned source (c.segment quote).2

namespace Scanned

variable {source : String} {c c' : Cursor}

theorem suffix (h : Scanned source c) : c.rest <:+ source.toList := by
  induction h with
  | start => exact List.suffix_rfl
  | next _ ih => exact (Cursor.next_suffix _).trans ih
  | segment _ quote ih => exact (Cursor.segment_suffix _ quote).trans ih

/-- What is left is what stands behind the position. -/
theorem drop_position (h : Scanned source c) :
    source.toList.drop (c.position source) = c.rest := by
  obtain ⟨read, hr⟩ := h.suffix
  have hp : c.position source = read.length := by
    rw [Cursor.position, ← String.length_toList, ← hr, List.length_append, Nat.add_sub_cancel]
  rw [hp, ← hr, List.drop_left]

/-- A cursor with less in front of it stands further on. -/
theorem position_lt (h : Scanned source c) (hl : c'.rest.length < c.rest.length) :
    c.position source < c'.position source := by
  have hle := h.suffix.length_le
  rw [String.length_toList] at hle
  unfold Cursor.position
  omega

end Scanned

/-! ## The loop -/

/-- What a turn of the loop leads to: another turn, or the end. -/
inductive Turn
  | again (d : Desk) (c : Cursor)
  | ended (r : Except Diagnostic (Desk × Cursor))

namespace Desk

/-- Goes on with a desk, unless there is none. -/
def goOn (x : Except Diagnostic Desk) (c : Cursor) : Turn :=
  match x with
  | .ok d => .again d c
  | .error e => .ended (.error e)

/-- One turn: takes the next token, or inside of a string the next text. -/
def turn (d : Desk) (c : Cursor) : Turn :=
  if d.nesting.inString then
    match d.strings with
    | [] => .ended (broken .bodyWithoutString)
    | s :: _ =>
      match c.segment s.quote.char with
      | (.closed text, c') => goOn (d.closeString text) c'
      | (.hole text, c') => goOn (d.openHole text c'.line) c'
      | (.endOfText _, c') => .ended (.ok (d, c'))
  else
    match c.next with
    | (.ok (.token t), c') => goOn (d.take t c') c'
    | (.ok .endOfText, c') | (.ok .truncated, c') => .ended (.ok (d, c'))
    | (.error e, _) => .ended (.error e)

/-- Takes a source in at most `n` turns; there is no answer if they do not suffice. -/
def takeWithin : Nat → Desk → Cursor → Option (Except Diagnostic (Desk × Cursor))
  | 0, _, _ => none
  | n + 1, d, c =>
    match d.turn c with
    | .again d' c' => takeWithin n d' c'
    | .ended r => some r

variable {d d' : Desk} {c c' : Cursor}

/-- Taking a source is taking turns. -/
theorem takeAll_turn (d : Desk) (c : Cursor) :
    d.takeAll c =
      match d.turn c with
      | .again d' c' => d'.takeAll c'
      | .ended r => r := by
  have hgo : ∀ (x : Except Diagnostic Desk) (c' : Cursor), (do (← x).takeAll c') =
      match goOn x c' with
      | .again d' c' => d'.takeAll c'
      | .ended r => r := by
    intro x c'
    cases x <;> rfl
  rw [takeAll_eq, turn]
  split
  · cases d.strings with
    | nil => rfl
    | cons s _ =>
      simp only
      cases c.segment s.quote.char with
      | mk g c' =>
        cases g with
        | closed text => exact hgo _ _
        | hole text => exact hgo _ _
        | endOfText text => rfl
  · cases c.next with
    | mk r c' =>
      cases r with
      | error e => rfl
      | ok l =>
        cases l with
        | token t => exact hgo _ _
        | endOfText | truncated => rfl

theorem goOn_eq_again {x : Except Diagnostic Desk} {c₁ : Cursor}
    (h : goOn x c₁ = .again d' c') : c₁ = c' := by
  cases x <;> cases h
  rfl

/-- After every turn but the last one there is less text. -/
theorem length_of_turn (h : d.turn c = .again d' c') :
    (textOf c'.rest).length < (textOf c.rest).length := by
  have hnext : ∀ {t}, c.next = (.ok (.token t), c') →
      (textOf c'.rest).length < (textOf c.rest).length := by
    intro t hn
    have hc := Cursor.next_clip c
    rw [hn] at hc
    exact Cursor.length_of_next hc
  have hsegment : ∀ {quote s}, c.segment quote = (s, c') → (∀ text, s ≠ .endOfText text) →
      (textOf c'.rest).length < (textOf c.rest).length := by
    intro quote s hn hs
    have hc := Cursor.segment_clip c quote
    rw [hn] at hc
    exact Cursor.length_of_segment hc hs
  unfold turn at h
  split at h
  · split at h
    · cases h
    · split at h
      · next hn => exact hsegment (goOn_eq_again h ▸ hn) (by simp)
      · next hn => exact hsegment (goOn_eq_again h ▸ hn) (by simp)
      · cases h
  · split at h
    · next hn => exact hnext (goOn_eq_again h ▸ hn)
    · cases h
    · cases h
    · cases h

/-- **One turn for each character of the text and one more suffice.** -/
theorem takeWithin_eq {n : Nat} (h : (textOf c.rest).length < n) :
    takeWithin n d c = some (d.takeAll c) := by
  induction n generalizing d c with
  | zero => cases h
  | succ n ih =>
    rw [takeWithin, takeAll_turn]
    cases ht : d.turn c with
    | ended r => rfl
    | again d' c' => exact ih (Nat.lt_of_lt_of_le (length_of_turn ht) (Nat.le_of_lt_succ h))

end Desk

/-- Compiles a buffer whose text is taken in at most `n` turns. -/
def compileWithin (n : Nat) (buffer : String) : Option (Except Diagnostic Program) :=
  (Desk.takeWithin n {} (.start buffer)).map fun r => do
    let (d, c) ← r
    d.finish c

theorem compileWithin_eq {n : Nat} {buffer : String} (h : (textOf buffer.toList).length < n) :
    compileWithin n buffer = some (compileBuffer buffer) := by
  rw [compileWithin, Desk.takeWithin_eq h]
  rfl

/-- The text of a source is no longer than the source, with an end mark behind it or without. -/
theorem length_textOf_withEndMark (source : String) :
    (textOf (withEndMark source).toList).length ≤ source.length := by
  have hlen : ∀ {cs more : List Char}, atEnd more = true →
      (textOf (cs ++ more)).length ≤ cs.length := by
    intro cs more he
    induction cs with
    | nil => rw [List.nil_append, textOf_atEnd he]
    | cons c cs ih =>
      by_cases hc : c = endMark
      · subst hc
        exact Nat.zero_le _
      · rw [List.cons_append, textOf_cons hc]
        exact Nat.succ_le_succ ih
  obtain ⟨cs, hcs, he⟩ := toList_withEndMark source
  rw [hcs, ← String.length_toList]
  exact hlen he

/-- **Reading ends on every source.**  Every cursor stands in the source, before what is left of
    it; everything that is read, a token or a word that is none, and every text of a string that
    ends at a quote or a hole, moves the cursor forward; and the compiler has its answer after at
    most as many turns as the source has characters and one more, whether an end mark is put behind
    the source or not. -/
theorem scan_progress (source : String) :
    (∀ c, Scanned source c →
      (c.position source ≤ source.length ∧ source.toList.drop (c.position source) = c.rest) ∧
        (Cursor.found c.next.1 = true → c.position source < c.next.2.position source) ∧
          ∀ quote, (∀ text, (c.segment quote).1 ≠ .endOfText text) →
            c.position source < (c.segment quote).2.position source) ∧
      compileWithin (source.length + 1) source = some (compileBuffer source) ∧
        compileWithin (source.length + 1) (withEndMark source) = some (compile source) := by
  refine ⟨fun c hc => ⟨⟨Nat.sub_le _ _, hc.drop_position⟩, fun hf => ?_, fun quote hs => ?_⟩, ?_, ?_⟩
  · exact hc.position_lt (Cursor.length_of_found hf)
  · exact hc.position_lt (Cursor.length_of_segment rfl hs)
  · refine compileWithin_eq (Nat.lt_succ_of_le ?_)
    rw [← String.length_toList]
    exact (List.takeWhile_sublist _).length_le
  · exact compileWithin_eq (Nat.lt_succ_of_le (length_textOf_withEndMark source))

end Naskah
