/-
  Progress: every token and every text of a string that ends at a quote or a hole takes at least
  one character off a source, so that reading a source comes to an end.

  A word is never empty because every character with which a symbol begins is a symbol itself.
-/
import Naskah.Token.Scan

namespace Naskah

theorem atEnd_eq_false {cs : List Char} :
    atEnd cs = false ↔ ∃ c cs', cs = c :: cs' ∧ c ≠ endMark := by
  cases cs with
  | nil => simp [atEnd]
  | cons c cs' => simp [atEnd]

@[simp] theorem isBlank_endMark : Text.isBlank endMark = false := rfl

namespace Cursor

theorem length_skip (mode : GapMode) (line : UInt32) (cs : List Char) :
    (skip mode line cs).rest.length ≤ cs.length := by
  fun_induction skip mode line cs <;> simp_all <;> omega

/-- After a gap there is no blank. -/
theorem skip_head (mode : GapMode) (line : UInt32) (cs : List Char) :
    ∀ c ∈ (skip mode line cs).rest.head?, Text.isBlank c = false := by
  fun_induction skip mode line cs <;> simp_all

end Cursor

namespace Scan

theorem length_window (n : Nat) (cs : List Char) : (window n cs).length ≤ cs.length := by
  have hw := (List.takeWhile_sublist (l := cs.take n) (· ≠ endMark)).length_le
  rw [List.length_take] at hw
  exact Nat.le_trans hw (Nat.min_le_right ..)

theorem length_of_symbol? {cs rest : List Char} {l : Lexeme}
    (h : symbol? cs = some (l, rest)) : rest.length < cs.length := by
  obtain ⟨n, hn, hs⟩ := List.exists_of_findSome?_eq_some h
  split at hs
  · next hl =>
    obtain ⟨_, _, he⟩ := Option.map_eq_some_iff.1 hs
    have : 0 < n := by simp only [List.mem_cons, List.not_mem_nil, or_false] at hn; omega
    simp only [Prod.mk.injEq] at he
    have hw := length_window n cs
    rw [← he.2, List.length_drop]
    omega
  · simp at hs

/-- Every character with which a symbol begins is a symbol. -/
theorem symbol?_singleton {c : Char} (h : Vocabulary.startsSymbol c = true) :
    (Vocabulary.symbol? (String.ofList [c])).isSome = true := by
  have hall : (Vocabulary.symbolStarts.all fun c =>
      (Vocabulary.symbol? (String.ofList [c])).isSome) = true := rfl
  exact List.all_eq_true.1 hall c (List.contains_iff_mem.1 h)

theorem symbol?_isSome {c : Char} (hc : c ≠ endMark) (h : Vocabulary.startsSymbol c = true)
    (cs : List Char) : (symbol? (c :: cs)).isSome = true := by
  have hw : window 1 (c :: cs) = [c] := by simp [window, hc]
  unfold symbol?
  rw [List.findSome?_isSome_iff]
  refine ⟨1, by simp, ?_⟩
  simpa [hw] using symbol?_singleton h

/-- Where no symbol and no blank stands there is a word. -/
theorem length_afterWord {cs : List Char} (he : atEnd cs = false) (hs : symbol? cs = none)
    (hb : ∀ c ∈ cs.head?, Text.isBlank c = false) : (afterWord cs).length < cs.length := by
  obtain ⟨c, cs, rfl, hne⟩ := atEnd_eq_false.1 he
  have hw : isWordChar c = true := by
    have hb : Text.isBlank c = false := hb c rfl
    have hs : Vocabulary.startsSymbol c = false := by
      cases hc : Vocabulary.startsSymbol c with
      | false => rfl
      | true => simpa [hs] using symbol?_isSome hne hc cs
    simp [isWordChar, hb, hs]
  rw [afterWord, List.dropWhile_cons_of_pos hw]
  exact Nat.lt_succ_of_le (List.dropWhile_sublist _).length_le

end Scan

namespace Cursor

open Scan

theorem length_gap (c : Cursor) : c.gap.rest.length ≤ c.rest.length :=
  length_skip .blanks c.line c.rest

/-- Something was read: a token, or a word that is none. -/
def found : Except Diagnostic Lexed → Bool
  | .ok (.token _) | .error _ => true
  | .ok .endOfText | .ok .truncated => false

/-- What is read takes a character off the source. -/
theorem length_of_found {c : Cursor} (h : found c.next.1 = true) :
    c.next.2.rest.length < c.rest.length := by
  have hg := length_gap c
  unfold next at h ⊢
  simp only at h ⊢
  split at h
  · cases h
  · split at h
    · cases h
    · next ht hne =>
      rw [if_neg ht, if_neg hne]
      split
      · next l rest hs => exact Nat.lt_of_lt_of_le (length_of_symbol? hs) hg
      · next hs =>
        have hl := length_afterWord (by simpa using hne) hs (skip_head .blanks c.line c.rest)
        exact Nat.lt_of_lt_of_le hl hg

/-- A token takes a character off the source. -/
theorem length_of_next {c c' : Cursor} {t : Token} (h : c.next = (.ok (.token t), c')) :
    c'.rest.length < c.rest.length := by
  have hl := length_of_found (c := c) (by rw [h]; rfl)
  rwa [h] at hl

theorem length_segmentFrom (quote : Char) (read : List Char) (line : UInt32) (cs : List Char) :
    let (stop, _, _, rest) := segmentFrom quote read line cs
    stop ≠ .endOfText → rest.length < cs.length := by
  fun_induction segmentFrom quote read line cs <;> simp_all <;> grind

/-- The text of a string takes a character off the source, with the quote or the hole at its
    end. -/
theorem length_of_segment {c c' : Cursor} {quote : Char} {s : Segment}
    (h : c.segment quote = (s, c')) (hs : ∀ text, s ≠ .endOfText text) :
    c'.rest.length < c.rest.length := by
  have hl := length_segmentFrom quote [] c.line c.rest
  unfold segment at h
  generalize segmentFrom quote [] c.line c.rest = r at h hl
  obtain ⟨stop, read, line, rest⟩ := r
  obtain ⟨rfl, rfl⟩ := Prod.mk.inj h
  refine hl fun he => ?_
  subst he
  exact hs _ rfl

end Cursor

end Naskah
