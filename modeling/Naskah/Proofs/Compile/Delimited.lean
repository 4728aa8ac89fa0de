/-
  The delimiters of a source.  On every desk that a source leads to the stacks are in step; where
  the source ends with nothing open, no block is left under construction and no header without its
  block; and a source that compiles closes all it opens, the innermost first (`inStep_wellNested`).
-/
import Naskah.Proofs.Desk.Delimiters

namespace Naskah

/-- No token is left: the text ends, or a comment that never does begins. -/
def Cursor.Exhausted (c : Cursor) : Prop :=
  c.next.1 = .ok .endOfText ∨ c.next.1 = .ok .truncated

theorem Cursor.Exhausted.next_ne {c c' : Cursor} {t : Token} (h : c.Exhausted) :
    c.next ≠ (.ok (.token t), c') := by
  intro hn
  rcases h with h | h
  · rw [hn] at h; cases h
  · rw [hn] at h; cases h

theorem Nested.of_nil {chained : Bool} {m : Nat} {rss : List (List Round)} {qs : List Quote}
    (h : Nested chained m [] rss qs) : m = 0 ∧ rss = [[]] := by
  generalize hn : ([] : Nesting) = n at h
  cases h with
  | outermost =>
    cases m with
    | zero => exact ⟨rfl, rfl⟩
    | succ m => cases hn
  | header | round | quote | hole => cases hn

namespace Desk

variable {d d' : Desk} {c c' : Cursor}

/-- Where taking ends outside of strings, no token is left. -/
theorem exhausted_of_turn (h : d.turn c = .ended (.ok (d', c'))) (hq : d.nesting.inString = false) :
    c.Exhausted := by
  unfold turn at h
  rw [if_neg (by rw [hq]; exact Bool.false_ne_true)] at h
  split at h
  · next t c₁ hn =>
    cases hx : d.take t c₁ with
    | error e => rw [hx] at h; cases h
    | ok d₁ => rw [hx] at h; cases h
  · next hn => exact .inl (by rw [hn])
  · next hn => exact .inr (by rw [hn])
  · cases h

/-- A desk with nothing open between two statements. -/
theorem Ready.of_nil {m : Nat} {chained : Bool} (h : d.Ready m chained) (hn : d.nesting = [])
    (ht : d.run.tokens = []) : d.blocks = [] := by
  have hs := h.nested
  rw [hn] at hs
  obtain ⟨rfl, hr⟩ := hs.of_nil
  -- without tokens the statement continues no chain, so all blocks are open, and there are none
  have ho : d.outer = [] := List.map_eq_nil_iff.1 (List.cons.inj hr).2
  obtain rfl : chained = false := by
    rw [← Bool.not_eq_true, ← h.first, firstToken?_of_outer ho, ht]
    simp
  have hop : Open 0 d.blocks := Stacked.eq_opened h.stacked (by rw [ho]; rfl)
  exact List.eq_nil_of_length_eq_zero hop.length_eq

/-- **Nothing is left under construction where a source ends with nothing open.** -/
theorem Standing.of_exhausted (h : d.Standing c) (hc : c.Exhausted) (hn : d.nesting = [])
    (ht : d.run.tokens = []) : d.blocks = [] ∧ d.header = none := by
  obtain ⟨awaited, hs, ha⟩ := h
  cases awaited with
  | some t =>
    -- what a desk waits for comes next, and nothing does
    obtain ⟨c', hnext⟩ := ha t rfl
    exact absurd hnext hc.next_ne
  | none =>
    cases hs with
    | ready h => exact ⟨h.of_nil hn ht, h.header⟩

theorem nesting_of_closer? {n : Nesting} (h : n.closer? = none) : n = [] := by
  cases n with
  | nil => rfl
  | cons δ n => cases h

/-- A block that should follow a header is never what is missing at the end. -/
theorem finish_ne (h : d.nesting = [] → d.run.tokens = [] → d.blocks = [] ∧ d.header = none) :
    d.finish c ≠ refuseAtEnd (.expectedAtEnd "\x7b") := by
  intro hf
  unfold finish at hf
  split at hf
  · exact absurd hf (by simp [refuse, refuseAtEnd])
  · next hn =>
    split at hf
    · exact absurd hf (by simp [refuseAtEnd])
    · next ht =>
      obtain ⟨hb, hh⟩ := h (nesting_of_closer? hn) (Decidable.not_not.1 ht)
      rw [if_neg (by simp [hb, hh])] at hf
      split at hf
      · cases hf
      · split at hf <;> cases hf

/-- What is finished has nothing open and no token left over. -/
theorem closed_of_finish {p : Program} (h : d.finish c = .ok p) :
    d.nesting = [] ∧ d.run.tokens = [] := by
  unfold finish at h
  split at h
  · cases h
  · next hn =>
    split at h
    · cases h
    · next ht => exact ⟨nesting_of_closer? hn, Decidable.not_not.1 ht⟩

end Desk

/-- **The stacks of the compiler are in step, and the delimiters of what it accepts are properly
    nested.**  On every desk that a buffer leads to, the open delimiters, the runs, the strings and
    the blocks agree, and a header waits for nothing but the bracket that comes next.  So when the
    buffer ends with no delimiter open and no token left over, there is neither a block nor a
    header, and a missing block is never what is complained of at the end.  Sources are buffers with
    an end mark. -/
theorem inStep_wellNested (buffer : String) :
    (∀ d c, Desk.Leads {} (.start buffer) d c → d.InStep c) ∧
    (∀ d c, ({} : Desk).takeAll (.start buffer) = .ok (d, c) →
      (d.nesting = [] → d.run.tokens = [] → d.blocks = [] ∧ d.header = none) ∧
        d.finish c ≠ refuseAtEnd (.expectedAtEnd "\x7b")) ∧
    ∀ p, compileBuffer buffer = .ok p → ∃ c, WellNested (.start buffer) c ∧ c.Exhausted := by
  refine ⟨fun d c hl => hl.sound.1.inStep, fun d c ht => ?_, fun p hp => ?_⟩
  · obtain ⟨c₁, hl, he⟩ := Desk.exists_last_turn ht
    have hend : d.nesting = [] → d.run.tokens = [] → d.blocks = [] ∧ d.header = none :=
      fun hn => hl.sound.1.of_exhausted (Desk.exhausted_of_turn he (by rw [hn]; rfl)) hn
    exact ⟨hend, Desk.finish_ne hend⟩
  · obtain ⟨d, c', ht, hf⟩ := takeAll_of_compileBuffer hp
    obtain ⟨c, hl, he⟩ := Desk.exists_last_turn ht
    have hn : d.nesting = [] := (Desk.closed_of_finish hf).1
    have hc : Closes c [] (.start buffer) := hl.closes (by rw [hn]; exact .nil (.nil c))
    cases hc with
    | nil h => exact ⟨c, h, Desk.exhausted_of_turn he (by rw [hn]; rfl)⟩

/-- The guard of a clause that continues a chain has a string with a hole. -/
def guardedText : String :=
  "utama()\x7bjika(1)\x7b\x7dselainnya jika(\"$\x7b2\x7d\")\x7b\x7d\x7d"

/-- In the hole all stacks are in use: a chain waits for its clause, and a nameless block stands
    inside of it. -/
theorem inStep_wellNested_guarded :
    (∃ d c, Desk.Leads {} (.start guardedText) d c ∧
      d.nesting = [.curly, .quote .double, .round, .curly] ∧
      d.blocks.map Block.isChained = [false, true, false] ∧ d.InStep c) ∧
    ∃ d c p, ({} : Desk).takeAll (.start guardedText) = .ok (d, c) ∧ d.nesting = [] ∧
      d.run.tokens = [] ∧ d.blocks = [] ∧ d.header = none ∧ compileBuffer guardedText = .ok p ∧
        ∃ c', WellNested (.start guardedText) c' ∧ c'.Exhausted := by
  have hin : ((Desk.advance? 15 {} (.start guardedText)).any fun r =>
      r.1.nesting = [.curly, .quote .double, .round, .curly] &&
        r.1.blocks.map Block.isChained = [false, true, false]) = true := by decide +kernel
  have hok : (compileBuffer guardedText).isOk = true := by decide +kernel
  obtain ⟨⟨d, c⟩, hadv, hd⟩ := (Option.any_eq_true _ _).1 hin
  rw [Bool.and_eq_true, decide_eq_true_eq, decide_eq_true_eq] at hd
  have hl : Desk.Leads {} (.start guardedText) d c := .of_advance? hadv
  obtain ⟨hstep, hend, hnested⟩ := inStep_wellNested guardedText
  refine ⟨⟨d, c, hl, hd.1, hd.2, hstep d c hl⟩, ?_⟩
  cases hp : compileBuffer guardedText with
  | error e => rw [hp] at hok; cases hok
  | ok p =>
    obtain ⟨d, c, ht, hf⟩ := takeAll_of_compileBuffer hp
    obtain ⟨hn, hr⟩ := Desk.closed_of_finish hf
    obtain ⟨hb, hh⟩ := (hend d c ht).1 hn hr
    exact ⟨d, c, p, ht, hn, hr, hb, hh, rfl, hnested p hp⟩

end Naskah
