/-
  The course of a compilation: the desks that a source leads to, one after the other.

  All of them have the right shape and sound code, and whatever else moves keep (`Leads.keeps`).
  Each desk leads to one desk only, so any two desks of a course lead to the same end
  (`Leads.to_end`), and a source that compiles has come to the end of its course
  (`exists_of_compile`).
-/
import Naskah.Proofs.Compile.Turns
import Naskah.Proofs.Desk.Taking

namespace Naskah

namespace Desk

theorem standing_empty (c : Cursor) : ({} : Desk).Standing c :=
  Ready.standing (.of_idle rfl ⟨rfl, rfl, rfl, rfl⟩ ⟨rfl, by simp⟩ : Ready {} 0 false)

theorem sound_empty : ({} : Desk).Sound where
  run := by simp
  outer := by simp
  parts := by simp
  header := by simp
  crafted := ⟨.nil, trivial, by simp⟩
  distinct := fun l => by simp [labelList, Asm.marks]

/-- What comes next in a source, a token or a text of a string, turns a desk into another one. -/
inductive Takes (d : Desk) (c : Cursor) : Desk → Cursor → Prop
  | token {d' : Desk} {c' : Cursor} {t : Token} (hq : d.nesting.inString = false)
      (hn : c.next = (.ok (.token t), c')) (ht : d.take t c' = .ok d') : Takes d c d' c'
  | closed {d' : Desk} {c' : Cursor} {s : Draft} {strings : List Draft} {text : String}
      (hq : d.nesting.inString = true) (hs : d.strings = s :: strings)
      (hn : c.segment s.quote.char = (.closed text, c')) (ht : d.closeString text = .ok d') :
      Takes d c d' c'
  | hole {d' : Desk} {c' : Cursor} {s : Draft} {strings : List Draft} {text : String}
      (hq : d.nesting.inString = true) (hs : d.strings = s :: strings)
      (hn : c.segment s.quote.char = (.hole text, c')) (ht : d.openHole text c'.line = .ok d') :
      Takes d c d' c'

section
variable {d d' d₁ d₂ : Desk} {c c' c₁ c₂ : Cursor}

/-- What is taken makes a move. -/
theorem Takes.move (ht : Takes d c d' c') (hst : d.Standing c) (h : d.Sound) :
    ∃ awaited, d.Shape awaited ∧ Move c' d awaited d' := by
  obtain ⟨awaited, hs, ha⟩ := hst
  refine ⟨awaited, hs, ?_⟩
  cases ht with
  | @token t hq hn ht =>
    refine (take_yields hs h hq ?_ (Cursor.next_ne_string hn) (Cursor.next_legal hn)).of_ok ht
    intro a haw
    obtain ⟨c'', hc⟩ := ha a haw
    rw [hn] at hc
    simpa using congrArg Prod.fst hc
  | closed hq _ _ ht =>
    obtain ⟨rfl, m, chained, hr⟩ := hs.ready_of_inString hq
    exact (closeString_yields hr hq _).of_ok ht
  | hole hq _ _ ht =>
    obtain ⟨rfl, m, chained, hr⟩ := hs.ready_of_inString hq
    exact (openHole_yields hr hq _).of_ok ht

/-- The desk that comes next, and what is left of the source then. -/
def next? (d : Desk) (c : Cursor) : Option (Desk × Cursor) :=
  if d.nesting.inString then
    match d.strings with
    | [] => none
    | s :: _ =>
      match c.segment s.quote.char with
      | (.closed text, c') => (d.closeString text).toOption.map fun d' => (d', c')
      | (.hole text, c') => (d.openHole text c'.line).toOption.map fun d' => (d', c')
      | (.endOfText _, _) => none
  else
    match c.next with
    | (.ok (.token t), c') => (d.take t c').toOption.map fun d' => (d', c')
    | _ => none

theorem takes_iff : Takes d c d' c' ↔ d.next? c = some (d', c') := by
  constructor
  · intro h
    cases h with
    | token hq hn ht => simp [next?, hq, hn, toOption_eq_some_iff.2 ht]
    | closed hq hs hn ht => simp [next?, hq, hs, hn, toOption_eq_some_iff.2 ht]
    | hole hq hs hn ht => simp [next?, hq, hs, hn, toOption_eq_some_iff.2 ht]
  · intro h
    have yields : ∀ {x : Except Diagnostic Desk} {c₁ : Cursor},
        (x.toOption.map fun d' => (d', c₁)) = some (d', c') → x = .ok d' ∧ c₁ = c' := by
      intro x c₁ hx
      obtain ⟨d₁, hd, he⟩ := Option.map_eq_some_iff.1 hx
      cases he
      exact ⟨toOption_eq_some_iff.1 hd, rfl⟩
    unfold next? at h
    split at h
    · next hq =>
      split at h
      · cases h
      · next hs =>
        split at h
        · next hn =>
          obtain ⟨ht, rfl⟩ := yields h
          exact .closed hq hs hn ht
        · next hn =>
          obtain ⟨ht, rfl⟩ := yields h
          exact .hole hq hs hn ht
        · cases h
    · next hq =>
      split at h
      · next hn =>
        obtain ⟨ht, rfl⟩ := yields h
        exact .token (Bool.eq_false_iff.2 hq) hn ht
      · cases h

theorem Takes.unique (h₁ : Takes d c d₁ c₁) (h₂ : Takes d c d₂ c₂) : d₁ = d₂ ∧ c₁ = c₂ := by
  have he := (takes_iff.1 h₁).symm.trans (takes_iff.1 h₂)
  exact Prod.mk.inj (Option.some.inj he)

/-- A desk leads to all those that come up while the rest of the source is taken. -/
inductive Leads (d : Desk) (c : Cursor) : Desk → Cursor → Prop
  | refl : Leads d c d c
  | take {d₁ d₂ : Desk} {c₁ c₂ : Cursor} (h : Leads d c d₁ c₁) (ht : Takes d₁ c₁ d₂ c₂) :
      Leads d c d₂ c₂

theorem Leads.trans (h₁ : Leads d c d₁ c₁) (h₂ : Leads d₁ c₁ d₂ c₂) : Leads d c d₂ c₂ := by
  induction h₂ with
  | refl => exact h₁
  | take _ ht ih => exact ih.take ht

/-- The first step of a course. -/
theorem Leads.cases_head (h : Leads d c d₂ c₂) :
    d₂ = d ∧ c₂ = c ∨ ∃ d₁ c₁, Takes d c d₁ c₁ ∧ Leads d₁ c₁ d₂ c₂ := by
  induction h with
  | refl => exact .inl ⟨rfl, rfl⟩
  | take _ ht ih =>
    rcases ih with ⟨rfl, rfl⟩ | ⟨d₁, c₁, hf, hl⟩
    · exact .inr ⟨_, _, ht, .refl⟩
    · exact .inr ⟨d₁, c₁, hf, hl.take ht⟩

/-- The desk after `n` steps. -/
def advance? : Nat → Desk → Cursor → Option (Desk × Cursor)
  | 0, d, c => some (d, c)
  | n + 1, d, c => (d.next? c).bind fun r => advance? n r.1 r.2

theorem Leads.of_advance? {n : Nat} (h : advance? n d c = some (d', c')) : Leads d c d' c' := by
  induction n generalizing d c with
  | zero => cases h; exact .refl
  | succ n ih =>
    obtain ⟨r, hr, h⟩ := Option.bind_eq_some_iff.1 h
    exact (Leads.refl.take (takes_iff.2 hr)).trans (ih h)

/-- The course comes to its end in fewer steps than `n`, and all its desks have a property. -/
def throughout (P : Desk → Bool) : Nat → Desk → Cursor → Bool
  | 0, _, _ => false
  | n + 1, d, c =>
    P d &&
      match d.next? c with
      | none => true
      | some (d', c') => throughout P n d' c'

theorem Leads.of_throughout {P : Desk → Bool} {n : Nat} (hl : Leads d c d₂ c₂)
    (h : throughout P n d c = true) : P d₂ = true := by
  induction n generalizing d c with
  | zero => cases h
  | succ n ih =>
    rw [throughout, Bool.and_eq_true] at h
    rcases hl.cases_head with ⟨rfl, rfl⟩ | ⟨d₁, c₁, ht, hl⟩
    · exact h.1
    · rw [takes_iff.1 ht] at h
      exact ih hl h.2

/-- **All desks of a course lead to its end.** -/
theorem Leads.to_end (h₁ : Leads d c d₁ c₁) (h₂ : Leads d c d₂ c₂)
    (hend : ∀ d' c', ¬ Takes d₂ c₂ d' c') : Leads d₁ c₁ d₂ c₂ := by
  induction h₁ with
  | refl => exact h₂
  | take _ ht ih =>
    rcases ih.cases_head with ⟨rfl, rfl⟩ | ⟨d', c', ht', hl⟩
    · exact absurd ht (hend _ _)
    · obtain ⟨rfl, rfl⟩ := ht.unique ht'
      exact hl

/-- **What moves keep holds of all desks of a course**, if it holds of the first one. -/
theorem Leads.keeps {P : Desk → Cursor → Prop} (h : Leads d c d' c') (hst : d.Standing c)
    (hd : d.Sound) (hp : P d c)
    (step : ∀ {d₁ d₂ : Desk} {c₁ c₂ : Cursor} {awaited : Option Token}, Leads d c d₁ c₁ →
      Takes d₁ c₁ d₂ c₂ → Move c₂ d₁ awaited d₂ → d₁.Shape awaited → d₁.Sound → P d₁ c₁ →
        P d₂ c₂) :
    d'.Standing c' ∧ d'.Sound ∧ P d' c' := by
  induction h with
  | refl => exact ⟨hst, hd, hp⟩
  | take hl ht ih =>
    obtain ⟨hst₁, hd₁, hp₁⟩ := ih
    obtain ⟨awaited, hs, hm⟩ := ht.move hst₁ hd₁
    exact ⟨hm.shape hs, hm.sound hd₁, step hl ht hm hs hd₁ hp₁⟩

/-- All desks of a course that begins with an empty one have the right shape and sound code. -/
theorem Leads.sound (h : Leads {} c d' c') : d'.Standing c' ∧ d'.Sound := by
  obtain ⟨hst, hd, -⟩ := h.keeps (P := fun _ _ => True) (standing_empty c) sound_empty trivial
    fun _ _ _ _ _ _ => trivial
  exact ⟨hst, hd⟩

/-- What is taken is taken in a turn of the loop. -/
theorem takes_iff_turn : Takes d c d' c' ↔ d.turn c = .again d' c' := by
  constructor
  · intro h
    cases h with
    | token hq hn ht => simp [turn, hq, hn, ht, goOn]
    | closed hq hs hn ht => simp [turn, hq, hs, hn, ht, goOn]
    | hole hq hs hn ht => simp [turn, hq, hs, hn, ht, goOn]
  · intro h
    have hgo : ∀ {x : Except Diagnostic Desk} {c₁ : Cursor},
        goOn x c₁ = .again d' c' → x = .ok d' ∧ c₁ = c' := by
      intro x c₁ hx
      cases x <;> cases hx
      exact ⟨rfl, rfl⟩
    unfold turn at h
    split at h
    · next hq =>
      split at h
      · cases h
      · next hs =>
        split at h
        · next hn =>
          obtain ⟨ht, rfl⟩ := hgo h
          exact .closed hq hs hn ht
        · next hn =>
          obtain ⟨ht, rfl⟩ := hgo h
          exact .hole hq hs hn ht
        · cases h
    · next hq =>
      split at h
      · next hn =>
        obtain ⟨ht, rfl⟩ := hgo h
        exact .token (Bool.eq_false_iff.2 hq) hn ht
      · cases h
      · cases h
      · cases h

/-- The last turn leaves the desk as it is. -/
theorem eq_of_turn_ended (h : d.turn c = .ended (.ok (d', c'))) : d' = d := by
  have hgo : ∀ {x : Except Diagnostic Desk} {c₁ : Cursor}, goOn x c₁ ≠ .ended (.ok (d', c')) := by
    intro x c₁ hx
    cases x <;> cases hx
  unfold turn at h
  split at h
  · split at h
    · cases h
    · split at h
      · exact absurd h hgo
      · exact absurd h hgo
      · cases h; rfl
  · split at h
    · exact absurd h hgo
    · cases h; rfl
    · cases h; rfl
    · cases h

/-- Taking all of a source leads to the last turn. -/
theorem exists_last_turn (h : d.takeAll c = .ok (d', c')) :
    ∃ c₁, Leads d c d' c₁ ∧ d'.turn c₁ = .ended (.ok (d', c')) := by
  induction hn : (textOf c.rest).length using Nat.strongRecOn generalizing d c with
  | ind n ih =>
    rw [takeAll_turn] at h
    cases ht : d.turn c with
    | again d₁ c₁ =>
      rw [ht] at h
      obtain ⟨c₂, hl, he⟩ := ih _ (hn ▸ length_of_turn ht) h rfl
      exact ⟨c₂, (Leads.refl.take (takes_iff_turn.2 ht)).trans hl, he⟩
    | ended r =>
      rw [ht] at h
      obtain rfl : r = .ok (d', c') := h
      obtain rfl := eq_of_turn_ended ht
      exact ⟨c, .refl, ht⟩

/-- Taking all of a source comes to the end of the course. -/
theorem leads_of_takeAll (h : d.takeAll c = .ok (d', c')) :
    ∃ c₁, Leads d c d' c₁ ∧ ∀ d₂ c₂, ¬ Takes d' c₁ d₂ c₂ := by
  obtain ⟨c₁, hl, he⟩ := exists_last_turn h
  refine ⟨c₁, hl, fun d₂ c₂ ht => ?_⟩
  rw [takes_iff_turn.1 ht] at he
  cases he

/-- What is finished, and to what. -/
theorem of_finish {p : Program} (h : d.finish c = .ok p) : d.blocks = [] ∧ d.header = none ∧
    p.chunks = d.chunks ∧ Asm.assemble (d.code ++ FunctionBlock.returnNull) = .ok p.code := by
  unfold finish at h
  split at h
  · cases h
  · split at h
    · cases h
    · split at h
      · cases h
      · next hb =>
        split at h
        · cases h
        · split at h
          · cases h
          · next code hc =>
            cases h
            rw [not_or] at hb
            exact ⟨by simpa using hb.2, by simpa using hb.1, rfl, hc⟩

end

end Desk

/-- A desk that a source leads to. -/
def Passes (text : String) (d : Desk) (c : Cursor) : Prop :=
  Desk.Leads {} (.start (withEndMark text)) d c

theorem Passes.sound {text : String} {d : Desk} {c : Cursor} (h : Passes text d c) :
    d.Standing c ∧ d.Sound :=
  Desk.Leads.sound h

theorem takeAll_of_compileBuffer {buffer : String} {p : Program}
    (h : compileBuffer buffer = .ok p) :
    ∃ d c, ({} : Desk).takeAll (.start buffer) = .ok (d, c) ∧ d.finish c = .ok p := by
  unfold compileBuffer at h
  cases ht : ({} : Desk).takeAll (.start buffer) with
  | error e => rw [ht] at h; cases h
  | ok r =>
    rw [ht] at h
    exact ⟨r.1, r.2, rfl, h⟩

/-- **A source that compiles has come to the end of its course.** -/
theorem exists_of_compile {text : String} {p : Program} (h : compile text = .ok p) :
    ∃ d c c', Passes text d c ∧ (∀ d' c', ¬ Desk.Takes d c d' c') ∧ d.finish c' = .ok p := by
  obtain ⟨d, c', ht, hf⟩ := takeAll_of_compileBuffer h
  obtain ⟨c, hl, hend⟩ := Desk.leads_of_takeAll ht
  exact ⟨d, c, c', hl, hend, hf⟩

end Naskah
