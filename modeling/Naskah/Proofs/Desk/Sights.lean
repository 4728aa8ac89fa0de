/-
  What is in sight while a source is read.  A name is in sight from the statement that binds it, by
  declaring it, assigning to it or defining a function, up to the end of the block that the
  statement stands in.  Inside of a function its parameters and its own name are in sight, and of
  the names around it those that belong to the module.  The own name of a function that is defined
  in the module belongs to the module, inside of the function already; that of a function inside of
  another one is not in sight in the functions that it defines itself.

  A source is scoped if it uses only names that are in sight (`Scoped`).
-/
import Naskah.Proofs.Desk.Hosts
import Naskah.Proofs.Machine.Sights

namespace Naskah

/-- The code binds names one after the other. -/
def Sight.bindAll (inModule : Bool) (names : List String) (s : Sight) : Sight :=
  names.foldl (fun s x => s.bind inModule x) s

theorem Sight.le_bindAll {inModule : Bool} {names : List String} {s : Sight} :
    s ≤ s.bindAll inModule names := by
  induction names generalizing s with
  | nil => exact le_refl s
  | cons x names ih => exact s.le_bind.trans ih

namespace Desk

/-- The name that a statement binds, by declaring it or by assigning to it. -/
def boundName? : List Token → Option String
  | .keyword .var :: .identifier l :: _ => some l.text
  | .keyword .const :: .identifier l :: _ => some l.text
  | .identifier l :: .punctuation .assign :: _ => some l.text
  | _ => none

/-- What is in sight in a block that begins. -/
def inner (d : Desk) (s : Sight) : Sight :=
  match d.header with
  | some (.function name params _) =>
    Sight.bind (Exposed d.blocks) name ⟨params.map Param.name, s.shared⟩
  | _ => s

/-- What is in sight after a step, in the innermost block and in those around it.  A clause that
    ends leaves the names of the clause behind. -/
def see (d d' : Desk) : List Sight → List Sight
  | [] => []
  | s :: ss =>
    if d.blocks.length < d'.blocks.length then d.inner s :: s :: ss
    else if d'.blocks.length < d.blocks.length then
      ss.modifyHead (Sight.bindAll (Exposed d'.blocks)
        ((d'.chunks.drop d.chunks.length).map Chunk.name))
    else if d'.chained?.isSome then ss.headD s :: ss
    else if d.Completes d' ∧ d'.header.isNone then
      s.bindAll (Exposed d.blocks) (boundName? d.run.tokens).toList :: ss
    else s :: ss

section
variable {d d' : Desk} {s t : Sight} {ss : List Sight}

theorem chained?_eq_some_iff {c : Chain} {bs : List Block} :
    d.chained? = some (c, bs) ↔ d.blocks = .chain c :: bs ∧ c.state = .chained := by
  unfold chained?
  split
  · next c' bs' hb =>
    rw [hb]
    split
    · next hs =>
      simp only [Option.some.injEq, Prod.mk.injEq, List.cons.injEq, Block.chain.injEq]
      exact ⟨fun ⟨h₁, h₂⟩ => ⟨⟨h₁, h₂⟩, h₁ ▸ hs⟩, fun h => h.1⟩
    · next hs =>
      refine ⟨nofun, fun ⟨h₁, h₂⟩ => ?_⟩
      cases h₁
      exact absurd h₂ hs
  · next hn => exact ⟨nofun, fun ⟨h₁, _⟩ => absurd h₁ (hn c bs)⟩

theorem see_of_cons {b : Block} (hb : d'.blocks = b :: d.blocks) :
    d.see d' (s :: ss) = d.inner s :: s :: ss := by
  rw [see, if_pos (by simp [hb])]

theorem see_of_tail {b : Block} {bs : List Block} (hb : d.blocks = b :: bs)
    (hl : d'.blocks.length = bs.length) :
    d.see d' (s :: t :: ss) = t.bindAll (Exposed d'.blocks)
      ((d'.chunks.drop d.chunks.length).map Chunk.name) :: ss := by
  rw [see, if_neg (by simp [hb, hl]), if_pos (by simp [hb, hl])]
  rfl

/-- Between the statements of a block nothing changes. -/
theorem see_of_not_bound (hl : d'.blocks.length = d.blocks.length)
    (hc : d'.chained?.isSome = true → ss.headD s = s)
    (hn : d.Completes d' → d'.header = none → boundName? d.run.tokens = none) :
    d.see d' (s :: ss) = s :: ss := by
  rw [see, if_neg (by omega), if_neg (by omega)]
  split
  · next h => rw [hc h]
  · split
    · next h =>
      rw [hn h.1 (Option.isNone_iff_eq_none.1 h.2)]
      rfl
    · rfl

theorem see_of_chained (hl : d'.blocks.length = d.blocks.length)
    (hc : d'.chained?.isSome = true) : d.see d' (s :: t :: ss) = t :: t :: ss := by
  rw [see, if_neg (by omega), if_neg (by omega), if_pos hc]
  rfl

theorem see_of_statement (hl : d'.blocks.length = d.blocks.length) (hc : d'.chained? = none)
    (hn : d.Completes d') (hh : d'.header = none) :
    d.see d' (s :: ss) = s.bindAll (Exposed d.blocks) (boundName? d.run.tokens).toList :: ss := by
  rw [see, if_neg (by omega), if_neg (by omega), if_neg (by simp [hc]),
    if_pos ⟨hn, by simp [hh]⟩]

end

end Desk

/-- A desk that a source leads to, with what is in sight. -/
inductive Sighted (text : String) : Desk → Cursor → List Sight → Prop
  | start : Sighted text {} (.start (withEndMark text)) [.initial]
  | take {d d' : Desk} {c c' : Cursor} {ss : List Sight} (h : Sighted text d c ss)
      (ht : Desk.Takes d c d' c') : Sighted text d' c' (d.see d' ss)

/-- A source that uses only names that are in sight. -/
def Scoped (text : String) : Prop :=
  ∀ d c s ss d' c', Sighted text d c (s :: ss) → Desk.Takes d c d' c' →
    ∀ l, .identifier l ∈ d.consumed d' → s.Sees l.text

/-! ## Checking -/

/-- A name is in sight; all other tokens are. -/
def Sight.seesToken (s : Sight) : Token → Bool
  | .identifier l => s.Sees l.text
  | _ => true

/-- The course comes to its end in fewer steps than `n`, and uses only names that are in sight. -/
def Desk.scopedFor : Nat → Desk → Cursor → List Sight → Bool
  | 0, _, _, _ => false
  | n + 1, d, c, ss =>
    match d.next? c with
    | none => true
    | some (d', c') =>
      (ss.head?.all fun s => (d.consumed d').all s.seesToken) && scopedFor n d' c' (d.see d' ss)

theorem Desk.Takes.scopedFor {n : Nat} {d d' : Desk} {c c' : Cursor} {ss : List Sight}
    (ht : Takes d c d' c') (h : d.scopedFor n c ss = true) :
    ∃ m, d'.scopedFor m c' (d.see d' ss) = true ∧
      ∀ s ∈ ss.head?, (d.consumed d').all s.seesToken = true := by
  cases n with
  | zero => cases h
  | succ n =>
    rw [Desk.scopedFor, takes_iff.1 ht, Bool.and_eq_true, Option.all_eq_true] at h
    exact ⟨n, h.2, h.1⟩

/-- **A source that passes the check is scoped.** -/
theorem Scoped.of_scopedFor {text : String} {n : Nat}
    (h : Desk.scopedFor n {} (.start (withEndMark text)) [.initial] = true) : Scoped text := by
  have hall : ∀ {d c ss}, Sighted text d c ss → ∃ m, d.scopedFor m c ss = true := by
    intro d c ss hs
    induction hs with
    | start => exact ⟨n, h⟩
    | take _ ht ih =>
      obtain ⟨m, hm⟩ := ih
      obtain ⟨k, hk, -⟩ := ht.scopedFor hm
      exact ⟨k, hk⟩
  intro d c s ss d' c' hs ht l hl
  obtain ⟨m, hm⟩ := hall hs
  obtain ⟨-, -, hsees⟩ := ht.scopedFor hm
  exact of_decide_eq_true (List.all_eq_true.1 (hsees s rfl) _ hl)

end Naskah
