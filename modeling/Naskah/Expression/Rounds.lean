/-
  Round brackets in a run of tokens: the part up to the matching bracket, and the parts between
  the commas outside of brackets.  Both give pieces that are no longer than the run.
-/
import Naskah.Token

namespace Naskah.Expression

/-- The number of open brackets after a token. -/
def depthAfter (depth : Nat) : Token → Nat
  | .bracket .openRound => depth + 1
  | .bracket .closeRound => depth - 1
  | _ => depth

/-- The tokens before the bracket that closes `depth + 1` open ones, and those after it. -/
def splitClose : Nat → List Token → Option (List Token × List Token)
  | _, [] => none
  | depth, t :: ts =>
    if t = .bracket .closeRound ∧ depth = 0 then some ([], ts)
    else (splitClose (depthAfter depth t) ts).map fun p => (t :: p.1, p.2)

/-- Splits a run at the commas outside of brackets, when it stands inside `depth` of them.
    Brackets that close nothing are passed over. -/
def splitCommasFrom : Nat → List Token → List (List Token)
  | _, [] => [[]]
  | depth, t :: ts =>
    if t = .punctuation .comma ∧ depth = 0 then [] :: splitCommasFrom 0 ts
    else
      match splitCommasFrom (depthAfter depth t) ts with
      | [] => [[t]]
      | part :: parts => (t :: part) :: parts

/-- The parts between the commas outside of brackets.  An empty run has no parts. -/
def splitCommas (ts : List Token) : List (List Token) :=
  if ts = [] then [] else splitCommasFrom 0 ts

theorem length_of_splitClose {depth : Nat} {ts inner after : List Token}
    (h : splitClose depth ts = some (inner, after)) :
    inner.length + after.length < ts.length := by
  induction ts generalizing depth inner with
  | nil => simp [splitClose] at h
  | cons t ts ih =>
    rw [splitClose] at h
    split at h
    · simp only [Option.some.injEq, Prod.mk.injEq] at h
      obtain ⟨rfl, rfl⟩ := h
      simp
    · obtain ⟨⟨i, a⟩, hp, he⟩ := Option.map_eq_some_iff.1 h
      simp only [Prod.mk.injEq] at he
      obtain ⟨rfl, rfl⟩ := he
      have := ih hp
      simp only [List.length_cons]
      omega

theorem length_of_mem_splitCommasFrom {depth : Nat} {ts part : List Token}
    (h : part ∈ splitCommasFrom depth ts) : part.length ≤ ts.length := by
  induction ts generalizing depth part with
  | nil => simp_all [splitCommasFrom]
  | cons t ts ih =>
    rw [splitCommasFrom] at h
    split at h
    · rcases List.mem_cons.1 h with rfl | h
      · simp
      · exact Nat.le_succ_of_le (ih h)
    · split at h
      · simp_all
      · next part' parts hs =>
        rcases List.mem_cons.1 h with rfl | h
        · exact Nat.succ_le_succ (ih (hs ▸ List.mem_cons_self ..))
        · exact Nat.le_succ_of_le (ih (hs ▸ List.mem_cons_of_mem _ h))

theorem length_of_mem_splitCommas {ts part : List Token} (h : part ∈ splitCommas ts) :
    part.length ≤ ts.length := by
  unfold splitCommas at h
  split at h
  · simp at h
  · exact length_of_mem_splitCommasFrom h

end Naskah.Expression
