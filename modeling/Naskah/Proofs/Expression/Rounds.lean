/-
  Brackets and commas in runs of tokens.  In a run whose brackets match (`Balanced`), the closing
  bracket behind it is found, and so are the commas outside of its brackets.
-/
import Naskah.Expression.Rounds
import Mathlib.Tactic.Common

namespace Naskah.Expression

/-- Puts tokens in front of the first part. -/
def prepend (ts : List Token) : List (List Token) → List (List Token)
  | [] => [ts]
  | part :: parts => (ts ++ part) :: parts

theorem prepend_append (a b : List Token) (parts : List (List Token)) :
    prepend (a ++ b) parts = prepend a (prepend b parts) := by
  cases parts <;> simp [prepend]

/-- Tokens whose brackets match.  Their commas stand inside of `n` more brackets. -/
structure Balanced (n : Nat) (ts : List Token) : Prop where
  close : ∀ depth rest,
    splitClose depth (ts ++ rest) = (splitClose depth rest).map fun p => (ts ++ p.1, p.2)
  commas : ∀ depth rest, n ≤ depth →
    splitCommasFrom depth (ts ++ rest) = prepend ts (splitCommasFrom depth rest)

theorem splitCommasFrom_ne_nil (depth : Nat) (ts : List Token) : splitCommasFrom depth ts ≠ [] := by
  cases ts with
  | nil => simp [splitCommasFrom]
  | cons t ts =>
    rw [splitCommasFrom]
    split
    · simp
    · split <;> simp

theorem splitCommasFrom_cons {depth : Nat} {t : Token}
    (h : ¬ (t = .punctuation .comma ∧ depth = 0)) (ts : List Token) :
    splitCommasFrom depth (t :: ts) = prepend [t] (splitCommasFrom (depthAfter depth t) ts) := by
  rw [splitCommasFrom, if_neg h]
  cases hs : splitCommasFrom (depthAfter depth t) ts <;> rfl

theorem splitClose_cons {depth : Nat} {t : Token} (h : ¬ (t = .bracket .closeRound ∧ depth = 0))
    (ts : List Token) :
    splitClose depth (t :: ts) =
      (splitClose (depthAfter depth t) ts).map fun p => (t :: p.1, p.2) := by
  rw [splitClose, if_neg h]

theorem eq_of_splitClose {depth : Nat} {ts inner after : List Token}
    (h : splitClose depth ts = some (inner, after)) :
    ts = inner ++ .bracket .closeRound :: after := by
  induction ts generalizing depth inner with
  | nil => cases h
  | cons t ts ih =>
    rw [splitClose] at h
    split at h
    · next hc =>
      cases h
      rw [hc.1]
      rfl
    · obtain ⟨⟨i, a⟩, hp, he⟩ := Option.map_eq_some_iff.1 h
      cases he
      rw [ih hp]
      rfl

namespace Balanced

variable {n : Nat} {a b : List Token}

theorem nil : Balanced n [] where
  close depth rest := by simp
  commas depth rest _ := by
    cases hs : splitCommasFrom depth rest with
    | nil => exact absurd hs (splitCommasFrom_ne_nil _ _)
    | cons part parts => simp [hs, prepend]

theorem append (ha : Balanced n a) (hb : Balanced n b) : Balanced n (a ++ b) where
  close depth rest := by
    rw [List.append_assoc, ha.close, hb.close, Option.map_map]
    simp [Function.comp_def]
  commas depth rest hn := by
    rw [List.append_assoc, ha.commas _ _ hn, hb.commas _ _ hn, prepend_append]

theorem mono {m : Nat} (hm : n ≤ m) (h : Balanced n a) : Balanced m a :=
  ⟨h.close, fun depth rest hn => h.commas depth rest (Nat.le_trans hm hn)⟩

/-- A token that is no bracket; a comma counts only inside of brackets. -/
theorem token {t : Token} (hd : ∀ depth, depthAfter depth t = depth)
    (hc : t ≠ .bracket .closeRound) (hn : t = .punctuation .comma → 0 < n) : Balanced n [t] where
  close depth rest := by
    rw [List.singleton_append, splitClose_cons (by simp [hc]), hd]
    rfl
  commas depth rest hle := by
    rw [List.singleton_append, splitCommasFrom_cons, hd]
    rintro ⟨ht, rfl⟩
    exact absurd (hn ht) (by omega)

theorem bracketed (h : Balanced 1 a) :
    Balanced n (.bracket .openRound :: a ++ [.bracket .closeRound]) where
  close depth rest := by
    rw [List.cons_append, List.cons_append, splitClose_cons (by simp), List.append_assoc,
      h.close, List.singleton_append, splitClose_cons (by simp [depthAfter])]
    simp [Function.comp_def, depthAfter]
  commas depth rest _ := by
    rw [List.cons_append, List.cons_append, splitCommasFrom_cons (by simp), List.append_assoc,
      h.commas _ _ (by simp [depthAfter]), List.singleton_append, splitCommasFrom_cons (by simp),
      ← prepend_append, ← prepend_append]
    rfl

theorem splitClose (h : Balanced n a) (rest : List Token) :
    splitClose 0 (a ++ .bracket .closeRound :: rest) = some (a, rest) := by
  rw [h.close]
  simp [Expression.splitClose]

/-- Tokens without commas are one part. -/
theorem splitCommasFrom_eq (h : Balanced 0 a) : splitCommasFrom 0 a = [a] := by
  have := h.commas 0 [] (Nat.le_refl 0)
  simpa [splitCommasFrom, prepend] using this

theorem splitCommasFrom_comma (h : Balanced 0 a) (rest : List Token) :
    splitCommasFrom 0 (a ++ .punctuation .comma :: rest) = a :: splitCommasFrom 0 rest := by
  rw [h.commas 0 _ (Nat.le_refl 0), splitCommasFrom, if_pos ⟨rfl, rfl⟩]
  simp [prepend]

end Balanced

end Naskah.Expression
