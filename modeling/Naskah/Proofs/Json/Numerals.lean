/-
  Number literals are read back: a literal whose fraction consists of digits is what its own
  characters spell (`Numeral.ofChars?_render`).
-/
import Naskah.Json.Token
import Naskah.Json.Printer
import Mathlib.Tactic.Common

namespace Naskah

/-! ## Digits -/

section
variable {ds rest : List Char} (hd : ∀ c ∈ ds, c.isDigit = true)
  (hr : ∀ c ∈ rest.head?, c.isDigit = false)
include hd hr

theorem takeWhile_digits : (ds ++ rest).takeWhile Char.isDigit = ds := by
  rw [List.takeWhile_append_of_pos hd]
  cases rest with
  | nil => simp
  | cons c rest => simp [hr c rfl]

theorem dropWhile_digits : (ds ++ rest).dropWhile Char.isDigit = rest := by
  rw [List.dropWhile_append_of_pos hd]
  cases rest with
  | nil => rfl
  | cons c rest => simp [hr c rfl]

end

theorem isDigit_toDigits (n : Nat) : ∀ c ∈ Nat.toDigits 10 n, c.isDigit = true :=
  fun _ hc => Nat.isDigit_of_mem_toDigits (by decide) (by decide) hc

theorem natOfDigits_toDigits (n : Nat) : Decimal.natOfDigits (Nat.toDigits 10 n) = n :=
  Nat.ofDigitChars_ten_toDigits

/-- Only zero begins with a zero. -/
theorem toDigits_of_head? {n : Nat} (h : (Nat.toDigits 10 n).head? = some '0') :
    Nat.toDigits 10 n = ['0'] := by
  induction n using Nat.strongRecOn with
  | ind n ih =>
    by_cases hn : n < 10
    · rw [Nat.toDigits_of_lt_base hn] at h ⊢
      rw [List.head?_cons, Option.some.injEq] at h
      rw [h]
    · have hn := Nat.not_lt.1 hn
      rw [Nat.toDigits_of_base_le (by decide) hn, List.head?_append,
        List.head?_eq_some_head Nat.toDigits_ne_nil, Option.some_or, ← List.head?_eq_some_head] at h
      have hz := natOfDigits_toDigits (n / 10)
      rw [ih (n / 10) (by omega) h] at hz
      have hz : 0 = n / 10 := hz
      omega

/-! ## Literals -/

namespace Numeral

/-- A literal whose fraction consists of digits. -/
def Regular (n : Numeral) : Prop :=
  ∀ c ∈ n.fraction, c.isDigit = true

/-- The characters of the fraction of a literal. -/
def fractionChars (ds : List Char) : List Char :=
  if ds = [] then [] else '.' :: ds

/-- The characters of the exponent of a literal. -/
def exponentChars : Option Int → List Char
  | none => []
  | some e => 'e' :: (if e < 0 then '-' else '+') :: Nat.toDigits 10 e.natAbs

theorem render_eq (n : Numeral) : n.render = (if n.negative then ['-'] else []) ++
    Nat.toDigits 10 n.whole ++ fractionChars n.fraction ++ exponentChars n.exponent := rfl

/-- Splits off a fraction. -/
def splitFraction : List Char → Option (List Char) × List Char
  | '.' :: rest => (some (rest.takeWhile Char.isDigit), rest.dropWhile Char.isDigit)
  | rest => (none, rest)

/-- The literal behind its sign. -/
def unsigned? (negative : Bool) (cs : List Char) : Option Numeral :=
  let whole := cs.takeWhile Char.isDigit
  let (fraction, rest) := splitFraction (cs.dropWhile Char.isDigit)
  if whole = [] ∨ (whole.head? = some '0' ∧ whole ≠ ['0']) ∨ fraction = some [] then none
  else
    let n : Numeral :=
      { negative, whole := Decimal.natOfDigits whole, fraction := fraction.getD [] }
    if rest = [] then some n
    else (Decimal.exponentOfChars? rest).map fun e => { n with exponent := some e }

theorem ofChars?_positive {c : Char} (hc : c ≠ '-') (cs : List Char) :
    Json.numeralOfChars? (c :: cs) = unsigned? false (c :: cs) := by
  unfold Json.numeralOfChars?
  split
  next he =>
  split at he
  · next hcs => cases hcs; exact absurd rfl hc
  · cases he
    rfl

theorem exponentChars_head? (e : Option Int) : ∀ c ∈ (exponentChars e).head?, c = 'e' := by
  cases e with
  | none => simp [exponentChars]
  | some e => simp [exponentChars]

theorem splitFraction_fractionChars {ds : List Char} (hd : ∀ c ∈ ds, c.isDigit = true)
    (e : Option Int) : splitFraction (fractionChars ds ++ exponentChars e) =
      (if ds = [] then none else some ds, exponentChars e) := by
  have he : ∀ c ∈ (exponentChars e).head?, c.isDigit = false := by
    intro c hc
    rw [exponentChars_head? e c hc]
    rfl
  unfold fractionChars
  by_cases h : ds = []
  · rw [if_pos h, if_pos h, List.nil_append]
    unfold splitFraction
    split
    · next rest hr => cases exponentChars_head? e '.' (by rw [hr]; rfl)
    · rfl
  · rw [if_neg h, if_neg h, List.cons_append]
    show (some _, _) = _
    rw [takeWhile_digits hd he, dropWhile_digits hd he]

theorem exponentOfChars?_exponentChars (e : Int) :
    Decimal.exponentOfChars? (exponentChars (some e)) = some e := by
  have hds : ('e' = 'e' ∨ 'e' = 'E') ∧ Nat.toDigits 10 e.natAbs ≠ [] ∧
      (Nat.toDigits 10 e.natAbs).all Char.isDigit = true :=
    ⟨.inl rfl, Nat.toDigits_ne_nil, List.all_eq_true.2 (isDigit_toDigits _)⟩
  have hn := natOfDigits_toDigits e.natAbs
  by_cases he : e < 0
  · rw [exponentChars, if_pos he]
    refine (if_pos hds).trans (congrArg some ?_)
    show -(Decimal.natOfDigits (Nat.toDigits 10 e.natAbs) : Int) = e
    omega
  · rw [exponentChars, if_neg he]
    refine (if_pos hds).trans (congrArg some ?_)
    show (Decimal.natOfDigits (Nat.toDigits 10 e.natAbs) : Int) = e
    omega

theorem unsigned?_chars {n : Numeral} (h : n.Regular) :
    unsigned? n.negative (Nat.toDigits 10 n.whole ++
      (fractionChars n.fraction ++ exponentChars n.exponent)) = some n := by
  obtain ⟨negative, whole, fraction, exponent⟩ := n
  have hw := isDigit_toDigits whole
  have hz : ¬ ((Nat.toDigits 10 whole).head? = some '0' ∧ Nat.toDigits 10 whole ≠ ['0']) :=
    fun ⟨h₁, h₂⟩ => h₂ (toDigits_of_head? h₁)
  have hr : ∀ c ∈ (fractionChars fraction ++ exponentChars exponent).head?, c.isDigit = false := by
    unfold fractionChars
    split
    · intro c hc
      rw [exponentChars_head? exponent c hc]
      rfl
    · rintro c ⟨⟩
      rfl
  have hf : (if fraction = [] then none else some fraction) ≠ some [] := by
    split <;> simp_all
  have hfd : (if fraction = [] then none else some fraction).getD [] = fraction := by
    split <;> simp_all
  unfold unsigned?
  simp only [takeWhile_digits hw hr, dropWhile_digits hw hr, splitFraction_fractionChars h]
  rw [if_neg (by simp only [not_or]; exact ⟨Nat.toDigits_ne_nil, hz, hf⟩), hfd,
    natOfDigits_toDigits]
  cases exponent with
  | none => rfl
  | some e =>
    rw [exponentOfChars?_exponentChars]
    rfl

/-- **A literal is read back.** -/
theorem ofChars?_render {n : Numeral} (h : n.Regular) : Json.numeralOfChars? n.render = some n := by
  have hu := unsigned?_chars h
  rw [render_eq, List.append_assoc, List.append_assoc]
  cases hn : n.negative with
  | true =>
    rw [hn] at hu
    exact hu
  | false =>
    rw [hn] at hu
    obtain ⟨c, cs, hc⟩ := List.exists_cons_of_ne_nil (Nat.toDigits_ne_nil (n := n.whole) (b := 10))
    have hne : c ≠ '-' := by
      rintro rfl
      have := isDigit_toDigits n.whole '-' (by rw [hc]; exact List.mem_cons_self)
      cases this
    rw [hc, List.cons_append] at hu
    rw [hc]
    exact (ofChars?_positive hne _).trans hu

end Numeral

end Naskah
