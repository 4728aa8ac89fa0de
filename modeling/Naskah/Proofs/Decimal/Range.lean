/-
  The literal of a finite double is in range (`Numeral.isSome_toFloat?_ofFloat`).

  The digits of a literal are those of the shortest decimal, which lies within half a unit of the
  last place of its double (`Decimal.value_shortest_le`).  Reading cuts the digits off behind 64
  bits, which makes the number no larger (`Numeral.fill_le`).  So the number that is scaled up is
  within the bound of `Numeral.isSome_scaleUp?` but for the sixteen largest doubles of either sign,
  whose literals are read one by one.
-/
import Naskah.Proofs.Decimal.Rounding
import Naskah.Proofs.Json.Numerals

namespace Naskah

open Float.Model Float.Model.UnpackedFloat

/-! ## The parts of a finite double -/

/-- The exponent field of a finite double has a zero bit. -/
theorem exponentField_ne {x : Float} (hx : x.isFinite = true) :
    x.toBits.toNat / 2 ^ 52 % 2 ^ 11 ≠ 2047 := by
  intro h
  have he : @unpackExponent Format.binary64 x.toModel.toBits.toBitVec = -1#11 := by
    apply BitVec.eq_of_toNat_eq
    have : (-1#11).toNat = 2047 := rfl
    rw [this, unpackExponent, BitVec.toNat_cast, BitVec.extractLsb_toNat, Nat.shiftRight_eq_div_pow]
    exact h
  have hx : (UnpackedFloat.unpack Format.binary64 x.toModel.toBits.toBitVec).isFinite = true := hx
  simp only [UnpackedFloat.unpack, he] at hx
  rw [if_pos trivial] at hx
  split at hx <;> cases hx

theorem Binary64.bounds_ofFloat {x : Float} (hx : x.isFinite = true) :
    (Binary64.ofFloat x).m < 2 ^ 53 ∧ (Binary64.ofFloat x).q ≤ 971 := by
  have he : x.toBits.toNat / Nat.pow 2 52 % Nat.pow 2 11 ≠ 2047 := exponentField_ne hx
  have hlt : x.toBits.toNat / Nat.pow 2 52 % Nat.pow 2 11 < 2 ^ 11 := Nat.mod_lt _ (by decide)
  have hf : x.toBits.toNat % Nat.pow 2 52 < 2 ^ 52 := Nat.mod_lt _ (by decide)
  have hp : Nat.pow 2 52 = 2 ^ 52 := rfl
  rw [ofFloat]
  split
  · exact ⟨by dsimp only; omega, by dsimp only; omega⟩
  · exact ⟨by dsimp only; omega, by dsimp only; omega⟩

/-! ## Shortest decimals -/

namespace Decimal

/-- The number itself. -/
def value (d : Decimal) : ℚ :=
  d.digits * 10 ^ d.exponent

theorem value_trim (n : Nat) (d : Decimal) : (trim n d).value = d.value := by
  induction n generalizing d with
  | zero => rfl
  | succ n ih =>
    rw [trim]
    split
    · next h =>
      have hd : (d.digits : ℚ) = 10 * (d.digits / 10 : Nat) := by
        exact_mod_cast show d.digits = 10 * (d.digits / 10) by omega
      rw [ih, value, value, hd, zpow_add_one₀ (by norm_num)]
      ring
    · rfl

theorem Interval.holds_of_nearest {tie : Tie} {I : Interval} {n : Nat}
    (h : I.nearest tie = some n) : I.holds n = true := by
  unfold nearest at h
  grind

theorem Interval.le_of_holds {I : Interval} {n : Nat} (h : I.holds n = true) :
    n * I.den ≤ I.high := by
  unfold holds at h
  split at h
  · simp only [Bool.and_eq_true, decide_eq_true_eq] at h
    exact h.2
  · simp only [Bool.and_eq_true, decide_eq_true_eq] at h
    exact h.2.le

theorem Interval.value_le {m n : Nat} {q i : Int}
    (h : ((Interval.ofBinary m q).inUnits i).holds n = true) :
    (⟨n, i⟩ : Decimal).value ≤ (4 * m + 2) * 2 ^ (q - 2) := by
  have hle : n * (2 ^ (2 - q).toNat * 10 ^ i.toNat) ≤
      (4 * m + 2) * 2 ^ (q - 2).toNat * 10 ^ (-i).toNat := le_of_holds h
  have hle : (n : ℚ) * (2 ^ (2 - q).toNat * 10 ^ i.toNat) ≤
      (4 * m + 2) * 2 ^ (q - 2).toNat * 10 ^ (-i).toNat := by exact_mod_cast hle
  have h₂ := zpow_mul_pow_toNat (b := 2) (by norm_num) (q - 2)
  have h₁ := zpow_mul_pow_toNat (b := 10) (by norm_num) i
  rw [neg_sub] at h₂
  rw [← h₁, ← h₂] at hle
  have hpos : (0 : ℚ) < 2 ^ (2 - q).toNat * 10 ^ (-i).toNat := by positivity
  refine le_of_mul_le_mul_right ?_ hpos
  calc (n : ℚ) * 10 ^ i * (2 ^ (2 - q).toNat * 10 ^ (-i).toNat)
      = n * (2 ^ (2 - q).toNat * (10 ^ i * 10 ^ (-i).toNat)) := by ring
    _ ≤ (4 * m + 2) * (2 ^ (q - 2) * 2 ^ (2 - q).toNat) * 10 ^ (-i).toNat := hle
    _ = (4 * m + 2) * 2 ^ (q - 2) * (2 ^ (2 - q).toNat * 10 ^ (-i).toNat) := by ring

/-- **The shortest decimal** exceeds its double by half a unit of the last place at most.  (No
    double needs more than 17 digits; a number that would is given as its significand.) -/
theorem value_shortest_le (tie : Tie) (m : Nat) (q : Int) :
    (shortest tie m q).value ≤ max ((4 * m + 2) * 2 ^ (q - 2) : ℚ) m := by
  rw [shortest, value_trim]
  generalize hr : List.findSome? _ _ = r
  cases r with
  | none => simp [value]
  | some d =>
    obtain ⟨n, -, hn⟩ := List.exists_of_findSome?_eq_some hr
    obtain ⟨digits, hd, rfl⟩ := Option.map_eq_some_iff.1 hn
    exact le_max_of_le_left (Interval.value_le (Interval.holds_of_nearest hd))

theorem lt_pow_digitCount (n : Nat) : n < 10 ^ digitCount n := by
  unfold digitCount
  split
  · omega
  · exact (Nat.length_toDigits_le_iff (by decide) Nat.length_toDigits_pos).1 le_rfl

theorem leading_eq {d : Decimal} {c : Char} {ds : List Char} (h0 : d.digits ≠ 0)
    (h : Nat.toDigits 10 d.digits = c :: ds) : d.leading = ds.length + d.exponent := by
  rw [leading, digitCount, if_neg h0, h, List.length_cons]
  omega

end Decimal

/-! ## The digits that are taken -/

namespace Numeral

theorem fill_of_lt {s taken : Nat} {ds : List Char} (h : Nat.ofDigitChars 10 ds s < 2 ^ 64) :
    fill s taken ds = (Nat.ofDigitChars 10 ds s, taken + ds.length) := by
  induction ds generalizing s taken with
  | nil => rfl
  | cons c ds ih =>
    rw [Nat.ofDigitChars_cons] at h ⊢
    have hs : 10 * s + (c.toNat - '0'.toNat) < Nat.pow 2 64 := by
      refine lt_of_le_of_lt ?_ h
      rw [Nat.ofDigitChars_eq_ofDigitChars_zero]
      exact le_add_right (Nat.le_mul_of_pos_left _ (by positivity))
    rw [fill, if_pos hs, ih h, List.length_cons]
    congr 1
    omega

/-- **Cutting digits off** makes a number no larger. -/
theorem fill_le {s : Nat} (taken : Nat) (ds : List Char) (hs : s < 2 ^ 64) :
    ∃ s' n, fill s taken ds = (s', taken + n) ∧ n ≤ ds.length ∧ s' < 2 ^ 64 ∧
      10 ^ (ds.length - n) * s' ≤ Nat.ofDigitChars 10 ds s := by
  induction ds generalizing s taken with
  | nil => exact ⟨s, 0, rfl, le_rfl, hs, by simp⟩
  | cons c ds ih =>
    by_cases hlt : 10 * s + (c.toNat - '0'.toNat) < Nat.pow 2 64
    · obtain ⟨s', n, hf, hn, hs', hle⟩ := ih (taken + 1) hlt
      refine ⟨s', n + 1, ?_, by simpa using hn, hs', ?_⟩
      · rw [fill, if_pos hlt, hf]
        congr 1
        omega
      · rw [Nat.ofDigitChars_cons, List.length_cons, Nat.add_sub_add_right]
        exact hle
    · refine ⟨s, 0, by rw [fill, if_neg hlt]; rfl, Nat.zero_le _, hs, ?_⟩
      rw [Nat.ofDigitChars_eq_ofDigitChars_zero]
      exact Nat.le_add_right ..

/-! ## Literals -/

/-- A literal whose digits before the point fit in 64 bits is in range if the digits that are taken
    are not scaled up too far. -/
theorem isSome_toFloat? {n : Numeral} {s places : Nat} (hw : n.whole < 2 ^ 64)
    (hf : fill n.whole 0 n.fraction = (s, places)) (hs : s < 2 ^ 64)
    (h : ∀ e : Nat, (e : Int) = n.exponent.getD 0 - places → (s : ℚ) * 10 ^ e ≤ safeBound) :
    n.toFloat?.isSome = true := by
  have hd : Nat.ofDigitChars 10 (Nat.toDigits 10 n.whole) 0 = n.whole :=
    Nat.ofDigitChars_ten_toDigits
  have hfill : fill 0 0 (Nat.toDigits 10 n.whole) =
      (n.whole, (Nat.toDigits 10 n.whole).length) := by
    rw [fill_of_lt (by rwa [hd]), hd, Nat.zero_add]
  simp only [toFloat?, hfill, hf, Option.isSome_map, Nat.sub_self]
  split
  · next he => exact isSome_scaleUp? hs (h _ (by omega))
  · rfl

theorem isSome_toFloat?_of_whole {n : Numeral} (hw : n.whole < 2 ^ 64) (he : n.exponent = none) :
    n.toFloat?.isSome = true := by
  obtain ⟨s, k, hf, -, hs, -⟩ := fill_le 0 n.fraction hw
  refine isSome_toFloat? hw hf hs fun e h => ?_
  rw [he, Option.getD_none] at h
  obtain rfl : e = 0 := by omega
  have hsafe : 2 ^ 64 ≤ safeBound := by decide +kernel
  rw [pow_zero, mul_one]
  exact_mod_cast hs.le.trans hsafe

/-- A decimal with an exponent is in range if its value keeps off the largest doubles. -/
theorem isSome_toFloat?_of_value {d : Decimal} {negative : Bool} {c : Char} {ds : List Char}
    (h : Nat.toDigits 10 d.digits = c :: ds) (hv : d.value ≤ safeBound) :
    (⟨negative, c.toNat - '0'.toNat, ds, some d.leading⟩ : Numeral).toFloat?.isSome = true := by
  have hc : c.toNat - '0'.toNat < 10 := by
    have := isDigit_toDigits d.digits c (h ▸ List.mem_cons_self)
    simp only [Char.isDigit, Bool.and_eq_true, decide_eq_true_eq] at this
    have : c.toNat ≤ 57 := this.2
    show c.toNat - 48 < 10
    omega
  have hds : Nat.ofDigitChars 10 ds (c.toNat - '0'.toNat) = d.digits := by
    calc Nat.ofDigitChars 10 ds (c.toNat - '0'.toNat) = Nat.ofDigitChars 10 (c :: ds) 0 := by
          rw [Nat.ofDigitChars_cons, Nat.mul_zero, Nat.zero_add]
      _ = d.digits := by rw [← h, Nat.ofDigitChars_ten_toDigits]
  have hw : c.toNat - '0'.toNat < 2 ^ 64 := by omega
  obtain ⟨s, k, hf, hk, hs, hle⟩ := fill_le 0 ds hw
  rw [Nat.zero_add] at hf
  refine isSome_toFloat? hw hf hs fun e he => ?_
  rw [hds] at hle
  rcases Nat.eq_zero_or_pos d.digits with h0 | hpos
  · obtain rfl : s = 0 := by
      rw [h0, Nat.le_zero, Nat.mul_eq_zero] at hle
      exact hle.resolve_left (by positivity)
    simp
  · rw [Option.getD_some, Decimal.leading_eq hpos.ne' h] at he
    have hle : (10 : ℚ) ^ (ds.length - k) * s ≤ d.digits := by exact_mod_cast hle
    have hsplit : (10 : ℚ) ^ e = 10 ^ (ds.length - k) * 10 ^ d.exponent := by
      rw [← zpow_natCast, ← zpow_natCast, ← zpow_add₀ (by norm_num)]
      congr 1
      omega
    calc (s : ℚ) * 10 ^ e = 10 ^ (ds.length - k) * s * 10 ^ d.exponent := by rw [hsplit]; ring
      _ ≤ d.digits * 10 ^ d.exponent := by gcongr
      _ ≤ safeBound := hv

/-- The literal of a double whose shortest decimal keeps off the largest doubles. -/
theorem isSome_toFloat?_of_shortest {x : Float}
    (hv : (Decimal.shortest .toEven (Binary64.ofFloat x).m (Binary64.ofFloat x).q).value ≤
      safeBound) : (Numeral.ofFloat x).toFloat?.isSome = true := by
  unfold ofFloat
  generalize Binary64.ofFloat x = b at hv
  obtain ⟨d, hd⟩ : ∃ d, d = if b.m = 0 then ⟨0, 0⟩ else Decimal.shortest .toEven b.m b.q := ⟨_, rfl⟩
  simp only [← hd]
  split
  · next h =>
    have hlead : d.leading < 16 := by
      rcases h with h | h
      · rw [hd, if_pos h]
        decide
      · exact h.2
    refine isSome_toFloat?_of_whole ?_ rfl
    refine lt_trans (Nat.div_lt_of_lt_mul ?_) (show 10 ^ 16 < 2 ^ 64 by decide)
    have := Decimal.lt_pow_digitCount d.digits
    have hexp : Decimal.digitCount d.digits + d.exponent.toNat ≤ (-d.exponent).toNat + 16 := by
      rw [Decimal.leading] at hlead
      omega
    calc d.digits * 10 ^ d.exponent.toNat
        < 10 ^ Decimal.digitCount d.digits * 10 ^ d.exponent.toNat := by gcongr
      _ = 10 ^ (Decimal.digitCount d.digits + d.exponent.toNat) := (pow_add ..).symm
      _ ≤ 10 ^ ((-d.exponent).toNat + 16) := pow_le_pow_right₀ (by decide) hexp
      _ = 10 ^ (-d.exponent).toNat * 10 ^ 16 := pow_add ..
  · next h =>
    rw [if_neg (not_or.1 h).1] at hd
    split
    · next c ds hds => exact isSome_toFloat?_of_value hds (hd ▸ hv)
    · next hds => exact absurd hds Nat.toDigits_ne_nil

theorem value_shortest_le_safeBound {m : Nat} {q : Int} (hm : m < 2 ^ 53) (hq : q ≤ 971)
    (h : q ≤ 970 ∨ m < 2 ^ 53 - 16) : (Decimal.shortest .toEven m q).value ≤ safeBound := by
  refine (Decimal.value_shortest_le .toEven m q).trans (max_le ?_ ?_)
  · have bound : ∀ {a k : Nat}, 4 * m + 2 ≤ a → q - 2 ≤ k → a * 2 ^ k ≤ safeBound →
        ((4 * m + 2) * 2 ^ (q - 2) : ℚ) ≤ safeBound := by
      intro a k ha hk hs
      have ha : (4 * m + 2 : ℚ) ≤ a := by exact_mod_cast ha
      calc ((4 * m + 2) * 2 ^ (q - 2) : ℚ) ≤ a * 2 ^ (k : ℤ) := by
            gcongr
            norm_num
        _ ≤ safeBound := by exact_mod_cast hs
    rcases h with h | h
    · exact bound (a := 2 ^ 55) (k := 968) (by omega) (by omega) (by decide +kernel)
    · exact bound (a := 2 ^ 55 - 66) (k := 969) (by omega) (by omega) (by decide +kernel)
  · have hsafe : 2 ^ 53 ≤ safeBound := by decide +kernel
    exact_mod_cast hm.le.trans hsafe

/-- One of the largest doubles, counted down. -/
def largest (negative : Bool) (i : Nat) : Binary64 :=
  ⟨negative, 2 ^ 53 - 1 - i, 971⟩

/-- Whether the parts are those of a double, and the literal of that double is in range. -/
def largestInRange (negative : Bool) (i : Nat) : Bool :=
  let b := largest negative i
  Binary64.ofFloat b.toFloat = b && (Numeral.ofFloat b.toFloat).toFloat?.isSome

theorem all_largestInRange :
    ∀ negative, (List.range 16).all (largestInRange negative) = true := by
  decide +kernel

/-- **The literal of a finite double is in range.** -/
theorem isSome_toFloat?_ofFloat {x : Float} (hx : x.isFinite = true) :
    (Numeral.ofFloat x).toFloat?.isSome = true := by
  obtain ⟨hm, hq⟩ := Binary64.bounds_ofFloat hx
  by_cases h : (Binary64.ofFloat x).q ≤ 970 ∨ (Binary64.ofFloat x).m < 2 ^ 53 - 16
  · exact isSome_toFloat?_of_shortest (value_shortest_le_safeBound hm hq h)
  · obtain ⟨hq', hm'⟩ := not_or.1 h
    obtain ⟨i, hi, hb⟩ : ∃ i < 16,
        Binary64.ofFloat x = largest (Binary64.ofFloat x).negative i := by
      refine ⟨2 ^ 53 - 1 - (Binary64.ofFloat x).m, by omega, ?_⟩
      rcases hx : Binary64.ofFloat x with ⟨negative, m, q⟩
      rw [hx] at hm hq hq' hm'
      dsimp only at hm hq hq' hm'
      rw [largest, Binary64.mk.injEq]
      exact ⟨rfl, by dsimp only; omega, by omega⟩
    generalize (Binary64.ofFloat x).negative = negative at hb
    have hin := List.all_eq_true.1 (all_largestInRange negative) i (List.mem_range.2 hi)
    simp only [largestInRange, Bool.and_eq_true, decide_eq_true_eq] at hin
    have hsame : Numeral.ofFloat x = Numeral.ofFloat (largest negative i).toFloat := by
      unfold ofFloat
      rw [hb, hin.1]
    rw [hsame]
    exact hin.2

end Numeral

end Naskah
