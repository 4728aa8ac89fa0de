/-
  Rounding to a double adds at most one part in `2 ^ 52`.  So a 64-bit significand that is scaled by
  a power of ten stays finite as long as the product, not rounded, keeps off the largest double by
  a few units of its last place (`Numeral.isSome_scaleUp?`).

  Doubles are bounded through the parts that they unpack to (`AtMost`); the bound is multiplied out
  in the rationals.
-/
import Naskah.Json.Basic
import Mathlib

namespace Naskah

open Float.Model Float.Model.UnpackedFloat

/-! ## Rounding -/

theorem mantissa_shiftRight (em : ExtendedMantissa) (k : Nat) :
    (em >>> k).mantissa = em.mantissa / 2 ^ k := by
  induction k with
  | zero => simp [HShiftRight.hShiftRight, Nat.repeat]
  | succ k ih =>
    show (em >>> k).mantissa / 2 = _
    rw [ih, Nat.div_div_eq_div_mul, Nat.pow_succ]

theorem le_roundedMantissa (em : ExtendedMantissa) :
    em.mantissa ≤ em.roundedMantissa ∧ em.roundedMantissa ≤ em.mantissa + 1 := by
  obtain ⟨m, round, sticky⟩ := em
  cases round <;> cases sticky <;>
    simp only [ExtendedMantissa.roundedMantissa, ExtendedMantissa.accuracy,
      Accuracy.roundToNearestEven] <;> omega

theorem targetExponent_eq {M : Nat} {E : Int} (h : -1074 ≤ E + (M.log2 - 52 : Int)) :
    Format.binary64.targetExponent (totalExponent M E) = E + (M.log2 - 52 : Int) := by
  simp only [Format.targetExponent, totalExponent, Format.mantissaBits, Format.minExponent]
  norm_num
  omega

/-- A number of `a` bits too many is shifted by `a` places. -/
theorem shift_eq {M a : Nat} {E : Int} (hM : M.log2 = 52 + a) (hE : -1074 ≤ E + a) :
    shiftToTargetExponent Format.binary64 M E .exact =
      ((⟨M, false, false⟩ : ExtendedMantissa) >>> a, E + a) := by
  have ht : (Format.binary64.targetExponent (totalExponent M E) - E).toNat = a := by
    rw [targetExponent_eq (by omega)]
    omega
  simp only [shiftToTargetExponent, shiftToExponent, ht, ExtendedMantissa.ofMantissaAndAccuracy]

theorem log2_eq {m k : Nat} (h₁ : 2 ^ k ≤ m) (h₂ : m < 2 ^ (k + 1)) : m.log2 = k := by
  have h0 : m ≠ 0 := by
    have := Nat.two_pow_pos k
    omega
  have hlt := (Nat.log2_lt h0).2 h₂
  have hle := (Nat.le_log2 h0).2 h₁
  omega

/-- One unit of the last place is at most one part in `2 ^ 52`. -/
theorem rounded_le {M r a : Nat} {E : Int} (hM : 2 ^ (52 + a) ≤ M) (hr : r ≤ M / 2 ^ a + 1) :
    (r : ℚ) * 2 ^ (E + a : ℤ) ≤ M * 2 ^ E * (1 + 2 ^ (-52 : ℤ)) := by
  have h₁ : (r : ℚ) ≤ ((M / 2 ^ a : ℕ) : ℚ) + 1 := by exact_mod_cast hr
  have h₂ : ((M / 2 ^ a : ℕ) : ℚ) * 2 ^ a ≤ M := by exact_mod_cast Nat.div_mul_le_self M (2 ^ a)
  have h₃ : (2 : ℚ) ^ a ≤ M * 2 ^ (-52 : ℤ) := by
    have : ((2 ^ (52 + a) : ℕ) : ℚ) ≤ M := by exact_mod_cast hM
    rw [zpow_neg, ← div_eq_mul_inv, le_div_iff₀ (by positivity)]
    refine le_trans (le_of_eq ?_) this
    push_cast
    rw [pow_add, mul_comm]
    norm_num
  rw [zpow_add₀ (by norm_num), zpow_natCast]
  calc (r : ℚ) * (2 ^ E * 2 ^ a)
      ≤ (((M / 2 ^ a : ℕ) : ℚ) + 1) * (2 ^ E * 2 ^ a) := by gcongr
    _ = (((M / 2 ^ a : ℕ) : ℚ) * 2 ^ a + 2 ^ a) * 2 ^ E := by ring
    _ ≤ (M + M * 2 ^ (-52 : ℤ)) * 2 ^ E := by gcongr
    _ = M * 2 ^ E * (1 + 2 ^ (-52 : ℤ)) := by ring

/-- **Rounding** a number of at least 53 bits to 53 bits adds at most one part in `2 ^ 52`. -/
theorem round_finite (sign : Sign) {M : Nat} {E : Int} (hM : 2 ^ 52 ≤ M)
    (hE : -1074 ≤ E + (M.log2 - 52 : Int)) : ∃ m e h,
      roundWithAccuracy Format.binary64 sign M E .exact = .finite sign m e h ∧ 2 ^ 52 ≤ m ∧
        m < 2 ^ 53 ∧ E ≤ e ∧ -1074 ≤ e ∧ (m : ℚ) * 2 ^ e ≤ M * 2 ^ E * (1 + 2 ^ (-52 : ℤ)) := by
  have h0 : M ≠ 0 := by omega
  obtain ⟨a, ha⟩ := Nat.exists_eq_add_of_le ((Nat.le_log2 h0).2 hM)
  have hlow : 2 ^ (52 + a) ≤ M := ha ▸ Nat.log2_self_le h0
  have hhigh : M < 2 ^ (53 + a) := by
    have := Nat.lt_log2_self (n := M)
    rw [ha] at this
    rwa [show 53 + a = 52 + a + 1 by omega]
  have hE' : -1074 ≤ E + a := by omega
  -- the first shift leaves 53 bits, which are rounded
  have hshift := shift_eq ha hE'
  generalize hem : (⟨M, false, false⟩ : ExtendedMantissa) >>> a = em at hshift
  have hf : em.mantissa = M / 2 ^ a := hem ▸ mantissa_shiftRight _ _
  have hf₁ : 2 ^ 52 ≤ M / 2 ^ a := by
    rw [Nat.le_div_iff_mul_le (Nat.two_pow_pos a), ← Nat.pow_add]
    exact hlow
  have hf₂ : M / 2 ^ a < 2 ^ 53 := by
    rw [Nat.div_lt_iff_lt_mul (Nat.two_pow_pos a), ← Nat.pow_add]
    exact hhigh
  obtain ⟨hr₁, hr₂⟩ := le_roundedMantissa em
  rw [hf] at hr₁ hr₂
  have hval := rounded_le (E := E) hlow hr₂
  -- the second shift drops a bit if a carry has made another one
  rcases Nat.lt_or_ge em.roundedMantissa (2 ^ 53) with hlt | hge
  · have hlog : em.roundedMantissa.log2 = 52 + 0 := log2_eq (by omega) hlt
    have hpos : 0 < em.roundedMantissa := by omega
    refine ⟨em.roundedMantissa, E + a, hpos, ?_, by omega, hlt, by omega, hE', hval⟩
    simp only [roundWithAccuracy, hshift, shift_eq hlog (E := E + a) (by omega)]
    rw [dif_neg (by rw [mantissa_shiftRight, pow_zero, Nat.div_one]; exact hpos.ne')]
    simp [mantissa_shiftRight]
  · obtain hr : em.roundedMantissa = 2 ^ 53 := by omega
    refine ⟨2 ^ 52, E + a + 1, by decide, ?_, by decide, by decide, by omega, by omega, ?_⟩
    · have hlog : (2 ^ 53).log2 = 52 + 1 := Nat.log2_two_pow
      simp only [roundWithAccuracy, hshift, hr, shift_eq hlog (E := E + a) (by omega)]
      rw [dif_neg (by rw [mantissa_shiftRight]; decide)]
      simp [mantissa_shiftRight]
    · rw [hr] at hval
      refine le_trans (le_of_eq ?_) hval
      rw [zpow_add_one₀ (by norm_num)]
      push_cast
      ring

/-- Bits and back, for numbers of 53 bits that are no infinity. -/
theorem unpack_pack (sign : Sign) {m : Nat} {e : Int} {h : 0 < m} (h₁ : 2 ^ 52 ≤ m)
    (h₂ : m < 2 ^ 53) (he : -1074 ≤ e) (he' : e ≤ 971) :
    ∃ sign', (pack (.finite sign m e h)).unpack = .finite sign' m e h := by
  obtain ⟨b, hb⟩ : ∃ b : Nat, e = b - 1075 := ⟨(e + 1075).toNat, by omega⟩
  have hbias : (e + (Format.binary64.exponentBias : Int) +
      (Format.binary64.mantissaBitsWithoutImplicit : Int)).toNat = b := by
    show (e + 1023 + 52).toNat = b
    omega
  have hlog : m.log2 = 52 := log2_eq h₁ h₂
  have hpack : UnpackedFloat.pack Format.binary64 (.finite sign m e h) =
      packComponents Format.binary64 sign (BitVec.ofNat 11 b) (BitVec.ofNat 52 m) := by
    simp only [UnpackedFloat.pack, hbias, hlog]
    rw [if_neg (by show ¬ 2 ^ 11 ≤ b + 1; omega), if_pos (by decide)]
  have hfield : (BitVec.ofNat 11 b).toNat = b := by
    rw [BitVec.toNat_ofNat, Nat.mod_eq_of_lt (by omega)]
  have ne : ∀ v : BitVec 11, v.toNat ≠ b → BitVec.ofNat 11 b ≠ v := by
    rintro _ hv rfl
    exact hv hfield
  show ∃ sign', UnpackedFloat.unpack Format.binary64 (UnpackedFloat.pack Format.binary64 _) = _
  rw [hpack]
  simp only [UnpackedFloat.unpack, unpackExponent_packComponents, unpackMantissa_packComponents]
  rw [if_neg (ne (-1#11) (by show 2047 ≠ b; omega)), if_neg (ne 0#11 (by show 0 ≠ b; omega))]
  have hmant : (1#1 ++ BitVec.ofNat 52 m).toNat = m := by
    rw [BitVec.toNat_append, BitVec.toNat_ofNat, BitVec.toNat_ofNat]
    have : m % 2 ^ 52 = m - 2 ^ 52 := by omega
    rw [this, ← Nat.shiftLeft_add_eq_or_of_lt (by omega)]
    norm_num
    omega
  have hexp : ((BitVec.ofNat 11 b).toNat : Int) - ((1023 : Int) + 52) = e := by
    rw [hfield]
    omega
  exact ⟨_, by congr 1⟩

/-! ## Bounds of doubles -/

/-- A double of 53 bits, no nearer to zero than a 64-bit integer can be, of a magnitude of at most
    `v`. -/
def AtMost (x : Float) (v : ℚ) : Prop :=
  ∃ sign m e h, x.toModel.unpack = .finite sign m e h ∧ 2 ^ 52 ≤ m ∧ m < 2 ^ 53 ∧ -53 ≤ e ∧
    (m : ℚ) * 2 ^ e ≤ v

theorem exponent_le {m : Nat} {e : Int} {v : ℚ} (hm : 2 ^ 52 ≤ m) (h : (m : ℚ) * 2 ^ e ≤ v)
    (hv : v < 2 ^ 1024) : e ≤ 971 := by
  have hm : (2 ^ (52 : ℤ) : ℚ) ≤ m := by exact_mod_cast hm
  have hlt : (2 : ℚ) ^ (52 + e) < 2 ^ (1024 : ℤ) := by
    calc (2 : ℚ) ^ (52 + e) = 2 ^ (52 : ℤ) * 2 ^ e := zpow_add₀ (by norm_num) _ _
      _ ≤ m * 2 ^ e := by gcongr
      _ < 2 ^ (1024 : ℤ) := by exact_mod_cast lt_of_le_of_lt h hv
  have := (zpow_lt_zpow_iff_right₀ (by norm_num)).1 hlt
  omega

/-- Rounding to a double that is no infinity. -/
theorem atMost_of_round {x : Float} {sign : Sign} {M : Nat} {E : Int} {v : ℚ}
    (hx : x.toModel = pack (roundWithAccuracy Format.binary64 sign M E .exact))
    (hM : 2 ^ 52 ≤ M) (hE : -53 ≤ E) (hv : (M : ℚ) * 2 ^ E = v)
    (hlt : v * (1 + 2 ^ (-52 : ℤ)) < 2 ^ 1024) : AtMost x (v * (1 + 2 ^ (-52 : ℤ))) := by
  have hlog : 52 ≤ M.log2 := (Nat.le_log2 (by omega)).2 hM
  obtain ⟨m, e, h, he, h₁, h₂, hle, -, hval⟩ := round_finite sign hM (E := E) (by omega)
  rw [hv] at hval
  obtain ⟨sign', hu⟩ := unpack_pack sign (h := h) h₁ h₂ (by omega) (exponent_le h₁ hval hlt)
  exact ⟨sign', m, e, h, by rw [hx, he, hu], h₁, h₂, by omega, hval⟩

/-- **A 64-bit integer as a double** is too large by one part in `2 ^ 52` at most. -/
theorem toFloat_atMost {s : Nat} (h0 : s ≠ 0) (hs : s < 2 ^ 64) :
    AtMost (UInt64.ofNat s).toFloat (s * (1 + 2 ^ (-52 : ℤ))) := by
  have hmodel : (UInt64.ofNat s).toFloat.toModel =
      pack (UnpackedFloat.round Format.binary64 .positive s 0) := by
    have hn : (UInt64.ofNat s).toNat = s := by
      rw [UInt64.toNat_ofNat', Nat.mod_eq_of_lt hs]
    have hcmp : compare ((s : Int)) 0 = .gt := by
      rw [compare_gt_iff_gt]
      omega
    show pack (UnpackedFloat.normalize _ ((UInt64.ofNat s).toNat : Int) 0 _) = _
    rw [hn, UnpackedFloat.normalize, hcmp]
    rfl
  have hlog : s.log2 < 64 := (Nat.log2_lt h0).2 hs
  have hround : UnpackedFloat.round Format.binary64 .positive s 0 =
      roundWithAccuracy Format.binary64 .positive (s * 2 ^ (52 - s.log2))
        (-((52 - s.log2 : Nat) : Int)) .exact := by
    have ht : (-Format.binary64.targetExponent (totalExponent s 0)).toNat = 52 - s.log2 := by
      rw [targetExponent_eq (by omega)]
      omega
    simp only [UnpackedFloat.round, decreaseExponent, Nat.shiftLeft_eq, zero_sub, ht]
  have hM : 2 ^ 52 ≤ s * 2 ^ (52 - s.log2) := by
    calc 2 ^ 52 ≤ 2 ^ (s.log2 + (52 - s.log2)) := Nat.pow_le_pow_right (by decide) (by omega)
      _ = 2 ^ s.log2 * 2 ^ (52 - s.log2) := Nat.pow_add ..
      _ ≤ s * 2 ^ (52 - s.log2) := Nat.mul_le_mul_right _ (Nat.log2_self_le h0)
  have hexact : ((s * 2 ^ (52 - s.log2) : Nat) : ℚ) * 2 ^ (-((52 - s.log2 : Nat) : Int)) = s := by
    rw [zpow_neg, zpow_natCast]
    push_cast
    field_simp
  have hlt : (s : ℚ) * (1 + 2 ^ (-52 : ℤ)) < 2 ^ 1024 := by
    have hs : (s : ℚ) < 2 ^ 64 := by exact_mod_cast hs
    calc (s : ℚ) * (1 + 2 ^ (-52 : ℤ)) ≤ 2 ^ 64 * (1 + 2 ^ (-52 : ℤ)) := by gcongr
      _ ≤ 2 ^ 65 := by norm_num
      _ < 2 ^ 1024 := pow_lt_pow_right₀ (by norm_num) (by norm_num)
  exact atMost_of_round (hmodel.trans (congrArg _ hround)) hM (by omega) hexact hlt

/-- **A product stays finite** if the bounds of its factors allow for the rounding. -/
theorem isInf_mul {x y : Float} {u v : ℚ} (hx : AtMost x u) (hy : AtMost y v)
    (h : u * v * (1 + 2 ^ (-52 : ℤ)) < 2 ^ 1024) : (x * y).isInf = false := by
  obtain ⟨s₁, m₁, e₁, p₁, hx, hx₁, -, hxe, hxv⟩ := hx
  obtain ⟨s₂, m₂, e₂, p₂, hy, hy₁, -, hye, hyv⟩ := hy
  have hM : 2 ^ 52 ≤ m₁ * m₂ := by
    calc 2 ^ 52 ≤ 2 ^ 52 * 2 ^ 52 := by decide
      _ ≤ m₁ * m₂ := Nat.mul_le_mul hx₁ hy₁
  have hlog : 52 ≤ (m₁ * m₂).log2 := (Nat.le_log2 (by omega)).2 hM
  obtain ⟨m, e, hm, he, h₁, h₂, -, he₁, hval⟩ := round_finite (s₁ * s₂) hM
    (E := e₁ + e₂) (by omega)
  have hprod : ((m₁ * m₂ : Nat) : ℚ) * 2 ^ (e₁ + e₂) ≤ u * v := by
    calc ((m₁ * m₂ : Nat) : ℚ) * 2 ^ (e₁ + e₂) = (m₁ * 2 ^ e₁) * (m₂ * 2 ^ e₂) := by
          rw [zpow_add₀ (by norm_num)]
          push_cast
          ring
      _ ≤ u * v := by
          have : (0 : ℚ) ≤ m₂ * 2 ^ e₂ := by positivity
          have : (0 : ℚ) ≤ m₁ * 2 ^ e₁ := by positivity
          gcongr
          exact this.trans hxv
  have hle := exponent_le h₁ (hval.trans (mul_le_mul_of_nonneg_right hprod (by positivity))) h
  obtain ⟨sign', hu⟩ := unpack_pack (s₁ * s₂) (h := hm) h₁ h₂ he₁ hle
  show (pack (UnpackedFloat.mul Format.binary64 x.toModel.unpack y.toModel.unpack)).unpack.isInf = _
  rw [hx, hy]
  show (pack (roundWithAccuracy _ _ _ _ _)).unpack.isInf = _
  rw [he, hu]
  rfl

/-! ## Scaling by a power of ten -/

/-- Numbers below this one stay finite when they are multiplied out of rounded factors.  From
    `2 ^ 1024 - 2 ^ 970` on numbers are rounded to infinity. -/
@[irreducible]
def safeBound : Nat := 2 ^ 1024 - 2 ^ 970 - 2 ^ 975

theorem lt_of_le_safeBound {v : ℚ} (h : v ≤ safeBound) :
    v * (1 + 2 ^ (-52 : ℤ)) ^ 3 < 2 ^ 1024 := by
  have hn : safeBound * (2 ^ 52 + 1) ^ 3 < 2 ^ 1024 * (2 ^ 52) ^ 3 := by decide +kernel
  have hq : (safeBound : ℚ) * (2 ^ 52 + 1) ^ 3 < 2 ^ 1024 * (2 ^ 52) ^ 3 := by exact_mod_cast hn
  have he : (1 + 2 ^ (-52 : ℤ) : ℚ) = (2 ^ 52 + 1) / 2 ^ 52 := by norm_num
  rw [he, div_pow, ← mul_div_assoc, div_lt_iff₀ (by positivity)]
  refine lt_of_le_of_lt ?_ hq
  gcongr

/-- A power, and what is missing from it to a power of a natural number. -/
theorem zpow_mul_pow_toNat {b : ℚ} (hb : b ≠ 0) (i : Int) :
    b ^ i * b ^ (-i).toNat = b ^ i.toNat := by
  rw [← zpow_natCast, ← zpow_natCast, ← zpow_add₀ hb]
  congr 1
  omega

/-- The bounds of a small power of ten, which has an entry in a table. -/
def powerInBounds (n : Nat) : Bool :=
  match (Float.ofScientific 1 false n).toModel.unpack with
  | .finite _ m e _ => 2 ^ 52 ≤ m && m < 2 ^ 53 && -53 ≤ e &&
      m * 2 ^ e.toNat ≤ 10 ^ n * 2 ^ (-e).toNat
  | _ => false

theorem atMost_of_powerInBounds {n : Nat} (h : powerInBounds n = true) :
    AtMost (Float.ofScientific 1 false n) (10 ^ n) := by
  unfold powerInBounds at h
  split at h
  · next sign m e hm hu =>
    simp only [Bool.and_eq_true, decide_eq_true_eq] at h
    obtain ⟨⟨⟨h₁, h₂⟩, he⟩, hv⟩ := h
    refine ⟨sign, m, e, hm, hu, h₁, h₂, he, ?_⟩
    have hv : (m : ℚ) * 2 ^ e.toNat ≤ 10 ^ n * 2 ^ (-e).toNat := by exact_mod_cast hv
    have hpos : (0 : ℚ) < 2 ^ (-e).toNat := by positivity
    rw [← mul_le_mul_iff_left₀ hpos, mul_assoc, zpow_mul_pow_toNat (by norm_num)]
    exact hv
  · cases h

theorem powersInBounds : (List.range 23).all powerInBounds = true := by decide +kernel

/-- **A power of ten as a double** is too large by one part in `2 ^ 52` at most. -/
theorem power_atMost {n : Nat} (hn' : n ≤ 308) :
    AtMost (Float.ofScientific 1 false n) (10 ^ n * (1 + 2 ^ (-52 : ℤ))) := by
  rcases Nat.lt_or_ge n 23 with hlt | hge
  · obtain ⟨sign, m, e, h, hu, h₁, h₂, he, hv⟩ := atMost_of_powerInBounds
      (List.all_eq_true.1 powersInBounds n (List.mem_range.2 hlt))
    refine ⟨sign, m, e, h, hu, h₁, h₂, he, hv.trans ?_⟩
    have : (0 : ℚ) ≤ 10 ^ n := by positivity
    exact le_mul_of_one_le_right this (by norm_num)
  · have hM : 2 ^ 52 ≤ 2 ^ 53 * 10 ^ n :=
      (show 2 ^ 52 ≤ 2 ^ 53 * 1 by decide).trans
        (Nat.mul_le_mul_left _ (Nat.one_le_pow _ _ (by decide)))
    have hmodel : (Float.ofScientific 1 false n).toModel =
        pack (roundWithAccuracy Format.binary64 .positive (2 ^ 53 * 10 ^ n) (-53) .exact) := by
      have hbits : (2 : Int) ^ Format.binary64.exponentBits = 2048 := rfl
      rw [Float.ofScientific, dif_neg (by omega)]
      show pack (UnpackedFloat.ofScientific Format.binary64 1 (n : Int)) = _
      rw [UnpackedFloat.ofScientific, dif_neg (by decide), hbits, if_neg (by omega),
        if_neg (by omega), if_pos (by omega)]
      rfl
    have hexact : ((2 ^ 53 * 10 ^ n : Nat) : ℚ) * 2 ^ (-53 : ℤ) = 10 ^ n := by
      push_cast
      rw [mul_right_comm]
      norm_num
    have hlt : (10 : ℚ) ^ n * (1 + 2 ^ (-52 : ℤ)) < 2 ^ 1024 := by
      have hn : 10 ^ 308 ≤ safeBound := by decide +kernel
      have hsafe : 10 ^ n ≤ safeBound := (pow_le_pow_right₀ (by decide) hn').trans hn
      have hsafe : (10 : ℚ) ^ n ≤ safeBound := by exact_mod_cast hsafe
      refine lt_of_le_of_lt ?_ (lt_of_le_safeBound hsafe)
      gcongr
      exact le_self_pow₀ (by norm_num) (by norm_num)
    exact atMost_of_round hmodel hM (le_refl _) hexact hlt

theorem isInf_zero_mul {y : Float} {v : ℚ} (hy : AtMost y v) :
    ((UInt64.ofNat 0).toFloat * y).isInf = false := by
  obtain ⟨sign, m, e, h, hy, -⟩ := hy
  have hz : (UInt64.ofNat 0).toFloat.toModel.unpack = .zero .positive := rfl
  show (pack (UnpackedFloat.mul Format.binary64 (UInt64.ofNat 0).toFloat.toModel.unpack
    y.toModel.unpack)).unpack.isInf = false
  rw [hz, hy]
  show (pack (.zero (.positive * sign))).unpack.isInf = false
  cases sign <;> decide +kernel

/-- **A literal below the bound is in range.** -/
theorem Numeral.isSome_scaleUp? {s e : Nat} (hs : s < 2 ^ 64) (h : (s : ℚ) * 10 ^ e ≤ safeBound) :
    (scaleUp? (UInt64.ofNat s).toFloat e).isSome = true := by
  have finite : ∀ (he : e ≤ 308), ((UInt64.ofNat s).toFloat * Float.ofScientific 1 false e).isInf =
      false → (scaleUp? (UInt64.ofNat s).toFloat e).isSome = true := by
    intro he hinf
    rw [scaleUp?, if_pos he]
    simp [hinf]
  rcases Nat.eq_zero_or_pos s with rfl | hpos
  · rcases Nat.lt_or_ge 308 e with hlt | hle
    · have hz : ((UInt64.ofNat 0).toFloat == 0.0) = true := by decide +kernel
      rw [scaleUp?, if_neg (by omega), if_pos hz]
      rfl
    · exact finite hle (isInf_zero_mul (power_atMost hle))
  · have he : e ≤ 308 := by
      by_contra hlt
      have hn : safeBound < 10 ^ 309 := by decide +kernel
      have hs1 : (1 : ℚ) ≤ s := by exact_mod_cast hpos
      have hle : 10 ^ 309 ≤ 10 ^ e := pow_le_pow_right₀ (by decide) (by omega)
      have hlt : (safeBound : ℚ) < 10 ^ e := by exact_mod_cast lt_of_lt_of_le hn hle
      have : (1 : ℚ) * 10 ^ e ≤ s * 10 ^ e := by gcongr
      linarith
    refine finite he (isInf_mul (toFloat_atMost (by omega) hs) (power_atMost he) ?_)
    calc (s : ℚ) * (1 + 2 ^ (-52 : ℤ)) * (10 ^ e * (1 + 2 ^ (-52 : ℤ))) * (1 + 2 ^ (-52 : ℤ))
        = s * 10 ^ e * (1 + 2 ^ (-52 : ℤ)) ^ 3 := by ring
      _ < 2 ^ 1024 := lt_of_le_safeBound h

end Naskah
