/-
  Arithmetic on 64-bit integers is exact: an operation pushes the result of integer arithmetic, or
  fails because it does not fit, divides by zero or shifts too far (`Machine.computes_integers`).
  Powers are exact as long as the exponent has 32 bits (`Machine.computes_pow`).
-/
import Naskah.Proofs.Machine.Execution
import Mathlib.Algebra.Order.Ring.Abs
import Mathlib.Data.Int.Bitwise
import Mathlib.Tactic.Linarith

namespace Naskah

/-- The integers of 64 bits with sign. -/
def Fits64 (n : Int) : Prop :=
  -2 ^ 63 ≤ n ∧ n < 2 ^ 63

instance (n : Int) : Decidable (Fits64 n) :=
  inferInstanceAs (Decidable (_ ∧ _))

/-- An integer, if it has 64 bits. -/
def exactly (n : Int) : Except Fault Int :=
  if Fits64 n then .ok n else .error .integerOverflow

theorem fitsInt64_iff {n : Int} : fitsInt64 n = true ↔ Fits64 n := by
  simp only [fitsInt64, Bool.and_eq_true, decide_eq_true_eq, Fits64]
  omega

theorem fits64_toInt (a : Int64) : Fits64 a.toInt :=
  ⟨a.le_toInt, a.toInt_lt⟩

theorem Fits64.toInt_ofInt {n : Int} (h : Fits64 n) : (Int64.ofInt n).toInt = n :=
  Int64.toInt_ofInt_of_le h.1 h.2

namespace Arithmetic

section
variable {n : Int}

theorem checked_of_fits (h : Fits64 n) : checked n = .ok (Int64.ofInt n) := by
  simp only [checked, int64?, if_pos (fitsInt64_iff.2 h)]

theorem checked_of_not_fits (h : ¬ Fits64 n) : checked n = .error .integerOverflow := by
  simp only [checked, int64?, if_neg (mt fitsInt64_iff.1 h)]

end

/-! ## Remainders -/

/-- The quotient of two integers fits, but for the least one and -1. -/
theorem fits64_tdiv_iff {a b : Int} (ha : Fits64 a) :
    Fits64 (a.tdiv b) ↔ ¬ (a = -2 ^ 63 ∧ b = -1) := by
  constructor
  · rintro h ⟨rfl, rfl⟩
    exact absurd h (by decide)
  · intro h
    have hq : (a.tdiv b).natAbs = a.natAbs / b.natAbs := Int.natAbs_tdiv a b
    have hle : a.natAbs / b.natAbs ≤ a.natAbs := Nat.div_le_self _ _
    obtain ⟨hlo, hhi⟩ := ha
    refine ⟨by omega, ?_⟩
    by_contra hbig
    -- the quotient is as large as the dividend only for divisors of magnitude one
    have hb : b.natAbs < 2 := by
      by_contra hb
      have hhalf : a.natAbs / b.natAbs ≤ a.natAbs / 2 :=
        Nat.div_le_div_left (Nat.le_of_not_lt hb) (by decide)
      omega
    obtain rfl | rfl | rfl : b = 0 ∨ b = 1 ∨ b = -1 := by omega
    · rw [Int.tdiv_zero] at hbig
      omega
    · rw [Int.tdiv_one] at hbig
      omega
    · exact h ⟨by omega, rfl⟩

/-- The remainder toward zero is brought to the sign of the divisor by adding it once. -/
theorem fmod_eq_tmod_add (a b : Int) :
    a.fmod b = if a.tmod b ≠ 0 ∧ ¬ (a.tmod b < 0 ↔ b < 0) then a.tmod b + b else a.tmod b := by
  have hd : b ∣ a ↔ a.tmod b = 0 := Int.dvd_iff_tmod_eq_zero
  have hpos : 0 ≤ a → 0 ≤ a.tmod b := Int.tmod_nonneg b
  have hneg : a ≤ 0 → a.tmod b ≤ 0 := fun ha => by
    have := Int.tmod_nonneg b (Int.neg_nonneg_of_nonpos ha)
    rw [Int.neg_tmod] at this
    omega
  rw [Int.fmod_eq_tmod]
  split_ifs <;> omega

/-- Numbers of different signs have a sum. -/
theorem fits64_add_of_signs {a b : Int} (ha : Fits64 a) (hb : Fits64 b) (h : ¬ (a < 0 ↔ b < 0)) :
    Fits64 (a + b) := by
  obtain ⟨ha, ha'⟩ := ha
  obtain ⟨hb, hb'⟩ := hb
  constructor <;> omega

theorem toInt_add_of_fits {a b : Int64} (h : Fits64 (a.toInt + b.toInt)) :
    (a + b).toInt = a.toInt + b.toInt := by
  obtain ⟨hlo, hhi⟩ := h
  rw [Int64.toInt_add]
  exact Int.bmod_eq_of_le (by omega) (by omega)

theorem remInt_eq (a b : Int64) : remInt a b =
    if a.toInt = -2 ^ 63 ∧ b.toInt = -1 then .error .integerOverflow else .ok (a % b) := by
  have hq := fits64_tdiv_iff (b := b.toInt) (fits64_toInt a)
  unfold remInt
  split
  · next h => rw [if_neg (hq.1 (fitsInt64_iff.1 h))]
  · next h => rw [if_pos (not_not.1 (mt hq.2 (mt fitsInt64_iff.2 h)))]

theorem toInt_lt_zero {a : Int64} : a < 0 ↔ a.toInt < 0 :=
  Int64.lt_iff_toInt_lt

theorem toInt_eq_zero {a : Int64} : a = 0 ↔ a.toInt = 0 :=
  Int64.toInt_inj.symm

/-- The corrected remainder is the floored one. -/
theorem modInt_eq {a b : Int64} (hb : b.toInt ≠ 0) (h : ¬ (a.toInt = -2 ^ 63 ∧ b.toInt = -1)) :
    ∃ c : Int64, modInt a b = .ok c ∧ c.toInt = a.toInt.fmod b.toInt := by
  rw [modInt, if_neg (mt toInt_eq_zero.1 hb), remInt_eq, if_neg h]
  refine ⟨_, rfl, ?_⟩
  have hr : (a % b).toInt = a.toInt.tmod b.toInt := Int64.toInt_mod a b
  have hiff : ((a % b != 0 && decide (a % b < 0) != decide (b < 0)) = true) ↔
      a.toInt.tmod b.toInt ≠ 0 ∧ ¬ (a.toInt.tmod b.toInt < 0 ↔ b.toInt < 0) := by
    simp only [Bool.and_eq_true, bne_iff_ne, ne_eq, decide_eq_decide, toInt_eq_zero, toInt_lt_zero,
      hr]
  rw [fmod_eq_tmod_add]
  split
  · next hc =>
    rw [if_pos (hiff.1 hc), toInt_add_of_fits, hr]
    exact fits64_add_of_signs (fits64_toInt _) (fits64_toInt b) (by rw [hr]; exact (hiff.1 hc).2)
  · next hc => rw [if_neg (mt hiff.2 hc), hr]

/-! ## Shifts and bits -/

theorem asShift_int (b : Int64) : (Value.int b).asShift =
    if 0 ≤ b.toInt ∧ b.toInt ≤ 63 then .ok b else .error (.invalidShift b) :=
  rfl

/-- A shift amount is taken as it is. -/
theorem toNat_smod {b : Int64} (h : 0 ≤ b.toInt ∧ b.toInt ≤ 63) :
    (b.toBitVec.smod 64).toNat = b.toInt.toNat := by
  have hint : (b.toBitVec.smod 64).toInt = b.toInt := by
    rw [BitVec.toInt_smod]
    exact Int.fmod_eq_of_lt h.1 (Int.lt_add_one_of_le h.2)
  have hmsb : (b.toBitVec.smod 64).msb = false := by
    rw [BitVec.msb_eq_toInt, hint]
    exact decide_eq_false (Int.not_lt.2 h.1)
  rw [← hint, BitVec.toInt_eq_toNat_of_msb hmsb]
  rfl

theorem toInt_shiftLeft {a b : Int64} (h : 0 ≤ b.toInt ∧ b.toInt ≤ 63) :
    (a <<< b).toInt = (a.toInt * 2 ^ b.toInt.toNat).bmod (2 ^ 64) := by
  have hbits : (a <<< b).toInt = (a.toBitVec <<< b.toInt.toNat).toInt := by
    rw [← toNat_smod h]
    rfl
  have ha : a.toInt = (a.toBitVec.toNat : Int).bmod (2 ^ 64) := BitVec.toInt_eq_toNat_bmod _
  rw [hbits, BitVec.toInt_shiftLeft, Nat.shiftLeft_eq, ha, Int.bmod_mul_bmod]
  push_cast
  rfl

theorem toInt_shiftRight {a b : Int64} (h : 0 ≤ b.toInt ∧ b.toInt ≤ 63) :
    (a >>> b).toInt = a.toInt.fdiv (2 ^ b.toInt.toNat) := by
  have hbits : (a >>> b).toInt = (a.toBitVec.sshiftRight b.toInt.toNat).toInt := by
    rw [← toNat_smod h]
    rfl
  rw [hbits, BitVec.toInt_sshiftRight, Int.shiftRight_eq_div_pow,
    Int.fdiv_eq_ediv_of_nonneg _ (by positivity)]
  push_cast
  rfl

/-- The bits of the integer are those of the word, and then its sign. -/
theorem testBit_toInt (a : Int64) (i : Nat) :
    a.toInt.testBit i = if i < 64 then a.toBitVec.getLsbD i else a.toBitVec.msb := by
  have ha : a.toInt = a.toBitVec.toInt := rfl
  cases hm : a.toBitVec.msb with
  | false =>
    rw [ha, BitVec.toInt_eq_toNat_of_msb hm]
    show a.toBitVec.getLsbD i = _
    split
    · rfl
    · next hi => exact BitVec.getLsbD_of_ge _ i (Nat.le_of_not_lt hi)
  | true =>
    have hlt := a.toBitVec.isLt
    have hneg : a.toBitVec.toInt = Int.negSucc (~~~a.toBitVec).toNat := by
      rw [BitVec.toInt_eq_msb_cond, if_pos hm, BitVec.toNat_not, Int.negSucc_eq]
      omega
    rw [ha, hneg]
    show (!(~~~a.toBitVec).getLsbD i) = _
    rw [BitVec.getLsbD_not]
    split
    · next hi => simp [hi]
    · next hi => simp [hi]

theorem testBit_and (a b : Int64) (i : Nat) :
    (a &&& b).toInt.testBit i = (a.toInt.testBit i && b.toInt.testBit i) := by
  rw [testBit_toInt, testBit_toInt, testBit_toInt, Int64.toBitVec_and, BitVec.getLsbD_and,
    BitVec.msb_and]
  split <;> rfl

theorem testBit_or (a b : Int64) (i : Nat) :
    (a ||| b).toInt.testBit i = (a.toInt.testBit i || b.toInt.testBit i) := by
  rw [testBit_toInt, testBit_toInt, testBit_toInt, Int64.toBitVec_or, BitVec.getLsbD_or,
    BitVec.msb_or]
  split <;> rfl

/-! ## Powers -/

/-- What does not fit does not fit either when it is repeated. -/
theorem not_fits64_mul {n k : Int} (h : ¬ Fits64 n) (hk : 1 ≤ k) : ¬ Fits64 (n * k) := by
  unfold Fits64 at *
  rintro ⟨hlo, hhi⟩
  by_cases hn : 0 ≤ n
  · have : n * 1 ≤ n * k := by gcongr
    omega
  · have : -n * 1 ≤ -n * k := by gcongr; omega
    exact h ⟨by linarith, by omega⟩

/-- A number whose square does not fit: the square is larger than the magnitude of any integer of
    64 bits, since 2 ^ 63 is no square. -/
theorem lt_sq_of_not_fits64 {b : Int} (h : ¬ Fits64 (b * b)) : 2 ^ 63 < b * b := by
  have hnn : 0 ≤ b * b := mul_self_nonneg b
  have hge : 2 ^ 63 ≤ b * b := by
    unfold Fits64 at h
    omega
  have habs : 3037000500 ≤ |b| := by
    by_contra hlt
    have : |b| * |b| ≤ 3037000499 * 3037000499 := by gcongr <;> omega
    rw [abs_mul_abs_self] at this
    omega
  have : (3037000500 : Int) * 3037000500 ≤ |b| * |b| := by gcongr
  rw [abs_mul_abs_self] at this
  omega

/-- A square that does not fit is in every higher power. -/
theorem not_fits64_mul_pow {c b : Int} {n : Nat} (h : ¬ Fits64 (b * b)) (hn : 2 ≤ n) (hc : c ≠ 0) :
    ¬ Fits64 (c * b ^ n) := by
  have hsq := lt_sq_of_not_fits64 h
  have hb : 1 ≤ |b| := Int.one_le_abs (by rintro rfl; omega)
  have hc : 1 ≤ |c| := Int.one_le_abs hc
  have hpow : |b| ^ 2 ≤ |b| ^ n := pow_le_pow_right₀ hb hn
  have hbig : 1 * |b| ^ 2 ≤ |c| * |b| ^ n := by gcongr
  rw [one_mul, sq_abs, ← abs_pow, ← abs_mul, sq] at hbig
  rintro ⟨hlo, hhi⟩
  have : |c * b ^ n| ≤ 2 ^ 63 := abs_le.2 ⟨hlo, hhi.le⟩
  omega

/-- One squaring: what is left is a power of the square with half the exponent. -/
theorem square_bind {acc base : Int64} {m : Nat} (hm : 1 ≤ m) (h : acc.toInt = 0 → base.toInt = 0)
    (ih : ∀ square : Int64, (acc.toInt = 0 → square.toInt = 0) →
      mulPow acc square m = checked (acc.toInt * square.toInt ^ m)) :
    (mulInt base base >>= fun square => mulPow acc square m) =
      checked (acc.toInt * base.toInt ^ (2 * m)) := by
  rw [pow_mul, sq]
  by_cases hf : Fits64 (base.toInt * base.toInt)
  · rw [mulInt, checked_of_fits hf]
    refine (ih _ fun hz => ?_).trans (by rw [hf.toInt_ofInt])
    rw [hf.toInt_ofInt, h hz, mul_zero]
  · have hacc : acc.toInt ≠ 0 := fun hz => hf (by rw [h hz]; decide)
    rw [mulInt, checked_of_not_fits hf, ← sq, ← pow_mul,
      checked_of_not_fits (not_fits64_mul_pow hf (by omega) hacc)]
    rfl

/-- **Repeated squaring fails only where the power does not fit.**  The factor collected so far is
    zero only if the base is. -/
theorem mulPow_eq (acc base : Int64) (n : Nat) (h : acc.toInt = 0 → base.toInt = 0) :
    mulPow acc base n = checked (acc.toInt * base.toInt ^ n) := by
  fun_induction mulPow acc base n with
  | case1 acc base =>
    rw [pow_zero, mul_one, checked_of_fits (fits64_toInt acc), Int64.ofInt_toInt]
  | case2 acc base => rw [pow_one, mulInt]
  | case3 acc base n h0 h1 hodd ih =>
    have hn : base.toInt ^ n = base.toInt * base.toInt ^ (2 * (n / 2)) := by
      rw [← pow_succ', show 2 * (n / 2) + 1 = n by omega]
    rw [hn, ← mul_assoc]
    by_cases hf : Fits64 (acc.toInt * base.toInt)
    · have hacc := hf.toInt_ofInt
      rw [mulInt, checked_of_fits hf]
      refine (square_bind (by omega) (fun hz => ?_) (ih _)).trans (by rw [hacc])
      exact (mul_eq_zero.1 (hacc.symm.trans hz)).elim h id
    · have hb : base.toInt ≠ 0 := fun hz => hf (by rw [hz, mul_zero]; decide)
      have hpos : 0 < base.toInt ^ (2 * (n / 2)) := (even_two_mul _).pow_pos hb
      rw [mulInt, checked_of_not_fits hf, checked_of_not_fits (not_fits64_mul hf hpos)]
      rfl
  | case4 acc base n h0 h1 heven ih =>
    exact (square_bind (by omega) h ih).trans (by rw [show 2 * (n / 2) = n by omega])

theorem powInt_eq {a : Int64} {n : Nat} (h : n < 2 ^ 32) : powInt a n = checked (a.toInt ^ n) := by
  have hsmall : ¬ Nat.pow 2 32 ≤ n := Nat.not_le.2 h
  rw [powInt, if_neg hsmall, mulPow_eq _ _ _ fun hz => absurd hz (by decide)]
  exact congrArg checked (one_mul _)

/-- Of the powers with large exponents only those of -1, 0 and 1 fit. -/
theorem fits64_pow_iff {a : Int} {n : Nat} (hn : 64 ≤ n) : Fits64 (a ^ n) ↔ |a| ≤ 1 := by
  constructor
  · rintro ⟨hlo, hhi⟩
    by_contra ha
    have h2 : (2 : Int) ^ 64 ≤ |a| ^ 64 := by gcongr; omega
    have hpow : |a| ^ 64 ≤ |a| ^ n := pow_le_pow_right₀ (by omega) hn
    have : |a ^ n| ≤ 2 ^ 63 := abs_le.2 ⟨hlo, hhi.le⟩
    rw [abs_pow] at this
    omega
  · intro ha
    have : |a ^ n| ≤ 1 := by
      rw [abs_pow]
      exact pow_le_one₀ (abs_nonneg a) ha
    obtain ⟨hlo, hhi⟩ := abs_le.1 this
    constructor <;> omega

end Arithmetic

/-! ## Operations of the machine -/

namespace Machine

open Arithmetic

/-- What an operation makes of the integers `a` and `b` on top of any stack: it pushes an integer
    in their place, or it fails and leaves what lies below them. -/
def Computes (op : Operation) (a b : Int64) : Except Fault Int → Prop
  | .ok n => ∀ (p : Program) (m : Machine) (rest : List Value),
      m.stack = .int b :: .int a :: rest → ∃ c : Int64, c.toInt = n ∧
        execute p (.binary op) m = .ok none { m with stack := .int c :: rest }
  | .error e => ∀ (p : Program) (m : Machine) (rest : List Value),
      m.stack = .int b :: .int a :: rest → ∃ stack, rest <:+ stack ∧
        execute p (.binary op) m = .error e { m with stack }

section
variable {op : Operation} {a b : Int64}

theorem computes_ok {c : Int64} {n : Int} (h : op.apply (.int a) (.int b) = .ok (.int c))
    (hc : c.toInt = n) : Computes op a b (.ok n) :=
  fun _ _ _ hm => ⟨c, hc, execute_binary hm h⟩

theorem computes_error {e : Fault} (h : op.apply (.int a) (.int b) = .error e) :
    Computes op a b (.error e) :=
  fun _ _ _ hm => execute_binary_error hm h

theorem computes_checked {n : Int}
    (h : op.apply (.int a) (.int b) = (checked n).map .int) : Computes op a b (exactly n) := by
  unfold exactly
  split
  · next hf => exact computes_ok (by rw [h, checked_of_fits hf]; rfl) hf.toInt_ofInt
  · next hf => exact computes_error (by rw [h, checked_of_not_fits hf]; rfl)

theorem computes_mod (a b : Int64) : Computes .mod a b
    (if b.toInt = 0 then .error .divisionByZero
      else if a.toInt = -2 ^ 63 ∧ b.toInt = -1 then .error .integerOverflow
      else .ok (a.toInt - b.toInt * a.toInt.fdiv b.toInt)) := by
  have happly : Operation.mod.apply (.int a) (.int b) = (modInt a b).map .int := rfl
  split
  · next hb =>
    refine computes_error ?_
    rw [happly, modInt, if_pos (toInt_eq_zero.2 hb)]
    rfl
  · next hb =>
    split
    · next h =>
      refine computes_error ?_
      rw [happly, modInt, if_neg (mt toInt_eq_zero.1 hb), remInt_eq, if_pos h]
      rfl
    · next h =>
      obtain ⟨c, hc, hint⟩ := modInt_eq hb h
      rw [← Int.fmod_def]
      exact computes_ok (by rw [happly, hc]; rfl) hint

/-- A shift fails for the amount, or shifts by it. -/
theorem computes_shift {f : Int64 → Int64 → Int64} {n : Int}
    (happly : op.apply (.int a) (.int b) =
      Operation.onInts Value.asShift f (.int a) (.int b))
    (hn : 0 ≤ b.toInt ∧ b.toInt ≤ 63 → (f a b).toInt = n) : Computes op a b
      (if 0 ≤ b.toInt ∧ b.toInt ≤ 63 then .ok n else .error (.invalidShift b)) := by
  rw [Operation.onInts, asShift_int] at happly
  split
  · next h =>
    rw [if_pos h] at happly
    exact computes_ok happly (hn h)
  · next h =>
    rw [if_neg h] at happly
    exact computes_error happly

/-- **Integer arithmetic is exact.**  Sums, differences and products are pushed if they fit.  The
    remainder is the floored one, and the correction of its sign always fits.  Shifts multiply
    modulo 2 ^ 64 and divide toward the floor.  The bits are those of the two's complement, without
    end. -/
theorem computes_integers (a b : Int64) :
    Computes .add a b (exactly (a.toInt + b.toInt)) ∧
      Computes .sub a b (exactly (a.toInt - b.toInt)) ∧
      Computes .mul a b (exactly (a.toInt * b.toInt)) ∧
      Computes .mod a b
        (if b.toInt = 0 then .error .divisionByZero
          else if a.toInt = -2 ^ 63 ∧ b.toInt = -1 then .error .integerOverflow
          else .ok (a.toInt - b.toInt * a.toInt.fdiv b.toInt)) ∧
      (∀ r, remInt a b = .ok r → (r < 0) ≠ (b < 0) → Fits64 (r.toInt + b.toInt)) ∧
      Computes .shl a b
        (if 0 ≤ b.toInt ∧ b.toInt ≤ 63 then .ok ((a.toInt * 2 ^ b.toInt.toNat).bmod (2 ^ 64))
          else .error (.invalidShift b)) ∧
      Computes .shr a b
        (if 0 ≤ b.toInt ∧ b.toInt ≤ 63 then .ok (a.toInt.fdiv (2 ^ b.toInt.toNat))
          else .error (.invalidShift b)) ∧
      (∃ c : Int64, Computes .bitAnd a b (.ok c.toInt) ∧
        ∀ i, c.toInt.testBit i = (a.toInt.testBit i && b.toInt.testBit i)) ∧
      (∃ c : Int64, Computes .bitOr a b (.ok c.toInt) ∧
        ∀ i, c.toInt.testBit i = (a.toInt.testBit i || b.toInt.testBit i)) := by
  refine ⟨computes_checked rfl, computes_checked rfl, computes_checked rfl, computes_mod a b,
    fun r _ hsigns => ?_, computes_shift rfl toInt_shiftLeft, computes_shift rfl toInt_shiftRight,
    ⟨a &&& b, computes_ok rfl rfl, testBit_and a b⟩, ⟨a ||| b, computes_ok rfl rfl, testBit_or a b⟩⟩
  refine fits64_add_of_signs (fits64_toInt r) (fits64_toInt b) fun h => hsigns (propext ?_)
  rw [toInt_lt_zero, toInt_lt_zero, h]

/-- **Powers of integers** are exact if the exponent has 32 bits.  All others fail as if they did
    not fit, also those of -1, 0 and 1, which do. -/
theorem computes_pow (a n : Int64) (hn : 0 ≤ n.toInt) :
    Computes .pow a n
        (if n.toInt < 2 ^ 32 then exactly (a.toInt ^ n.toInt.toNat)
          else .error .integerOverflow) ∧
      (2 ^ 32 ≤ n.toInt → (Fits64 (a.toInt ^ n.toInt.toNat) ↔ |a.toInt| ≤ 1)) := by
  have happly : Operation.pow.apply (.int a) (.int n) = (powInt a n.toInt.toNat).map .int :=
    if_pos hn
  refine ⟨?_, fun hbig => fits64_pow_iff (by omega)⟩
  split
  · next h => exact computes_checked (by rw [happly, powInt_eq (by omega)])
  · next h =>
    refine computes_error ?_
    rw [happly, powInt, if_pos (by show 2 ^ 32 ≤ _; omega)]
    rfl

/-- The least integer is a power of -2, and the first even power of -1 that is refused is one. -/
theorem computes_pow_limits :
    0 ≤ Int64.toInt 63 ∧ Computes .pow (-2) 63 (.ok (-2 ^ 63)) ∧
      0 ≤ Int64.toInt 4294967296 ∧ Computes .pow (-1) 4294967296 (.error .integerOverflow) ∧
      Fits64 (Int64.toInt (-1) ^ 4294967296) :=
  ⟨by decide, (computes_pow (-2) 63 (by decide)).1, by decide,
    (computes_pow (-1) 4294967296 (by decide)).1,
    ((computes_pow (-1) 4294967296 (by decide)).2 (by decide)).2 (by decide)⟩

end

end Machine

end Naskah
