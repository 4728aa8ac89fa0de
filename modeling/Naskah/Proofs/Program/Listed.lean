/-
  Listings are unambiguous (`Program.listing_injective`): two programs whose names are identifiers
  and whose constants are no doubles and no functions have the same listing only if they are equal.

  A line of code begins with a digit, the line of a chunk with a blank, and the heading of the
  chunks with a letter.  The name of an instruction ends before the first character that cannot
  stand in a name, and its operand at the end of the line.
-/
import Naskah.Proofs.Text.Unambiguous
import Naskah.Program.Listing
import Naskah.Token.Scan

namespace Naskah

open Text

/-! ## What can be told apart -/

/-- Names that a source can declare. -/
def IsIdentifier (s : String) : Prop :=
  Scan.isName s.toList = true

/-- The constants that are shown with all that they are. -/
def Value.Legible : Value → Prop
  | null | int _ | bool _ | string _ | chunk _ => True
  | float _ | function .. | builtin _ => False

/-- An instruction with such a constant, or such a name. -/
def Instr.Legible {τ : Type} : Instr τ → Prop
  | loadConst v => v.Legible
  | loadName n | storeName n | makeFunction n => IsIdentifier n
  | _ => True

structure Chunk.Legible (c : Chunk) : Prop where
  name : IsIdentifier c.name
  params : ∀ p ∈ c.params, IsIdentifier p.name
  code : ∀ i ∈ c.code, i.Legible

structure Program.Legible (p : Program) : Prop where
  code : ∀ i ∈ p.code, i.Legible
  chunks : ∀ c ∈ p.chunks, c.Legible

instance : DecidablePred IsIdentifier :=
  fun s => inferInstanceAs (Decidable (Scan.isName s.toList = true))

instance : DecidablePred Value.Legible
  | .null | .int _ | .bool _ | .string _ | .chunk _ => isTrue trivial
  | .float _ | .function .. | .builtin _ => isFalse id

instance {τ : Type} : DecidablePred (Instr.Legible (τ := τ))
  | .loadConst v => inferInstanceAs (Decidable v.Legible)
  | .loadName n | .storeName n | .makeFunction n => inferInstanceAs (Decidable (IsIdentifier n))
  | .binary _ | .compare _ | .jumpIfFalse _ | .jump _ | .buildString _ | .call _ | .ret | .pop =>
    isTrue trivial

instance : DecidablePred Chunk.Legible :=
  fun c => decidable_of_iff (IsIdentifier c.name ∧ (∀ p ∈ c.params, IsIdentifier p.name) ∧
    ∀ i ∈ c.code, i.Legible) ⟨fun ⟨hn, hp, hc⟩ => ⟨hn, hp, hc⟩, fun h => ⟨h.name, h.params, h.code⟩⟩

instance : DecidablePred Program.Legible :=
  fun p => decidable_of_iff ((∀ i ∈ p.code, i.Legible) ∧ ∀ c ∈ p.chunks, c.Legible)
    ⟨fun ⟨hc, hs⟩ => ⟨hc, hs⟩, fun h => ⟨h.code, h.chunks⟩⟩

theorem IsIdentifier.isNameChar {s : String} (h : IsIdentifier s) :
    ∀ c ∈ s.toList, Scan.isNameChar c = true := by
  unfold IsIdentifier at h
  cases hs : s.toList with
  | nil => simp
  | cons c cs =>
    rw [hs, Scan.isName, Bool.and_eq_true, List.all_eq_true] at h
    refine List.forall_mem_cons.2 ⟨?_, h.2⟩
    have hstart := h.1
    simp only [Scan.isNameStart, Scan.isNameChar, Char.isAlphanum, Bool.or_eq_true] at hstart ⊢
    exact hstart.imp_left .inl

theorem IsIdentifier.toList_ne_nil {s : String} (h : IsIdentifier s) : s.toList ≠ [] := by
  intro hs
  rw [IsIdentifier, hs] at h
  cases h

namespace Listing

/-! ## Numbers -/

theorem toList_fourDigits (n : Nat) : (fourDigits n).toList =
    List.replicate (4 - (Nat.toDigits 10 n).length) '0' ++ Nat.toDigits 10 n := by
  rw [fourDigits, String.toList_ofList]

theorem isDigit_fourDigits (n : Nat) : ∀ c ∈ (fourDigits n).toList, c.isDigit = true := by
  intro c hc
  rw [toList_fourDigits, List.mem_append] at hc
  rcases hc with hc | hc
  · rw [(List.mem_replicate.1 hc).2]
    rfl
  · exact isDigit_toDigits n c hc

theorem fourDigits_head (n : Nat) : ∃ c cs, (fourDigits n).toList = c :: cs ∧ c.isDigit = true := by
  obtain ⟨c, cs, hc⟩ : ∃ c cs, (fourDigits n).toList = c :: cs := by
    refine List.exists_cons_of_ne_nil ?_
    rw [toList_fourDigits]
    exact List.append_ne_nil_of_right_ne_nil _ Nat.toDigits_ne_nil
  exact ⟨c, cs, hc, isDigit_fourDigits n c (by rw [hc]; exact List.mem_cons_self)⟩

/-- Zeros in front do not change a number. -/
theorem fourDigits_injective {m n : Nat} (h : fourDigits m = fourDigits n) : m = n := by
  have hvalue : ∀ n, Nat.ofDigitChars 10 (fourDigits n).toList 0 = n := by
    intro n
    rw [toList_fourDigits, Nat.ofDigitChars_append, Nat.ofDigitChars_replicate_zero, Nat.mul_zero]
    exact Nat.ofDigitChars_ten_toDigits
  rw [← hvalue m, h, hvalue]

theorem toList_toString (n : Nat) : (toString n).toList = Nat.toDigits 10 n :=
  Nat.toList_repr

theorem toList_ofNat (n : Nat) : (toString (Int.ofNat n)).toList = Nat.toDigits 10 n :=
  toList_toString n

theorem toList_negSucc (n : Nat) :
    (toString (Int.negSucc n)).toList = '-' :: Nat.toDigits 10 (n + 1) := by
  show ("-" ++ (n + 1).repr).toList = _
  rw [String.toList_append, Nat.toList_repr]
  rfl

/-- An integer begins with a digit or a sign. -/
theorem toString_int_head (n : Int) :
    ∃ c cs, (toString n).toList = c :: cs ∧ (c.isDigit = true ∨ c = '-') := by
  cases n with
  | ofNat n =>
    obtain ⟨c, cs, hc⟩ := List.exists_cons_of_ne_nil (Nat.toDigits_ne_nil (n := n) (b := 10))
    refine ⟨c, cs, (toList_ofNat n).trans hc, .inl ?_⟩
    exact isDigit_toDigits n c (by rw [hc]; exact List.mem_cons_self)
  | negSucc n => exact ⟨_, _, toList_negSucc n, .inr rfl⟩

theorem toString_int_injective {m n : Int} (h : toString m = toString n) : m = n := by
  have h := congrArg String.toList h
  -- a sign is no digit
  have hsign : ∀ m n : Nat, Nat.toDigits 10 m ≠ '-' :: Nat.toDigits 10 n := by
    intro m n he
    cases isDigit_toDigits m '-' (by rw [he]; exact List.mem_cons_self)
  cases m with
  | ofNat m =>
    cases n with
    | ofNat n =>
      rw [toList_ofNat, toList_ofNat] at h
      rw [toDigits_injective (by decide) (by decide) h]
    | negSucc n =>
      rw [toList_ofNat, toList_negSucc] at h
      exact absurd h (hsign _ _)
  | negSucc m =>
    cases n with
    | ofNat n =>
      rw [toList_negSucc, toList_ofNat] at h
      exact absurd h.symm (hsign _ _)
    | negSucc n =>
      rw [toList_negSucc, toList_negSucc] at h
      rw [Nat.succ.inj (toDigits_injective (by decide) (by decide) (List.cons.inj h).2)]

/-! ## Constants -/

theorem toList_chunk (i : Nat) : (constant (.chunk i)).toList =
    ['<', 'c', 'h', 'u', 'n', 'k', ' '] ++ (Nat.toDigits 10 i ++ ['>']) := by
  show ("<chunk " ++ toString i ++ ">").toList = _
  rw [String.toList_append, String.toList_append, toList_toString, List.append_assoc]
  rfl

/-- The kind of the constants that are shown with a first character. -/
def kindOf (c : Char) : Kind :=
  if c = 'k' then .null
  else if c = 'b' ∨ c = 's' then .bool
  else if c = '"' then .string
  else if c = '<' then .chunk
  else .int

theorem constant_head {v : Value} (h : v.Legible) :
    ∃ c cs, (constant v).toList = c :: cs ∧ kindOf c = v.kind := by
  cases v with
  | null => exact ⟨_, _, rfl, rfl⟩
  | int n =>
    obtain ⟨c, cs, hc, hd⟩ := toString_int_head n.toInt
    refine ⟨c, cs, hc, ?_⟩
    have hne : c ≠ 'k' ∧ ¬ (c = 'b' ∨ c = 's') ∧ c ≠ '"' ∧ c ≠ '<' := by
      refine ⟨?_, ?_, ?_, ?_⟩
      · rintro rfl; revert hd; decide
      · rintro (rfl | rfl) <;> revert hd <;> decide
      · rintro rfl; revert hd; decide
      · rintro rfl; revert hd; decide
    rw [kindOf, if_neg hne.1, if_neg hne.2.1, if_neg hne.2.2.1, if_neg hne.2.2.2]
    rfl
  | bool b => cases b <;> exact ⟨_, _, rfl, rfl⟩
  | string s => exact ⟨_, _, toList_quote s, rfl⟩
  | chunk i => exact ⟨_, _, toList_chunk i, rfl⟩
  | float x | function i f | builtin b => exact h.elim

/-- **Constants with the same text are equal.** -/
theorem constant_injective {v w : Value} (hv : v.Legible) (hw : w.Legible)
    (h : constant v = constant w) : v = w := by
  obtain ⟨c, cs, hc, hvk⟩ := constant_head hv
  obtain ⟨d, ds, hd, hwk⟩ := constant_head hw
  have hk : v.kind = w.kind := by
    rw [h, hd] at hc
    rw [← hvk, ← hwk, (List.cons.inj hc).1]
  cases v with
  | float x | function i f | builtin b => exact hv.elim
  | null =>
    cases w with
    | null => rfl
    | _ => cases hk
  | int m =>
    cases w with
    | int n => exact congrArg Value.int (Int64.toInt_inj.1 (toString_int_injective h))
    | _ => cases hk
  | bool a =>
    cases w with
    | bool b => cases a <;> cases b <;> first | rfl | exact absurd h (by decide)
    | _ => cases hk
  | string s =>
    cases w with
    | string t => exact congrArg Value.string (quote_injective h)
    | _ => cases hk
  | chunk i =>
    cases w with
    | chunk j =>
      have h := congrArg String.toList h
      rw [toList_chunk, toList_chunk] at h
      have hend := breaks_cons (P := Char.isDigit) (c := '>') rfl []
      rw [(unambiguous_toDigits trivial trivial hend hend (List.append_cancel_left h)).1]
    | _ => cases hk

/-! ## Instructions -/

theorem mnemonic_isNameChar (i : Instruction) :
    ∀ c ∈ i.mnemonic.toList, Scan.isNameChar c = true := by
  refine List.all_eq_true.1 ?_
  cases i <;> dsimp only [Instr.mnemonic] <;> decide

theorem symbol_injective (op op' : Operation) : op.symbol = op'.symbol → op = op' := by
  cases op <;> cases op' <;> decide

theorem comparison_injective (c c' : Comparison) : c.symbol = c'.symbol → c = c' := by
  cases c <;> cases c' <;> decide

theorem toString_injective {m n : Nat} (h : toString m = toString n) : m = n := by
  have h := congrArg String.toList h
  rw [toList_toString, toList_toString] at h
  exact toDigits_injective (by decide) (by decide) h

theorem toList_target (t : Nat) :
    ("-> " ++ fourDigits t).toList = ['-', '>', ' '] ++ (fourDigits t).toList :=
  String.toList_append

theorem target_injective {t t' : Nat} (h : "-> " ++ fourDigits t = "-> " ++ fourDigits t') :
    t = t' := by
  have h := congrArg String.toList h
  rw [toList_target, toList_target] at h
  exact fourDigits_injective (String.toList_inj.1 (List.append_cancel_left h))

/-- **An instruction is its name and its operand.** -/
theorem eq_of_operand {i j : Instruction} (hi : i.Legible) (hj : j.Legible)
    (hm : i.mnemonic = j.mnemonic) (ho : operand i = operand j) : i = j := by
  cases i with
  | loadConst v =>
    cases j with
    | loadConst w => exact congrArg Instr.loadConst (constant_injective hi hj ho)
    | _ => exact absurd hm (by dsimp only [Instr.mnemonic]; decide)
  | loadName n =>
    cases j with
    | loadName n' => exact congrArg Instr.loadName ho
    | _ => exact absurd hm (by dsimp only [Instr.mnemonic]; decide)
  | storeName n =>
    cases j with
    | storeName n' => exact congrArg Instr.storeName ho
    | _ => exact absurd hm (by dsimp only [Instr.mnemonic]; decide)
  | makeFunction n =>
    cases j with
    | makeFunction n' => exact congrArg Instr.makeFunction ho
    | _ => exact absurd hm (by dsimp only [Instr.mnemonic]; decide)
  | binary op =>
    cases j with
    | binary op' => exact congrArg Instr.binary (symbol_injective op op' ho)
    | _ => exact absurd hm (by dsimp only [Instr.mnemonic]; decide)
  | compare c =>
    cases j with
    | compare c' => exact congrArg Instr.compare (comparison_injective c c' ho)
    | _ => exact absurd hm (by dsimp only [Instr.mnemonic]; decide)
  | jumpIfFalse t =>
    cases j with
    | jumpIfFalse t' => exact congrArg Instr.jumpIfFalse (target_injective ho)
    | _ => exact absurd hm (by dsimp only [Instr.mnemonic]; decide)
  | jump t =>
    cases j with
    | jump t' => exact congrArg Instr.jump (target_injective ho)
    | _ => exact absurd hm (by dsimp only [Instr.mnemonic]; decide)
  | buildString n =>
    cases j with
    | buildString n' => exact congrArg Instr.buildString (toString_injective ho)
    | _ => exact absurd hm (by dsimp only [Instr.mnemonic]; decide)
  | call n =>
    cases j with
    | call n' => exact congrArg Instr.call (toString_injective ho)
    | _ => exact absurd hm (by dsimp only [Instr.mnemonic]; decide)
  | ret =>
    cases j with
    | ret => rfl
    | _ => exact absurd hm (by dsimp only [Instr.mnemonic]; decide)
  | pop =>
    cases j with
    | pop => rfl
    | _ => exact absurd hm (by dsimp only [Instr.mnemonic]; decide)

/-! ## Lines -/

/-- A text without the end of a line. -/
def OneLine (cs : List Char) : Prop :=
  ∀ c ∈ cs, (c != '\n') = true

theorem oneLine_append {a b : List Char} (ha : OneLine a) (hb : OneLine b) : OneLine (a ++ b) :=
  List.forall_mem_append.2 ⟨ha, hb⟩

theorem oneLine_of_class {P : Char → Bool} {cs : List Char} (hP : P '\n' = false)
    (h : ∀ c ∈ cs, P c = true) : OneLine cs := by
  intro c hc
  refine bne_iff_ne.2 ?_
  rintro rfl
  rw [h _ hc] at hP
  cases hP

theorem oneLine_constant {v : Value} (h : v.Legible) : OneLine (constant v).toList := by
  cases v with
  | null => exact List.all_eq_true.1 (by decide)
  | int n =>
    show OneLine (toString n.toInt).toList
    cases n.toInt with
    | ofNat m =>
      rw [toList_ofNat]
      exact oneLine_of_class rfl (isDigit_toDigits m)
    | negSucc m =>
      rw [toList_negSucc]
      exact List.forall_mem_cons.2 ⟨rfl, oneLine_of_class rfl (isDigit_toDigits _)⟩
  | bool b => cases b <;> exact List.all_eq_true.1 (by decide)
  | string s => exact fun c hc => bne_iff_ne.2 (quote_ne_newline hc)
  | chunk i =>
    rw [toList_chunk]
    refine oneLine_append (List.all_eq_true.1 rfl) (oneLine_append ?_ (List.all_eq_true.1 rfl))
    exact oneLine_of_class rfl (isDigit_toDigits i)
  | float x | function i f | builtin b => exact h.elim

theorem oneLine_target (t : Nat) : OneLine ("-> " ++ fourDigits t).toList := by
  rw [toList_target]
  exact oneLine_append (List.all_eq_true.1 rfl) (oneLine_of_class rfl (isDigit_fourDigits t))

theorem oneLine_operand {i : Instruction} (h : i.Legible) : OneLine (operand i).toList := by
  cases i with
  | loadConst v => exact oneLine_constant h
  | loadName n | storeName n | makeFunction n =>
    exact oneLine_of_class (P := Scan.isNameChar) (by decide) (IsIdentifier.isNameChar h)
  | binary op => cases op <;> exact List.all_eq_true.1 (by decide)
  | compare c => cases c <;> exact List.all_eq_true.1 (by decide)
  | jumpIfFalse t | jump t => exact oneLine_target t
  | buildString n | call n =>
    show OneLine (toString n).toList
    rw [toList_toString]
    exact oneLine_of_class rfl (isDigit_toDigits n)
  | ret | pop => exact fun c hc => absurd hc List.not_mem_nil

/-- What follows the name of an instruction on its line. -/
def operandText (i : Instruction) : List Char :=
  if (operand i).isEmpty then []
  else List.replicate (18 - i.mnemonic.length) ' ' ++ '\t' :: (operand i).toList

theorem toList_pushn (s : String) (c : Char) (n : Nat) :
    (s.pushn c n).toList = s.toList ++ List.replicate n c := by
  induction n with
  | zero => exact (List.append_nil _).symm
  | succ n ih =>
    show ((s.pushn c n).push c).toList = _
    rw [String.toList_push, ih, List.replicate_succ', List.append_assoc]

theorem toList_instructionLine (n : Nat) (i : Instruction) : (instructionLine n i).toList =
    (fourDigits n).toList ++ '\t' :: (i.mnemonic.toList ++ (operandText i ++ ['\n'])) := by
  have htab : "\t".toList = ['\t'] := rfl
  have hend : "\n".toList = ['\n'] := rfl
  show (if (operand i).isEmpty then fourDigits n ++ "\t" ++ i.mnemonic ++ "\n"
    else fourDigits n ++ "\t" ++ column i.mnemonic ++ "\t" ++ operand i ++ "\n").toList = _
  unfold operandText
  split <;> simp [column, String.toList_append, toList_pushn, htab, hend]

theorem operandText_breaks (i : Instruction) (x : List Char) :
    Breaks Scan.isNameChar (operandText i ++ '\n' :: x) := by
  unfold operandText
  split
  · exact breaks_cons (by decide) x
  · cases 18 - i.mnemonic.length with
    | zero => exact breaks_cons (by decide) _
    | succ k => exact breaks_cons (by decide) _

theorem oneLine_operandText {i : Instruction} (h : i.Legible) : OneLine (operandText i) := by
  unfold operandText
  split
  · exact fun c hc => absurd hc List.not_mem_nil
  · refine oneLine_append (fun c hc => ?_) (List.forall_mem_cons.2 ⟨rfl, oneLine_operand h⟩)
    rw [(List.mem_replicate.1 hc).2]
    rfl

/-- The operand is what stands behind the column of the name. -/
theorem operand_eq_of_operandText {i j : Instruction} (hm : i.mnemonic = j.mnemonic)
    (h : operandText i = operandText j) : operand i = operand j := by
  unfold operandText at h
  rw [hm] at h
  split at h <;> split at h
  · next hi hj => rw [String.isEmpty_iff.1 hi, String.isEmpty_iff.1 hj]
  · exact absurd h.symm (by simp)
  · exact absurd h (by simp)
  · exact String.toList_inj.1 (List.cons.inj (List.append_cancel_left h)).2

/-- **A line shows one instruction.** -/
theorem unambiguous_instructionLine (n : Nat) :
    Unambiguous Instr.Legible (fun _ => True) fun i => (instructionLine n i).toList := by
  intro i j x y hi hj _ _ h
  simp only [toList_instructionLine, List.append_assoc, List.cons_append, List.nil_append] at h
  have h := (List.cons.inj (List.append_cancel_left h)).2
  obtain ⟨hm, h⟩ := append_inj_of_breaks (mnemonic_isNameChar i) (mnemonic_isNameChar j)
    (operandText_breaks i x) (operandText_breaks j y) h
  obtain ⟨ho, hxy⟩ := append_inj_of_breaks (oneLine_operandText hi) (oneLine_operandText hj)
    (breaks_cons rfl x) (breaks_cons rfl y) h
  have hm := String.toList_inj.1 hm
  exact ⟨eq_of_operand hi hj hm (operand_eq_of_operandText hm ho), (List.cons.inj hxy).2⟩

/-! ## Code -/

theorem map_mapIdx {α β γ : Type} (g : β → γ) (f : Nat → α → β) (as : List α) :
    (as.mapIdx f).map g = as.mapIdx fun n a => g (f n a) := by
  induction as generalizing f with
  | nil => rfl
  | cons a as ih => rw [List.mapIdx_cons, List.map_cons, ih, List.mapIdx_cons]

theorem toList_join_mapIdx {α : Type} (f : Nat → α → String) (as : List α) :
    (String.join (as.mapIdx f)).toList = (as.mapIdx fun n a => (f n a).toList).flatten := by
  rw [String.toList_join, List.flatMap_def, map_mapIdx]

theorem instructionLine_head (n : Nat) (i : Instruction) :
    ∃ c cs, (instructionLine n i).toList = c :: cs ∧ c.isDigit = true := by
  obtain ⟨c, cs, hc, hd⟩ := fourDigits_head n
  exact ⟨c, _, by rw [toList_instructionLine, hc]; rfl, hd⟩

/-- **Code is unambiguous** before a line that does not begin with a digit. -/
theorem unambiguous_codeLines : Unambiguous (fun code => ∀ i ∈ code, i.Legible)
    (Breaks Char.isDigit) fun code => (codeLines code).toList := by
  intro a b x y ha hb hx hy h
  simp only [codeLines, toList_join_mapIdx] at h
  exact unambiguous_mapIdx unambiguous_instructionLine (fun n i _ => instructionLine_head n i)
    (fun _ _ _ => trivial) ha hb ⟨hx, trivial⟩ ⟨hy, trivial⟩ h

/-! ## Chunks -/

/-- A parameter as a signature shows it. -/
def paramText (p : Param) : List Char :=
  p.name.toList ++ ':' :: ' ' :: p.type.keyword.toList

theorem keyword_isNameChar (t : TypeName) : ∀ c ∈ t.keyword.toList, Scan.isNameChar c = true := by
  refine List.all_eq_true.1 ?_
  cases t <;> decide

theorem keyword_injective (t t' : TypeName) : t.keyword = t'.keyword → t = t' := by
  cases t <;> cases t' <;> decide

theorem unambiguous_paramText : Unambiguous (fun p => IsIdentifier p.name)
    (Breaks Scan.isNameChar) paramText := by
  intro p q x y hp hq hx hy h
  simp only [paramText, List.append_assoc, List.cons_append] at h
  obtain ⟨hn, h⟩ := append_inj_of_breaks hp.isNameChar hq.isNameChar
    (breaks_cons (by decide) _) (breaks_cons (by decide) _) h
  obtain ⟨ht, hxy⟩ := append_inj_of_breaks (keyword_isNameChar p.type) (keyword_isNameChar q.type)
    hx hy (List.cons.inj (List.cons.inj h).2).2
  have hn := String.toList_inj.1 hn
  have ht := keyword_injective _ _ (String.toList_inj.1 ht)
  exact ⟨by cases p; cases q; cases hn; cases ht; rfl, hxy⟩

theorem paramText_head {p : Param} (h : IsIdentifier p.name) :
    ∃ c cs, paramText p = c :: cs ∧ Scan.isNameChar c = true := by
  obtain ⟨c, cs, hc⟩ := List.exists_cons_of_ne_nil h.toList_ne_nil
  exact ⟨c, _, by rw [paramText, hc]; rfl, h.isNameChar c (by rw [hc]; exact List.mem_cons_self)⟩

/-- The parameters behind the first one. -/
def moreParamsText (ps : List Param) : List Char :=
  ps.flatMap fun p => ',' :: ' ' :: paramText p

theorem unambiguous_moreParamsText : Unambiguous (fun ps => ∀ p ∈ ps, IsIdentifier p.name)
    (fun x => Breaks (· == ',') x ∧ Breaks Scan.isNameChar x) moreParamsText := by
  intro ps qs x y hps hqs hx hy h
  simp only [moreParamsText, flatMap_eq_mapIdx] at h
  refine unambiguous_mapIdx (fun _ p q x y hp hq hx hy h => ?_) (fun _ p _ => ⟨_, _, rfl, rfl⟩)
    (fun c cs hc => ?_) hps hqs hx hy h
  · exact unambiguous_paramText hp hq hx hy (List.cons.inj (List.cons.inj h).2).2
  · rw [eq_of_beq hc]
    exact breaks_cons (by decide) cs

theorem moreParamsText_breaks (ps : List Param) (x : List Char) :
    Breaks Scan.isNameChar (moreParamsText ps ++ ')' :: x) := by
  cases ps with
  | nil => exact breaks_cons (by decide) x
  | cons p ps => exact breaks_cons (by decide) _

/-- Parameters as a signature shows them. -/
def paramsText : List Param → List Char
  | [] => []
  | p :: ps => paramText p ++ moreParamsText ps

theorem unambiguous_paramsText : Unambiguous (fun ps => ∀ p ∈ ps, IsIdentifier p.name)
    (fun x => ∃ x', x = ')' :: x') paramsText := by
  rintro ps qs _ _ hps hqs ⟨x, rfl⟩ ⟨y, rfl⟩ h
  -- the bracket is not the beginning of a name
  have hbracket : ∀ {p : Param} {a b : List Char}, IsIdentifier p.name →
      paramText p ++ a ≠ ')' :: b := by
    intro p a b hp h
    obtain ⟨c, cs, hc, hname⟩ := paramText_head hp
    rw [hc] at h
    rw [(List.cons.inj h).1] at hname
    exact absurd hname (by decide)
  cases ps with
  | nil =>
    cases qs with
    | nil => exact ⟨rfl, h⟩
    | cons q qs =>
      rw [paramsText, paramsText, List.append_assoc] at h
      exact absurd h.symm (hbracket (hqs q List.mem_cons_self))
  | cons p ps =>
    rw [List.forall_mem_cons] at hps
    cases qs with
    | nil =>
      rw [paramsText, paramsText, List.append_assoc] at h
      exact absurd h (hbracket hps.1)
    | cons q qs =>
      rw [List.forall_mem_cons] at hqs
      rw [paramsText, paramsText, List.append_assoc, List.append_assoc] at h
      have hend : ∀ x, Breaks (· == ',') (')' :: x) ∧ Breaks Scan.isNameChar (')' :: x) :=
        fun x => ⟨breaks_cons rfl x, breaks_cons (by decide) x⟩
      obtain ⟨rfl, hmore⟩ := unambiguous_paramText hps.1 hqs.1 (moreParamsText_breaks ps x)
        (moreParamsText_breaks qs y) h
      obtain ⟨rfl, hxy⟩ := unambiguous_moreParamsText hps.2 hqs.2 (hend x) (hend y) hmore
      exact ⟨rfl, hxy⟩

theorem intercalate_paramText (ps : List Param) :
    List.intercalate [',', ' '] (ps.map paramText) = paramsText ps := by
  cases ps with
  | nil => rfl
  | cons p ps =>
    rw [paramsText]
    induction ps generalizing p with
    | nil => simp [moreParamsText]
    | cons q ps ih =>
      rw [List.map_cons, List.map_cons, List.intercalate_cons_cons, ← List.map_cons, ih]
      simp [moreParamsText]

theorem toList_signature (c : Chunk) : (signature c).toList =
    c.name.toList ++ '(' :: (paramsText c.params ++
      ([')', ' ', ';', ' ', 'l', 'i', 'n', 'e', ' '] ++ Nat.toDigits 10 c.line.toNat)) := by
  have hparams : (String.intercalate ", " (c.params.map fun p => p.name ++ ": " ++
      p.type.keyword)).toList = paramsText c.params := by
    rw [String.toList_intercalate, List.map_map, ← intercalate_paramText]
    refine congrArg (List.intercalate [',', ' ']) (List.map_congr_left fun p _ => ?_)
    show (p.name ++ ": " ++ p.type.keyword).toList = _
    rw [String.toList_append, String.toList_append, List.append_assoc]
    rfl
  show (c.name ++ "(" ++ String.intercalate ", " (c.params.map fun p => p.name ++ ": " ++
    p.type.keyword) ++ ") ; line " ++ toString c.line.toNat).toList = _
  rw [String.toList_append, String.toList_append, String.toList_append, String.toList_append,
    hparams, toList_toString, List.append_assoc, List.append_assoc, List.append_assoc]
  rfl

/-- A chunk as a listing shows it. -/
def chunkText (n : Nat) (c : Chunk) : List Char :=
  [' ', ' ', '['] ++ ((fourDigits n).toList ++ ([']', ' '] ++ ((signature c).toList ++
    '\n' :: (codeLines c.code).toList)))

/-- **A chunk is unambiguous** before a line that does not begin with a digit. -/
theorem unambiguous_chunkText (n : Nat) :
    Unambiguous Chunk.Legible (Breaks Char.isDigit) (chunkText n) := by
  intro c d x y hc hd hx hy h
  simp only [chunkText, toList_signature, List.append_assoc, List.cons_append, List.nil_append,
    List.cons.injEq, true_and, List.append_cancel_left_eq] at h
  obtain ⟨hname, h⟩ := append_inj_of_breaks hc.name.isNameChar hd.name.isNameChar
    (breaks_cons (by decide) _) (breaks_cons (by decide) _) h
  obtain ⟨hparams, h⟩ := unambiguous_paramsText hc.params hd.params ⟨_, rfl⟩ ⟨_, rfl⟩
    (List.cons.inj h).2
  simp only [List.cons.injEq, true_and] at h
  obtain ⟨hline, h⟩ := unambiguous_toDigits trivial trivial (breaks_cons rfl _) (breaks_cons rfl _) h
  obtain ⟨hcode, hxy⟩ := unambiguous_codeLines hc.code hd.code hx hy (List.cons.inj h).2
  have hname := String.toList_inj.1 hname
  have hline := UInt32.toNat_inj.1 hline
  exact ⟨by cases c; cases d; cases hname; cases hparams; cases hline; cases hcode; rfl, hxy⟩

theorem toList_listing (p : Program) : (p.listing false).toList =
    "code (".toList ++ (Nat.toDigits 10 p.code.length ++
      (" instructions):\n".toList ++ ((codeLines p.code).toList ++
        ("chunks (".toList ++ (Nat.toDigits 10 p.chunks.length ++
          ("):\n".toList ++ (p.chunks.mapIdx chunkText).flatten)))))) := by
  have hchunk : ∀ n c, ("  [" ++ fourDigits n ++ "] " ++ signature c ++ "\n" ++
      codeLines c.code).toList = chunkText n c := by
    intro n c
    simp only [String.toList_append, List.append_assoc]
    rfl
  have hchunks : (String.join (p.chunks.mapIdx fun n c => "  [" ++ fourDigits n ++ "] " ++
      signature c ++ "\n" ++ codeLines c.code)).toList = (p.chunks.mapIdx chunkText).flatten := by
    rw [toList_join_mapIdx]
    simp only [hchunk]
  show ("code (" ++ toString p.code.length ++ " instructions):" ++ "\n" ++ codeLines p.code ++
    ("chunks (" ++ toString p.chunks.length ++ "):" ++ "\n") ++
    String.join (p.chunks.mapIdx fun n c => "  [" ++ fourDigits n ++ "] " ++ signature c ++ "\n" ++
      codeLines c.code)).toList = _
  have hcode : " instructions):\n" = " instructions):" ++ "\n" := by decide
  have hbracket : "):\n" = "):" ++ "\n" := by decide
  simp only [hcode, hbracket, String.toList_append, toList_toString, hchunks, List.append_assoc]

end Listing

open Listing

/-- **Listings are unambiguous.**  Two programs whose names are identifiers, and whose constants
    are null, integers, truth values, texts and chunks, have the same listing only if they are
    equal. -/
theorem Program.listing_injective {p q : Program} (hp : p.Legible) (hq : q.Legible)
    (h : p.listing false = q.listing false) : p = q := by
  have h := congrArg String.toList h
  rw [toList_listing, toList_listing] at h
  have hblank : ∀ x, Breaks Char.isDigit (" instructions):\n".toList ++ x) :=
    fun x => breaks_cons (by decide) _
  have hletter : ∀ x, Breaks Char.isDigit ("chunks (".toList ++ x) :=
    fun x => breaks_cons (by decide) _
  have hbracket : ∀ x, Breaks Char.isDigit ("):\n".toList ++ x) :=
    fun x => breaks_cons (by decide) _
  have hend : Breaks (· == ' ') [] ∧ Breaks Char.isDigit [] := ⟨breaks_nil _, breaks_nil _⟩
  obtain ⟨-, h⟩ := unambiguous_toDigits trivial trivial (hblank _) (hblank _)
    (List.append_cancel_left h)
  obtain ⟨hcode, h⟩ := unambiguous_codeLines hp.code hq.code (hletter _) (hletter _)
    (List.append_cancel_left h)
  obtain ⟨-, h⟩ := unambiguous_toDigits trivial trivial (hbracket _) (hbracket _)
    (List.append_cancel_left h)
  have hchunks : Unambiguous (fun cs : List Chunk => ∀ c ∈ cs, c.Legible)
      (fun x => Breaks (· == ' ') x ∧ Breaks Char.isDigit x)
      fun cs => (cs.mapIdx chunkText).flatten :=
    unambiguous_mapIdx unambiguous_chunkText (fun n c _ => ⟨_, _, rfl, rfl⟩) fun c cs hc => by
      rw [eq_of_beq hc]
      exact breaks_cons rfl cs
  have h := congrArg (· ++ []) (List.append_cancel_left h)
  have hchunks := (hchunks hp.chunks hq.chunks hend hend h).1
  cases p
  cases q
  cases hcode
  cases hchunks
  rfl

/-- A constant, and a function with two parameters. -/
def shownProgram (v : Value) : Program where
  code := [.loadConst v, .pop, .loadConst (.chunk 0), .makeFunction "f", .storeName "f"]
  chunks := [⟨"f", [⟨"a", .int⟩, ⟨"b", .any⟩], [.loadName "a", .loadName "b", .binary .sub, .ret], 2⟩]

/-- A text that looks like a line of code is read off its listing, and told from other ones. -/
theorem listing_injective_lines :
    (shownProgram (.string "\n0001\tpop")).Legible ∧
      shownProgram (.string "\n0001\tpop") = shownProgram (.string "\n0001\tpop") ∧
      (shownProgram (.int 1)).listing false ≠ (shownProgram (.string "1")).listing false :=
  ⟨by decide, Program.listing_injective (by decide) (by decide) rfl,
    fun h => absurd (Program.listing_injective (by decide) (by decide) h) (by decide)⟩

end Naskah
