/-
  Splitting a run of tokens, whether its brackets match or not.  The parts between commas and the
  commas between them are all that there is, and the commas are those outside of brackets
  (`parted_splitCommas`).  An opening bracket is closed by the first token behind which as many
  brackets are closed as were opened (`closing?_iff`).

  Brackets are counted in two ways.  Commas are told apart by a count that stays at zero when a
  bracket closes nothing; the closing bracket is found by a count that never gets there.  Between
  an opening bracket and the one that closes it the two agree (`paired_of_closing?`), so that no
  comma between them is taken for one outside of them.
-/
import Naskah.Proofs.Expression.Grammar
import Mathlib.Order.Bounds.Basic

namespace Naskah.Expression

/-- The number of open brackets behind a run that stands inside `depth` of them.  Brackets that
    close nothing are passed over. -/
def depthFrom (depth : Nat) (ts : List Token) : Nat :=
  ts.foldl depthAfter depth

/-- The number of brackets that a run opens, less the number of those that it closes. -/
def balance (ts : List Token) : Int :=
  ts.count (.bracket .openRound) - ts.count (.bracket .closeRound)

/-- A comma outside of brackets stands at a position of a run, when the run itself stands inside
    `depth` brackets. -/
def CommaFrom (depth : Nat) (ts : List Token) (i : Nat) : Prop :=
  ts[i]? = some (.punctuation .comma) ∧ depthFrom depth (ts.take i) = 0

instance (depth : Nat) (ts : List Token) (i : Nat) : Decidable (CommaFrom depth ts i) :=
  inferInstanceAs (Decidable (_ ∧ _))

/-- A comma outside of brackets stands at a position of a run. -/
abbrev CommaAt (ts : List Token) (i : Nat) : Prop :=
  CommaFrom 0 ts i

/-- The tokens in front of a part: the parts before it, a comma behind each of them. -/
def upTo (before : List (List Token)) : List Token :=
  before.flatMap (· ++ [.punctuation .comma])

/-- The parts of a run between its commas outside of brackets. -/
structure Parted (ts : List Token) (parts : List (List Token)) : Prop where
  joined_eq : joined parts = ts
  length_eq : parts.length = (List.range ts.length).countP (fun i => CommaAt ts i) + 1
  /-- None of the positions that a part takes up is that of a comma outside of brackets. -/
  no_comma : ∀ before part after, parts = before ++ part :: after →
    ∀ k < part.length, ¬ CommaAt ts ((upTo before).length + k)

/-- The position of the bracket that closes the one at a position. -/
def closing? (ts : List Token) (i : Nat) : Option Nat :=
  (splitClose 0 (ts.drop (i + 1))).map fun p => i + 1 + p.1.length

/-- The tokens between two positions. -/
def between (ts : List Token) (i j : Nat) : List Token :=
  (ts.take j).drop (i + 1)

/-- The brackets at two positions belong together. -/
structure Paired (ts : List Token) (i j : Nat) : Prop where
  split : splitClose 0 (ts.drop (i + 1)) = some (between ts i j, ts.drop (j + 1))
  balance_eq : balance (between ts i j) = 0
  balance_nonneg : ∀ p, p <+: between ts i j → 0 ≤ balance p
  /-- Tokens between the brackets are as deep as in the run between them alone, and inside of one
      more bracket than those in front. -/
  depth_eq : ∀ m ≤ (between ts i j).length, depthFrom 0 (ts.take (i + 1 + m)) =
    depthFrom 0 (ts.take i) + 1 + depthFrom 0 ((between ts i j).take m)
  no_comma : ∀ k, i ≤ k → k ≤ j → ¬ CommaAt ts k
  /-- The brackets and all that is between them stand in one part. -/
  together : ∃ before part after, splitCommas ts = before ++ part :: after ∧
    (upTo before).length ≤ i ∧ j < (upTo before).length + part.length

section
variable {depth : Nat} {t : Token} {ts : List Token} {i j : Nat}

/-! ## Counting brackets -/

theorem depthFrom_cons : depthFrom depth (t :: ts) = depthFrom (depthAfter depth t) ts :=
  rfl

theorem depthFrom_append (us : List Token) :
    depthFrom depth (ts ++ us) = depthFrom (depthFrom depth ts) us :=
  List.foldl_append

theorem balance_append (ts us : List Token) : balance (ts ++ us) = balance ts + balance us := by
  simp only [balance, List.count_append]
  omega

theorem balance_cons (t : Token) (ts : List Token) :
    balance (t :: ts) = balance [t] + balance ts :=
  balance_append [t] ts

/-- A token changes the depth by its balance, unless it closes nothing. -/
theorem depthAfter_eq (h : ¬ (t = .bracket .closeRound ∧ depth = 0)) :
    (depthAfter depth t : Int) = depth + balance [t] := by
  unfold depthAfter
  split
  · rfl
  · have hd : depth ≠ 0 := fun hd => h ⟨rfl, hd⟩
    have hb : balance [.bracket .closeRound] = -1 := rfl
    omega
  · next ho hc =>
    have hb : balance [t] = 0 := by
      rw [balance, List.count_singleton, List.count_singleton, if_neg (by simpa using ho),
        if_neg (by simpa using hc)]
      rfl
    omega

/-- **As long as no bracket closes nothing, the depth grows by the balance.** -/
theorem depthFrom_eq (h : ∀ p, p <+: ts → 0 ≤ depth + balance p) :
    (depthFrom depth ts : Int) = depth + balance ts := by
  induction ts generalizing depth with
  | nil => exact (Int.add_zero _).symm
  | cons t ts ih =>
    have hstep : (depthAfter depth t : Int) = depth + balance [t] := by
      refine depthAfter_eq ?_
      rintro ⟨rfl, rfl⟩
      exact absurd (h [.bracket .closeRound] ⟨ts, rfl⟩) (by decide)
    rw [depthFrom_cons, ih, hstep, balance_cons t ts, Int.add_assoc]
    intro p hp
    have hcons := h (t :: p) (List.cons_prefix_cons.2 ⟨rfl, hp⟩)
    rw [balance_cons] at hcons
    omega

/-! ## Parts -/

theorem commaFrom_zero : CommaFrom depth (t :: ts) 0 ↔ t = .punctuation .comma ∧ depth = 0 := by
  simp [CommaFrom, depthFrom]

theorem commaFrom_succ : CommaFrom depth (t :: ts) (i + 1) ↔ CommaFrom (depthAfter depth t) ts i :=
  Iff.rfl

/-- A token that does not end a part joins the first one. -/
theorem exists_splitCommasFrom_cons (h : ¬ (t = .punctuation .comma ∧ depth = 0))
    (ts : List Token) : ∃ part parts, splitCommasFrom (depthAfter depth t) ts = part :: parts ∧
      splitCommasFrom depth (t :: ts) = (t :: part) :: parts := by
  obtain ⟨part, parts, hp⟩ := List.exists_cons_of_ne_nil
    (splitCommasFrom_ne_nil (depthAfter depth t) ts)
  exact ⟨part, parts, hp, by rw [splitCommasFrom_cons h, hp]; rfl⟩

theorem splitCommasFrom_comma (ts : List Token) :
    splitCommasFrom 0 (.punctuation .comma :: ts) = [] :: splitCommasFrom 0 ts := by
  rw [splitCommasFrom, if_pos ⟨rfl, rfl⟩]

/-- There is one part more than commas outside of brackets. -/
theorem length_splitCommasFrom (depth : Nat) (ts : List Token) : (splitCommasFrom depth ts).length =
    (List.range ts.length).countP (fun i => CommaFrom depth ts i) + 1 := by
  induction ts generalizing depth with
  | nil => rfl
  | cons t ts ih =>
    have hcount : (List.range (t :: ts).length).countP (fun i => CommaFrom depth (t :: ts) i) =
        (List.range ts.length).countP (fun i => CommaFrom (depthAfter depth t) ts i) +
          if t = .punctuation .comma ∧ depth = 0 then 1 else 0 := by
      rw [List.length_cons, List.range_succ_eq_map, List.countP_cons, List.countP_map]
      simp only [Function.comp_def, commaFrom_succ, commaFrom_zero, decide_eq_true_eq]
    rw [hcount]
    by_cases h : t = .punctuation .comma ∧ depth = 0
    · rw [if_pos h]
      obtain ⟨rfl, rfl⟩ := h
      rw [splitCommasFrom_comma, List.length_cons, ih]
      rfl
    · obtain ⟨part, parts, hp, hs⟩ := exists_splitCommasFrom_cons h ts
      rw [if_neg h, Nat.add_zero, ← ih, hp, hs]
      rfl

theorem length_upTo_cons (part : List Token) (before : List (List Token)) :
    (upTo (part :: before)).length = part.length + 1 + (upTo before).length := by
  rw [upTo, List.flatMap_cons, List.length_append, List.length_append]
  rfl

/-- No position that a part takes up is that of a comma outside of brackets. -/
theorem not_commaFrom {before after : List (List Token)} {part : List Token} {k : Nat}
    (h : splitCommasFrom depth ts = before ++ part :: after) (hk : k < part.length) :
    ¬ CommaFrom depth ts ((upTo before).length + k) := by
  induction ts generalizing depth before part k with
  | nil => exact fun hc => Option.some_ne_none _ hc.1.symm
  | cons t ts ih =>
    by_cases hc : t = .punctuation .comma ∧ depth = 0
    · obtain ⟨rfl, rfl⟩ := hc
      rw [splitCommasFrom_comma] at h
      cases before with
      | nil =>
        obtain ⟨rfl, -⟩ := List.cons.inj h
        cases hk
      | cons b before =>
        -- the comma ends an empty part, and every later position is one further
        obtain ⟨rfl, hb⟩ := List.cons.inj h
        have hpos : (upTo ([] :: before)).length + k = (upTo before).length + k + 1 := by
          rw [length_upTo_cons, List.length_nil]
          omega
        rw [hpos, commaFrom_succ]
        exact ih hb hk
    · obtain ⟨part', parts, hp, hs⟩ := exists_splitCommasFrom_cons hc ts
      rw [hs] at h
      cases before with
      | nil =>
        obtain ⟨rfl, rfl⟩ := List.cons.inj h
        cases k with
        | zero => exact fun h0 => hc (commaFrom_zero.1 h0)
        | succ k =>
          have hfirst : splitCommasFrom (depthAfter depth t) ts = [] ++ part' :: parts := hp
          exact ih hfirst (Nat.lt_of_succ_lt_succ hk)
      | cons b before =>
        obtain ⟨rfl, rfl⟩ := List.cons.inj h
        have hpos : (upTo ((t :: part') :: before)).length + k =
            (upTo (part' :: before)).length + k + 1 := by
          rw [length_upTo_cons, length_upTo_cons, List.length_cons]
          omega
        have hlater : splitCommasFrom (depthAfter depth t) ts =
            (part' :: before) ++ part :: after := hp
        rw [hpos, commaFrom_succ]
        exact ih hlater hk

/-- **Positions with no comma outside of brackets between them stand in one part.** -/
theorem exists_part (hij : i ≤ j) (hj : j < ts.length)
    (h : ∀ k, i ≤ k → k ≤ j → ¬ CommaFrom depth ts k) :
    ∃ before part after, splitCommasFrom depth ts = before ++ part :: after ∧
      (upTo before).length ≤ i ∧ j < (upTo before).length + part.length := by
  induction ts generalizing depth i j with
  | nil => cases hj
  | cons t ts ih =>
    by_cases hc : t = .punctuation .comma ∧ depth = 0
    · -- the comma stands in front of both positions
      cases i with
      | zero => exact absurd (commaFrom_zero.2 hc) (h 0 (Nat.le_refl 0) (Nat.zero_le j))
      | succ i =>
        obtain ⟨rfl, rfl⟩ := hc
        obtain ⟨j, rfl⟩ := Nat.exists_eq_add_one_of_ne_zero (Nat.ne_zero_of_lt hij)
        have hno : ∀ k, i ≤ k → k ≤ j → ¬ CommaFrom 0 ts k :=
          fun k hik hkj => h (k + 1) (Nat.succ_le_succ hik) (Nat.succ_le_succ hkj)
        obtain ⟨before, part, after, hs, hi, hj⟩ := ih (Nat.le_of_succ_le_succ hij)
          (Nat.lt_of_succ_lt_succ hj) hno
        refine ⟨[] :: before, part, after, by rw [splitCommasFrom_comma, hs]; rfl, ?_, ?_⟩
        · rw [length_upTo_cons, List.length_nil]
          omega
        · rw [length_upTo_cons, List.length_nil]
          omega
    · obtain ⟨part', parts, hp, hs⟩ := exists_splitCommasFrom_cons hc ts
      cases j with
      | zero => exact ⟨[], t :: part', parts, hs, Nat.zero_le i, Nat.succ_pos _⟩
      | succ j =>
        -- the token may be the first position itself, and is then in front of the first part
        obtain ⟨before, part, after, hb, hi, hj⟩ := ih (i := i - 1) (Nat.sub_le_of_le_add hij)
          (Nat.lt_of_succ_lt_succ hj)
          fun k hik hkj => h (k + 1) (Nat.le_add_of_sub_le hik) (Nat.succ_le_succ hkj)
        rw [hp] at hb
        cases before with
        | nil =>
          obtain ⟨rfl, rfl⟩ := List.cons.inj hb
          refine ⟨[], t :: part', parts, hs, Nat.zero_le i, ?_⟩
          rw [List.length_cons]
          omega
        | cons b before =>
          obtain ⟨rfl, rfl⟩ := List.cons.inj hb
          rw [length_upTo_cons] at hi hj
          refine ⟨(t :: part') :: before, part, after, hs, ?_, ?_⟩
          · rw [length_upTo_cons, List.length_cons]
            omega
          · rw [length_upTo_cons, List.length_cons]
            omega

theorem parted_splitCommas (h : ts ≠ []) : Parted ts (splitCommas ts) where
  joined_eq := joined_splitCommas ts
  length_eq := by
    rw [splitCommas, if_neg h]
    exact length_splitCommasFrom 0 ts
  no_comma before part after hp k hk := by
    rw [splitCommas, if_neg h] at hp
    exact not_commaFrom hp hk

/-! ## Closing brackets -/

/-- What is never closed behind a token is never closed from it on. -/
theorem le_balance_cons (hc : ¬ (t = .bracket .closeRound ∧ depth = 0))
    (h : ∀ p, p <+: ts → -(depthAfter depth t : Int) ≤ balance p) :
    ∀ p, p <+: t :: ts → -(depth : Int) ≤ balance p := by
  intro p hp
  cases p with
  | nil => exact Int.neg_nonpos_of_nonneg (Int.natCast_nonneg depth)
  | cons t' p =>
    obtain ⟨rfl, hpre⟩ := List.cons_prefix_cons.1 hp
    have hle := h p hpre
    rw [depthAfter_eq hc] at hle
    rw [balance_cons]
    omega

theorem le_balance_nil (depth : Nat) : ∀ p : List Token, p <+: [] → -(depth : Int) ≤ balance p := by
  intro p hp
  rw [List.prefix_nil.1 hp]
  exact Int.neg_nonpos_of_nonneg (Int.natCast_nonneg depth)

/-- In front of the bracket that closes `depth + 1` open ones, `depth` of them are closed, and
    never more. -/
theorem balance_of_splitClose {inner after : List Token}
    (h : splitClose depth ts = some (inner, after)) :
    balance inner = -depth ∧ ∀ p, p <+: inner → -(depth : Int) ≤ balance p := by
  induction ts generalizing depth inner with
  | nil => cases h
  | cons t ts ih =>
    by_cases hc : t = .bracket .closeRound ∧ depth = 0
    · rw [splitClose, if_pos hc] at h
      cases h
      obtain ⟨-, rfl⟩ := hc
      exact ⟨rfl, le_balance_nil 0⟩
    · rw [splitClose_cons hc] at h
      obtain ⟨⟨inner', after'⟩, hp, he⟩ := Option.map_eq_some_iff.1 h
      cases he
      obtain ⟨hi, hle⟩ := ih hp
      refine ⟨?_, le_balance_cons hc hle⟩
      rw [depthAfter_eq hc] at hi
      show balance (t :: inner') = _
      rw [balance_cons]
      omega

/-- Where no bracket closes `depth + 1` open ones, no more than `depth` are ever closed. -/
theorem balance_of_splitClose_none (h : splitClose depth ts = none) :
    ∀ p, p <+: ts → -(depth : Int) ≤ balance p := by
  induction ts generalizing depth with
  | nil => exact le_balance_nil depth
  | cons t ts ih =>
    by_cases hc : t = .bracket .closeRound ∧ depth = 0
    · rw [splitClose, if_pos hc] at h
      cases h
    · rw [splitClose_cons hc] at h
      exact le_balance_cons hc (ih (Option.map_eq_none_iff.1 h))

/-- The tokens from an opening bracket on. -/
theorem drop_of_open (hi : ts[i]? = some (.bracket .openRound)) :
    ts.drop i = .bracket .openRound :: ts.drop (i + 1) := by
  obtain ⟨hlt, hget⟩ := List.getElem?_eq_some_iff.1 hi
  rw [List.drop_eq_getElem_cons hlt, hget]

/-- The balance of the tokens from an opening bracket up to a position. -/
theorem balance_from_open (hi : ts[i]? = some (.bracket .openRound)) {k : Nat} (hk : i ≤ k) :
    balance ((ts.take (k + 1)).drop i) = 1 + balance ((ts.drop (i + 1)).take (k - i)) := by
  rw [List.drop_take, Nat.succ_sub hk, drop_of_open hi, List.take_succ_cons, balance_cons]
  rfl

/-- What is found for a bracket that is closed. -/
theorem splitClose_of_closing? (h : closing? ts i = some j) :
    i < j ∧ j < ts.length ∧
      splitClose 0 (ts.drop (i + 1)) = some (between ts i j, ts.drop (j + 1)) := by
  obtain ⟨⟨inner, after⟩, hs, rfl⟩ := Option.map_eq_some_iff.1 h
  have he := eq_of_splitClose hs
  have hlen := congrArg List.length he
  rw [List.length_drop, List.length_append, List.length_cons] at hlen
  have hinner : between ts i (i + 1 + inner.length) = inner := by
    rw [between, List.drop_take, Nat.add_sub_cancel_left, he, List.take_left]
  have hafter : ts.drop (i + 1 + inner.length + 1) = after := by
    rw [Nat.add_assoc, ← List.drop_drop, he, List.drop_length_add_append, List.drop_one,
      List.tail_cons]
  exact ⟨by dsimp only; omega, by dsimp only; omega, by rw [hs, hinner, hafter]⟩

theorem length_between (hij : i < j) (hj : j < ts.length) :
    (between ts i j).length + 1 = j - i := by
  rw [between, List.length_drop, List.length_take]
  omega

theorem isLeast_of_closing? (hi : ts[i]? = some (.bracket .openRound))
    (h : closing? ts i = some j) :
    IsLeast {k | i ≤ k ∧ k < ts.length ∧ balance ((ts.take (k + 1)).drop i) = 0} j := by
  obtain ⟨hij, hj, hs⟩ := splitClose_of_closing? h
  have he := eq_of_splitClose hs
  obtain ⟨hb, hle⟩ := balance_of_splitClose hs
  have hlen := length_between hij hj
  constructor
  · refine ⟨Nat.le_of_lt hij, hj, ?_⟩
    rw [balance_from_open hi (Nat.le_of_lt hij), he, ← hlen, List.take_length_add_append,
      balance_append, hb]
    rfl
  · rintro k ⟨hik, -, hk⟩
    by_contra hlt
    rw [balance_from_open hi hik, he, List.take_append_of_le_length (by omega)] at hk
    have hnn := hle _ (List.take_prefix (k - i) (between ts i j))
    omega

/-- **An opening bracket is closed at the least position up to which the brackets from it on are
    balanced**, and not at all if there is none. -/
theorem closing?_iff (hi : ts[i]? = some (.bracket .openRound)) :
    closing? ts i = some j ↔
      IsLeast {k | i ≤ k ∧ k < ts.length ∧ balance ((ts.take (k + 1)).drop i) = 0} j := by
  refine ⟨isLeast_of_closing? hi, fun h => ?_⟩
  cases hc : closing? ts i with
  | some j' => rw [(isLeast_of_closing? hi hc).unique h]
  | none =>
    obtain ⟨hij, -, hb⟩ := h.1
    have hle := balance_of_splitClose_none (Option.map_eq_none_iff.1 hc) _
      (List.take_prefix (j - i) _)
    rw [balance_from_open hi hij] at hb
    omega

/-- Tokens between a bracket and the one that closes it are one deeper than they are alone. -/
theorem depthFrom_between (hi : ts[i]? = some (.bracket .openRound)) {p : List Token}
    (h : ∀ q, q <+: p → 0 ≤ balance q) (hp : p <+: ts.drop (i + 1)) :
    depthFrom 0 (ts.take (i + 1 + p.length)) = depthFrom 0 (ts.take i) + 1 + depthFrom 0 p := by
  have htake : ts.take (i + 1 + p.length) = ts.take i ++ .bracket .openRound :: p := by
    rw [Nat.add_assoc, List.take_add, drop_of_open hi, Nat.add_comm 1, List.take_succ_cons,
      ← List.prefix_iff_eq_take.1 hp]
  -- no prefix closes more than it opens, so the depth grows by the balance from any depth on
  have hin : ∀ depth : Nat, (depthFrom depth p : Int) = depth + balance p :=
    fun depth => depthFrom_eq fun q hq => by have := h q hq; omega
  have hdeep := hin (depthFrom 0 (ts.take i) + 1)
  have halone := hin 0
  rw [htake, depthFrom_append, depthFrom_cons]
  show depthFrom (depthFrom 0 (ts.take i) + 1) p = _
  omega

theorem paired_of_closing? (hi : ts[i]? = some (.bracket .openRound)) (h : closing? ts i = some j) :
    Paired ts i j := by
  obtain ⟨hij, hj, hs⟩ := splitClose_of_closing? h
  obtain ⟨hb, hle⟩ := balance_of_splitClose hs
  have he := eq_of_splitClose hs
  have hlen := length_between hij hj
  have hdepth : ∀ m ≤ (between ts i j).length, depthFrom 0 (ts.take (i + 1 + m)) =
      depthFrom 0 (ts.take i) + 1 + depthFrom 0 ((between ts i j).take m) := by
    intro m hm
    have hpre : (between ts i j).take m <+: between ts i j := List.take_prefix _ _
    have hd := depthFrom_between hi (fun q hq => hle q (hq.trans hpre))
      (hpre.trans (he ▸ List.prefix_append _ _))
    rwa [List.length_take, Nat.min_eq_left hm] at hd
  have hno : ∀ k, i ≤ k → k ≤ j → ¬ CommaAt ts k := by
    rintro k hik hkj ⟨hk, hz⟩
    rcases Nat.eq_or_lt_of_le hik with rfl | hlt
    · rw [hi] at hk
      cases hk
    · have hd := hdepth (k - (i + 1)) (by omega)
      rw [Nat.add_sub_cancel' hlt, hz] at hd
      omega
  refine ⟨hs, hb, hle, hdepth, hno, ?_⟩
  rw [splitCommas, if_neg (List.ne_nil_of_length_pos (Nat.zero_lt_of_lt hj))]
  exact exists_part (Nat.le_of_lt hij) hj hno

end

/-- **Splitting loses and invents nothing.**  The parts of a run that is not empty, joined by
    commas, are the run; there is one more of them than commas outside of brackets, and none of
    these commas stands in a part.  An opening bracket is closed at the least position up to which
    the brackets from it on are balanced.  The tokens between are balanced, none of their prefixes
    closes more than it opens, and all of them stand in one part. -/
theorem parted_paired (ts : List Token) :
    (ts ≠ [] → Parted ts (splitCommas ts)) ∧
      ∀ i, ts[i]? = some (.bracket .openRound) → ∀ j,
        (closing? ts i = some j ↔
          IsLeast {k | i ≤ k ∧ k < ts.length ∧ balance ((ts.take (k + 1)).drop i) = 0} j) ∧
        (closing? ts i = some j → Paired ts i j) :=
  ⟨parted_splitCommas, fun _ hi _ => ⟨closing?_iff hi, paired_of_closing? hi⟩⟩

/-- A run with brackets that match nothing: `) , f ( 1 , ( 2 , 3 ) ) , (`. -/
def strayRun : List Token :=
  [.bracket .closeRound, .punctuation .comma, .identifier ⟨"f", 1⟩, .bracket .openRound,
    .integer ⟨"1", 1⟩, .punctuation .comma, .bracket .openRound, .integer ⟨"2", 1⟩,
    .punctuation .comma, .integer ⟨"3", 1⟩, .bracket .closeRound, .bracket .closeRound,
    .punctuation .comma, .bracket .openRound]

theorem parted_paired_stray :
    (strayRun ≠ [] ∧ Parted strayRun (splitCommas strayRun) ∧
      (splitCommas strayRun).map List.length = [1, 10, 1]) ∧
    strayRun[3]? = some (.bracket .openRound) ∧ closing? strayRun 3 = some 11 ∧
      IsLeast {k | 3 ≤ k ∧ k < strayRun.length ∧
        balance ((strayRun.take (k + 1)).drop 3) = 0} 11 ∧ Paired strayRun 3 11 := by
  have hne : strayRun ≠ [] := List.cons_ne_nil _ _
  have hc : closing? strayRun 3 = some 11 := rfl
  obtain ⟨hparts, hpairs⟩ := parted_paired strayRun
  obtain ⟨hleast, hpaired⟩ := hpairs 3 rfl 11
  exact ⟨⟨hne, hparts hne, rfl⟩, rfl, hc, hleast.1 hc, hpaired hc⟩

end Naskah.Expression
