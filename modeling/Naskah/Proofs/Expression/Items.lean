/-
  Reading the items of an expression, one equation for each kind of token: tokens that are passed
  over, operators, brackets, calls, and operands of one token.

  `Itemizes` puts together what the equations say of a run whose items are read to the end
  (`items_iff`).  Facts about what an expression accepts are proved by induction on it.
-/
import Naskah.Expression.Compile
import Naskah.Proofs.Outcome

namespace Naskah.Expression

section
variable (scope : Resolver) (line : UInt32) (depth : Nat) (read : List Item) (ts : List Token)

theorem items_nil : items scope line depth read [] = complete line depth read := by
  rw [items]

theorem items_silent {t : Token} (h : isSilent t = true) :
    items scope line depth read (t :: ts) = items scope line depth read ts := by
  rw [items.eq_def]
  simp only [if_pos h]

theorem isSilent_of_operator {t : Token} {o : Operator} (h : operator? t = some o) :
    isSilent t = false := by
  cases t <;> simp_all [operator?, isSilent]

theorem isSilent_of_callee {t : Token} {callee : Callee} (h : callee? t = some callee) :
    isSilent t = false := by
  cases t <;> simp_all [callee?, isSilent]

theorem items_operator {t : Token} {o : Operator} (h : operator? t = some o) :
    items scope line depth read (t :: ts) =
      if o = .negation ∨ !isComplete read then illegal t line
      else items scope line depth (.operator o :: read) ts := by
  have hs := isSilent_of_operator h
  rw [items.eq_def]
  simp only [hs, Bool.false_eq_true, if_false, h]

theorem items_open :
    items scope line depth read (.bracket .openRound :: ts) =
      if isComplete read then illegal (.bracket .openRound) line
      else items scope line (depth + 1) (.openRound :: read) ts := by
  rw [items.eq_def]
  simp only [isSilent, operator?, Bool.false_eq_true, if_false]

theorem items_close :
    items scope line depth read (.bracket .closeRound :: ts) =
      if depth = 0 then refuse (.unexpected ")") line
      else if !isComplete read then illegal (.bracket .closeRound) line
      else items scope line (depth - 1) (.closeRound :: read) ts := by
  rw [items.eq_def]
  simp only [isSilent, operator?, Bool.false_eq_true, if_false]

/-- A call is read together with its arguments. -/
theorem items_call {t : Token} {callee : Callee} (h : callee? t = some callee) :
    items scope line depth read (t :: .bracket .openRound :: ts) =
      (callee.check scope >>= fun _ =>
        match splitClose 0 ts with
        | none => refuse .unclosedRound line
        | some (inner, after) =>
          compileArguments scope line inner >>= fun args =>
            if isComplete read then illegal t line
            else items scope line depth (.operand (callee.operand args) :: read) after) := by
  have hs := isSilent_of_callee h
  have ho : operator? t = none := by
    cases t <;> simp_all [callee?, operator?]
    split at h <;> simp_all
  rw [items.eq_def]
  simp only [hs, Bool.false_eq_true, if_false, ho]
  split
  · simp [callee?] at h
  · simp [callee?] at h
  · next _ _ _ callee' ts' _ _ hts hc =>
    cases hts
    rw [h] at hc; cases hc
    congr 1; funext _
    cases splitClose 0 ts with
    | none => rfl
    | some p =>
      have ha : ((splitCommas p.1).attach.mapM fun x => items scope line 0 [] x.val >>= itemsCode) =
          compileArguments scope line p.1 := by
        rw [List.mapM_subtype (g := compile scope line) fun _ _ => rfl, List.unattach_attach]; rfl
      exact congrArg (· >>= _) ha
  · next hne => exact absurd rfl (hne _ _ h)

/-- Any other token is an operand of its own. -/
theorem items_simple {t : Token} (hs : isSilent t = false) (ho : operator? t = none)
    (hopen : t ≠ .bracket .openRound) (hclose : t ≠ .bracket .closeRound)
    (hc : callee? t = none ∨ ts.head? ≠ some (.bracket .openRound)) :
    items scope line depth read (t :: ts) =
      (simpleOperand scope line t >>= fun o =>
        if isComplete read then illegal t line
        else items scope line depth (.operand o :: read) ts) := by
  rw [items.eq_def]
  simp only [hs, ho, Bool.false_eq_true, if_false]
  split
  · exact absurd rfl hopen
  · exact absurd rfl hclose
  · next hc' => simp [hc'] at hc
  · rfl

end

/-- Items that end with an operand make an expression. -/
theorem complete_of_isComplete {read : List Item} (h : isComplete read = true) (line : UInt32) :
    complete line 0 read = .ok read.reverse := by
  cases read with
  | nil => cases h
  | cons i is =>
    cases i with
    | operand o | closeRound => rfl
    | operator o | openRound => cases h

/-- No bracket is open where the items are complete. -/
theorem of_complete {line : UInt32} {depth : Nat} {read is : List Item}
    (h : complete line depth read = .ok is) : depth = 0 ∧ is = read.reverse := by
  unfold complete at h
  split at h
  · cases h
  · next hd =>
    refine ⟨Nat.eq_zero_of_not_pos hd, ?_⟩
    split at h <;> cases h
    rfl

/-- If the items do not end with an open bracket, they end with an operand. -/
theorem isComplete_of_complete {line : UInt32} {depth : Nat} {read is : List Item}
    (h : complete line depth read = .ok is) (hd : read.head? = some .openRound → 0 < depth) :
    isComplete read = true := by
  obtain ⟨rfl, -⟩ := of_complete h
  match read, hd with
  | [], _ | .operator _ :: _, _ => cases h
  | .openRound :: _, hd => exact absurd (hd rfl) (Nat.lt_irrefl 0)
  | .operand _ :: _, _ | .closeRound :: _, _ => rfl

/-! ## What is read -/

/-- How items are read: inside `depth` open brackets and after the items `read`, the latest first,
    tokens give all items of an expression. -/
inductive Itemizes (r : Resolver) (line : UInt32) :
    Nat → List Item → List Token → List Item → Prop
  | done {depth : Nat} {read is : List Item} (hc : complete line depth read = .ok is) :
      Itemizes r line depth read [] is
  | silent {depth : Nat} {read is : List Item} {t : Token} {ts : List Token}
      (hs : isSilent t = true) (h : Itemizes r line depth read ts is) :
      Itemizes r line depth read (t :: ts) is
  | sign {depth : Nat} {read is : List Item} {t : Token} {ts : List Token} {o : Operator}
      (ho : operator? t = some o) (hn : o ≠ .negation) (hc : isComplete read = true)
      (h : Itemizes r line depth (.operator o :: read) ts is) :
      Itemizes r line depth read (t :: ts) is
  | opens {depth : Nat} {read is : List Item} {ts : List Token} (hc : isComplete read = false)
      (h : Itemizes r line (depth + 1) (.openRound :: read) ts is) :
      Itemizes r line depth read (.bracket .openRound :: ts) is
  | closes {depth : Nat} {read is : List Item} {ts : List Token} (hc : isComplete read = true)
      (h : Itemizes r line depth (.closeRound :: read) ts is) :
      Itemizes r line (depth + 1) read (.bracket .closeRound :: ts) is
  /-- The arguments of a call are read by themselves. -/
  | call {depth : Nat} {read is : List Item} {t : Token} {callee : Callee}
      {inner after ts : List Token} {args : List (List Asm)} {f : List Token → List Item}
      (hcallee : callee? t = some callee) (hcheck : callee.check r = .ok ())
      (hsplit : splitClose 0 ts = some (inner, after))
      (hparts : ∀ part ∈ splitCommas inner, Itemizes r line 0 [] part (f part))
      (hargs : compileArguments r line inner = .ok args) (hc : isComplete read = false)
      (h : Itemizes r line depth (.operand (callee.operand args) :: read) after is) :
      Itemizes r line depth read (t :: .bracket .openRound :: ts) is
  | simple {depth : Nat} {read is : List Item} {t : Token} {ts : List Token} {o : Operand}
      (hs : isSilent t = false) (ho : operator? t = none) (hopen : t ≠ .bracket .openRound)
      (hclose : t ≠ .bracket .closeRound)
      (hcall : callee? t = none ∨ ts.head? ≠ some (.bracket .openRound))
      (hsimple : simpleOperand r line t = .ok o) (hc : isComplete read = false)
      (h : Itemizes r line depth (.operand o :: read) ts is) :
      Itemizes r line depth read (t :: ts) is

section
variable {r : Resolver} {line : UInt32} {depth : Nat} {read is : List Item} {ts : List Token}

theorem Itemizes.items_eq (h : Itemizes r line depth read ts is) :
    items r line depth read ts = .ok is := by
  induction h with
  | done hc => rw [items_nil, hc]
  | silent hs _ ih => rw [items_silent _ _ _ _ _ hs, ih]
  | sign ho hn hc _ ih => rw [items_operator _ _ _ _ _ ho, if_neg (by simp [hn, hc]), ih]
  | opens hc _ ih => rw [items_open, if_neg (by simp [hc]), ih]
  | closes hc _ ih => rw [items_close, if_neg (by simp), if_neg (by simp [hc])]; exact ih
  | call hcallee hcheck hsplit _ hargs hc _ _ ih =>
    rw [items_call _ _ _ _ _ hcallee, hcheck, hsplit]
    show (compileArguments r line _ >>= _) = _
    rw [hargs]
    exact (if_neg (by simp [hc])).trans ih
  | simple hs ho hopen hclose hcall hsimple hc _ ih =>
    rw [items_simple _ _ _ _ _ hs ho hopen hclose hcall, hsimple]
    exact (if_neg (by simp [hc])).trans ih

/-- A token that calls nothing, or stands before no bracket. -/
theorem not_called {t : Token} {ts : List Token}
    (h : ∀ (callee : Callee) (ts' : List Token), callee? t = some callee →
      ts = .bracket .openRound :: ts' → False) :
    callee? t = none ∨ ts.head? ≠ some (.bracket .openRound) := by
  cases hc : callee? t with
  | none => exact Or.inl rfl
  | some callee =>
    refine Or.inr fun hts => ?_
    obtain ⟨ts', rfl⟩ := List.head?_eq_some_iff.1 hts
    exact h callee ts' hc rfl

/-- Arguments that compile have items. -/
theorem items_of_compileArguments {inner : List Token} {args : List (List Asm)}
    (h : compileArguments r line inner = .ok args) :
    ∀ part ∈ splitCommas inner, ∃ its, items r line 0 [] part = .ok its :=
  (Ensures.mapM_mem (fun _ _ => Ensures.after fun its hits _ _ => ⟨its, hits⟩) args h).2

/-- The items of a run, if there are any. -/
theorem items_itemizes : Ensures (items r line depth read ts) (Itemizes r line depth read ts) := by
  induction depth, read, ts using items.induct with
  | case1 depth read =>
    rw [items_nil]
    exact fun is h => .done h
  | case2 depth read t ts hs ih =>
    rw [items_silent _ _ _ _ _ hs]
    exact ih.mono fun is h => .silent hs h
  | case3 depth read t ts _ o ho hc =>
    rw [items_operator _ _ _ _ _ ho, if_pos hc]
    exact .refuse _ _
  | case4 depth read t ts _ o ho hc ih =>
    rw [items_operator _ _ _ _ _ ho, if_neg hc]
    simp only [not_or, Bool.not_eq_true', Bool.not_eq_false] at hc
    exact ih.mono fun is h => .sign ho hc.1 hc.2 h
  | case5 depth read ts hc =>
    rw [items_open, if_pos hc]
    exact .refuse _ _
  | case6 depth read ts hc _ _ ih =>
    rw [items_open, if_neg hc]
    exact ih.mono fun is h => .opens (Bool.eq_false_iff.2 hc) h
  | case7 read ts =>
    rw [items_close, if_pos rfl]
    exact .refuse _ _
  | case8 depth read ts hz hc =>
    rw [items_close, if_neg hz, if_pos hc]
    exact .refuse _ _
  | case9 depth read ts hz hc _ _ ih =>
    rw [items_close, if_neg hz, if_neg hc]
    obtain ⟨depth, rfl⟩ := Nat.exists_eq_succ_of_ne_zero hz
    exact ih.mono fun is h => .closes (by simpa using hc) h
  | case10 depth read t callee ts _ _ _ _ hcallee ihparts ihafter =>
    rw [items_call _ _ _ _ _ hcallee]
    refine Ensures.after fun _ hcheck => ?_
    split
    · exact .refuse _ _
    · next inner after hsplit =>
      refine Ensures.after fun args hargs => ?_
      split
      · exact .refuse _ _
      · next hc =>
        refine (ihafter inner after hsplit args).mono fun is h => ?_
        refine .call (f := fun part => (items r line 0 [] part).toOption.getD []) hcallee
          hcheck hsplit (fun part hpart => ?_) hargs (Bool.eq_false_iff.2 hc) h
        obtain ⟨its, hits⟩ := items_of_compileArguments hargs part hpart
        rw [hits]
        exact ihparts inner after hsplit part hpart its hits
  | case11 depth read t ts hopen hclose hs ho hcall ih =>
    have hs := Bool.eq_false_iff.2 hs
    have hcall := not_called hcall
    rw [items_simple _ _ _ _ _ hs ho hopen hclose hcall]
    refine Ensures.after fun o hsimple => ?_
    split
    · exact .refuse _ _
    · next hc =>
      exact (ih o).mono fun is h =>
        .simple hs ho hopen hclose hcall hsimple (Bool.eq_false_iff.2 hc) h

/-- **The items of a run.** -/
theorem items_iff : items r line depth read ts = .ok is ↔ Itemizes r line depth read ts is :=
  ⟨items_itemizes is, Itemizes.items_eq⟩

end

/-! ## Code -/

/-- The code of an operand joins the groups of code before it. -/
theorem foldlM_operand {o : Operand} {code : List Asm} (h : o.code = .ok code)
    (rest : List Postfix) (groups : List (List Asm)) :
    (.operand o :: rest).foldlM combine groups = rest.foldlM combine (code :: groups) := by
  rw [List.foldlM_cons, combine, h]
  rfl

end Naskah.Expression
