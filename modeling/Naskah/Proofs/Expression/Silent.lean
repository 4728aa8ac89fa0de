/-
  Tokens that an expression passes over.  What compiles also compiles without them, to the same
  code (`compile_visible`), so that the tree of an expression is that of its other tokens
  (`exists_tree`).
-/
import Naskah.Proofs.Expression.Grammar

namespace Naskah.Expression

/-- The tokens that an expression does not pass over. -/
def visible (ts : List Token) : List Token :=
  ts.filter fun t => !isSilent t

section
variable {t : Token} {ts : List Token} {r : Resolver} {line : UInt32} {depth : Nat}
  {read : List Item}

@[simp] theorem visible_nil : visible [] = [] := rfl

theorem visible_silent (h : isSilent t = true) : visible (t :: ts) = visible ts := by
  rw [visible, List.filter_cons_of_neg (by simp [h])]
  rfl

theorem visible_cons (h : isSilent t = false) : visible (t :: ts) = t :: visible ts := by
  rw [visible, List.filter_cons_of_pos (by simp [h])]
  rfl

theorem isSilent_of_mem_visible (h : t ∈ visible ts) : isSilent t = false := by
  simpa using (List.mem_filter.1 h).2

theorem depthAfter_silent (h : isSilent t = true) (depth : Nat) : depthAfter depth t = depth := by
  cases t with
  | bracket b => cases b <;> first | rfl | cases h
  | identifier | integer | float | boolean | string | keyword | operator | compound |
    punctuation => rfl

/-! ## Brackets and commas -/

theorem splitClose_visible {inner after : List Token}
    (h : splitClose depth ts = some (inner, after)) :
    splitClose depth (visible ts) = some (visible inner, visible after) := by
  induction ts generalizing depth inner with
  | nil => cases h
  | cons t ts ih =>
    by_cases hc : t = .bracket .closeRound ∧ depth = 0
    · rw [splitClose, if_pos hc] at h
      cases h
      rw [visible_cons (by rw [hc.1]; rfl), splitClose, if_pos hc]
      rfl
    · rw [splitClose_cons hc] at h
      obtain ⟨⟨i, a⟩, hp, he⟩ := Option.map_eq_some_iff.1 h
      cases he
      cases hs : isSilent t with
      | true =>
        rw [depthAfter_silent hs] at hp
        rw [visible_silent hs, visible_silent hs]
        exact ih hp
      | false =>
        rw [visible_cons hs, visible_cons hs, splitClose_cons hc, ih hp]
        rfl

theorem map_visible_prepend (parts : List (List Token)) :
    (prepend [t] parts).map visible =
      if isSilent t then (prepend [] parts).map visible
      else prepend [t] (parts.map visible) := by
  cases hs : isSilent t with
  | true => cases parts <;> simp [prepend, visible_silent hs]
  | false => cases parts <;> simp [prepend, visible_cons hs]

theorem splitCommasFrom_visible (depth : Nat) (ts : List Token) :
    splitCommasFrom depth (visible ts) = (splitCommasFrom depth ts).map visible := by
  induction ts generalizing depth with
  | nil => rfl
  | cons t ts ih =>
    by_cases hc : t = .punctuation .comma ∧ depth = 0
    · rw [visible_cons (by rw [hc.1]; rfl), splitCommasFrom, splitCommasFrom, if_pos hc, if_pos hc,
        ih]
      rfl
    · rw [splitCommasFrom_cons hc, map_visible_prepend]
      split
      · next hs =>
        rw [visible_silent hs, ih, depthAfter_silent hs]
        cases hp : splitCommasFrom depth ts with
        | nil => exact absurd hp (splitCommasFrom_ne_nil _ _)
        | cons part parts => rfl
      · next hs =>
        rw [visible_cons (Bool.eq_false_iff.2 hs), splitCommasFrom_cons hc, ih]

theorem compile_nil : compile r line [] = refuse .noExpression line := by
  rw [compile, items_nil]
  rfl

/-- Computations on other elements that give the same. -/
theorem mapM_map {α β : Type} {f : α → Except Diagnostic β} {g : α → α} :
    ∀ {xs : List α}, (∀ a ∈ xs, Ensures (f a) fun b => f (g a) = .ok b) →
      Ensures (xs.mapM f) fun bs => (xs.map g).mapM f = .ok bs
  | [], _ => .pure rfl
  | a :: xs, h => by
    rw [List.forall_mem_cons] at h
    rw [List.mapM_cons, List.map_cons, List.mapM_cons]
    refine h.1.bind fun b _ hb => (mapM_map h.2).bind fun bs _ hbs => .pure ?_
    rw [hb, hbs]
    rfl

/-- Silent tokens alone are no argument, so that no arguments come from an empty run only. -/
theorem compileArguments_visible
    (h : ∀ part ∈ splitCommas ts, Ensures (compile r line part) fun code =>
      compile r line (visible part) = .ok code) :
    Ensures (compileArguments r line ts) fun args =>
      compileArguments r line (visible ts) = .ok args := by
  by_cases hts : ts = []
  · rw [hts]
    exact fun args hargs => hargs
  · unfold compileArguments splitCommas at *
    rw [if_neg hts] at h ⊢
    refine (mapM_map h).mono fun args hargs => ?_
    rw [← splitCommasFrom_visible] at hargs
    have hne : visible ts ≠ [] := by
      intro hnil
      rw [hnil, splitCommasFrom, List.mapM_cons, compile_nil] at hargs
      cases hargs
    rw [if_neg hne]
    exact hargs

/-! ## Expressions -/

/-- No bracket is opened behind an operand. -/
theorem head_ne_open {o : Operand} {is : List Item}
    (h : items r line depth (.operand o :: read) ts = .ok is) :
    ts.head? ≠ some (.bracket .openRound) := by
  intro hhead
  obtain ⟨rest, rfl⟩ := List.head?_eq_some_iff.1 hhead
  rw [items_open, if_pos (show isComplete (.operand o :: read) = true from rfl)] at h
  cases h

/-- **Silent tokens are passed over wherever they stand.** -/
theorem Itemizes.visible {is : List Item} (h : Itemizes r line depth read ts is) :
    items r line depth read (visible ts) = .ok is := by
  induction h with
  | done hc => rw [visible_nil, items_nil, hc]
  | silent hs _ ih => rw [visible_silent hs, ih]
  | sign ho hn hc _ ih =>
    rw [visible_cons (isSilent_of_operator ho), items_operator _ _ _ _ _ ho,
      if_neg (by simp [hn, hc]), ih]
  | opens hc _ ih => rw [visible_cons rfl, items_open, if_neg (by simp [hc]), ih]
  | closes hc _ ih =>
    rw [visible_cons rfl, items_close, if_neg (by simp), if_neg (by simp [hc])]
    exact ih
  | @call _ _ _ t callee inner _ _ args _ hcallee hcheck hsplit hparts hargs hc _ ihparts ih =>
    have hvisible : compileArguments r line (Expression.visible inner) = .ok args := by
      refine compileArguments_visible (fun part hpart code hcode => ?_) args hargs
      rw [compile, (hparts part hpart).items_eq] at hcode
      rw [compile, ihparts part hpart]
      exact hcode
    rw [visible_cons (isSilent_of_callee hcallee), visible_cons rfl, items_call _ _ _ _ _ hcallee,
      hcheck, splitClose_visible hsplit]
    show (compileArguments r line (Expression.visible inner) >>= _) = _
    rw [hvisible]
    exact (if_neg (by simp [hc])).trans ih
  | simple hs ho hopen hclose _ hsimple hc _ ih =>
    -- an open bracket behind an operand is refused, also behind silent tokens
    rw [visible_cons hs, items_simple _ _ _ _ _ hs ho hopen hclose (.inr (head_ne_open ih)),
      hsimple]
    exact (if_neg (by simp [hc])).trans ih

/-- **What compiles also compiles without its silent tokens.** -/
theorem compile_visible (r : Resolver) (line : UInt32) (ts : List Token) :
    Ensures (compile r line ts) fun code => compile r line (visible ts) = .ok code := by
  refine items_itemizes.bind fun is _ his code hcode => ?_
  rw [compile, his.visible]
  exact hcode

/-- The code of an expression is that of the ordered tree with its visible tokens. -/
theorem code_of_tree {code : List Asm} {t : Term} (h : compile r line ts = .ok code)
    (ht : t.Proper r) (he : t.tokens = visible ts) : t.code = code := by
  have hvis := compile_visible r line ts code h
  rw [← he, ht.compile line] at hvis
  exact Except.ok.inj hvis

/-- **The tree of an expression.** -/
theorem exists_tree {code : List Asm} (h : compile r line ts = .ok code) :
    ∃ t : Term, t.Proper r ∧ t.tokens = visible ts :=
  (compile_derives line (fun _ ht => isSilent_of_mem_visible ht) code
    (compile_visible r line ts code h)).hasTree

end

end Naskah.Expression
