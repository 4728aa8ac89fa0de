/-
  Reading the heads of blocks.  What stands between round brackets after the words of a block
  becomes its header (`takeAll_guard`, `takeAll_definition`, `takeAll_entry`), and the bracket that
  follows begins the block (`takeAll_begun`).
-/
import Naskah.Proofs.Tree.SimpleStatements

namespace Naskah

open Scan Naskah.Tree

namespace Tree

/-! ## Parameters -/

/-- The tokens of the parameters after the first one. -/
def binderTokens (line : UInt32) : List Binder → List Token
  | [] => []
  | b :: bs => .punctuation .comma :: (b.tokens line ++ binderTokens line bs)

def paramTokens (line : UInt32) : List Binder → List Token
  | [] => []
  | b :: bs => b.tokens line ++ binderTokens line bs

section
variable (line : UInt32)

theorem Binder.balanced (b : Binder) : Expression.Balanced 0 (b.tokens line) := by
  rw [Binder.tokens]
  cases b.type with
  | none => exact .token (fun _ => rfl) (by simp) (by simp)
  | some t =>
    exact .append (a := [_]) (.token (fun _ => rfl) (by simp) (by simp))
      (.append (a := [_]) (.token (fun _ => rfl) (by simp) (by simp))
        (.token (fun _ => rfl) (by simp) (by simp)))

theorem splitCommasFrom_params (b : Binder) : ∀ bs : List Binder,
    Expression.splitCommasFrom 0 (b.tokens line ++ binderTokens line bs) =
      b.tokens line :: bs.map (Binder.tokens line)
  | [] => by
    rw [binderTokens, List.append_nil, (b.balanced line).splitCommasFrom_eq]
    rfl
  | b' :: bs => by
    rw [binderTokens, (b.balanced line).splitCommasFrom_comma, splitCommasFrom_params b' bs]
    rfl

theorem splitCommas_params : ∀ params : List Binder,
    Expression.splitCommas (paramTokens line params) = params.map (Binder.tokens line)
  | [] => rfl
  | b :: bs => by
    rw [paramTokens, Expression.splitCommas, if_neg (by simp [Binder.tokens]),
      splitCommasFrom_params]
    rfl

theorem mapM_param (params : List Binder) :
    (params.map (Binder.tokens line)).mapM (Desk.param line) = .ok (params.map Binder.param) := by
  have hb : ∀ b : Binder, Desk.param line (b.tokens line) = .ok b.param := by
    intro b
    rw [Binder.tokens, Binder.param, Binder.typeName]
    cases b.type <;> rfl
  induction params with
  | nil => rfl
  | cons b bs ih =>
    rw [List.map_cons, List.mapM_cons, hb, ih]
    rfl

end

end Tree

namespace Desk

variable {d d' : Desk} {m : Nat} {line : UInt32} {rest : List Char}

theorem takeAll_binders : ∀ {bs : List Binder} {d : Desk},
    bs.all (fun b => isLegalName b.name) = true → d.nesting.inString = false →
      ∀ {line : UInt32} {rest : List Char}, Apart rest →
        d.takeAll ⟨renderBinders bs ++ rest, line⟩ =
          (d.gather (binderTokens line bs)).takeAll ⟨rest, line⟩
  | [], d, _, _, line, rest, _ => by
    rw [renderBinders, binderTokens, gather_nil, List.nil_append]
  | b :: bs, d, h, hq, line, rest, hr => by
    rw [List.all_cons, Bool.and_eq_true] at h
    have hbs : Apart (renderBinders bs ++ rest) := by
      cases bs with
      | nil => exact hr
      | cons b' bs => exact .cons rfl _
    have hb : Apart (b.render ++ (renderBinders bs ++ rest)) := .cons rfl _
    rw [renderBinders, binderTokens]
    simp only [List.append_assoc]
    rw [takeAll_joined spelled_comma hq hb rfl, takeAll_binder (d := d.gather _) h.1 hq hbs,
      takeAll_binders (d := (d.gather _).gather _) h.2 hq hr, gather_gather, gather_gather]
    rfl

theorem takeAll_params {params : List Binder} (h : params.all (fun b => isLegalName b.name) = true)
    (hq : d.nesting.inString = false) (hr : Apart rest) :
    d.takeAll ⟨renderParams params ++ rest, line⟩ =
      (d.gather (paramTokens line params)).takeAll ⟨rest, line⟩ := by
  cases params with
  | nil => rw [renderParams, paramTokens, gather_nil, List.nil_append]
  | cons b bs =>
    rw [List.all_cons, Bool.and_eq_true] at h
    have hbs : Apart (renderBinders bs ++ rest) := by
      cases bs with
      | nil => exact hr
      | cons b' bs => exact .cons rfl _
    rw [renderParams, paramTokens, List.append_assoc, takeAll_binder h.1 hq hbs,
      takeAll_binders (d := d.gather _) h.2 hq hr, gather_gather]

theorem apart_params (hr : Apart rest) : ∀ params : List Binder, Apart (renderParams params ++ rest)
  | [] => hr
  | _ :: _ => .cons rfl _

/-! ## Brackets of headers -/

/-- The beginning of a body: its bracket and the end of its line. -/
theorem search_openCurly (line : UInt32) (rest : List Char) :
    (Cursor.mk (spaced "\x7b" ++ '\n' :: rest) line).search "\x7b" = .ok () :=
  Cursor.search_spaced line (.bracket .openCurly) rfl rfl (.cons rfl rest)

/-- The desk that a header has been read at. -/
def headed (d : Desk) (h : Header) : Desk :=
  { d with header := some h }

theorem Idle.atStart_gather (hi : d.Idle m) (ts : List Token) : (d.gather ts).atStart = true := by
  rw [atStart, hi.run_gather]
  simp [gather, hi.outer]

/-- **What stands between round brackets becomes a header.**  The first part of the desk that
    changes is the list of functions, at the opening bracket. -/
theorem takeAll_header (kind : RoundKind) {ts : List Token} (us : List Token) (inner : List Char)
    {h : Header} (hi : d'.Idle m) (hq : d.nesting.inString = false)
    (ho : (d.gather ts).openRound line = .ok ((d'.gather ts).opened kind))
    (ha : Apart (inner ++ (spaced ")" ++ (spaced "\x7b" ++ '\n' :: rest))))
    (hin : ∀ more, Apart more → ((d'.gather ts).opened kind).takeAll ⟨inner ++ more, line⟩ =
      (((d'.gather ts).opened kind).gather us).takeAll ⟨more, line⟩)
    (he : ∀ d₁ : Desk, d₁.context = d'.context → ∀ c : Cursor, c.line = line →
      c.search "\x7b" = .ok () → d₁.run.tokens.drop (ts.length + 1) = us →
        d₁.endRound ⟨kind, ts.length⟩ c = .ok (d₁.clear.headed h)) :
    (d.gather ts).takeAll
        ⟨spaced "(" ++ (inner ++ (spaced ")" ++ (spaced "\x7b" ++ '\n' :: rest))), line⟩ =
      (d'.headed h).takeAll ⟨spaced "\x7b" ++ '\n' :: rest, line⟩ := by
  let d₁ := d'.gather (ts ++ .bracket .openRound :: us)
  have htokens : d₁.run.tokens = ts ++ .bracket .openRound :: us := by simp [d₁, gather, hi.run]
  have hclose : (((d'.gather ts).opened kind).gather us).closeRound
      ⟨spaced "\x7b" ++ '\n' :: rest, line⟩ = .ok (d'.headed h) := by
    have hend := he d₁ rfl _ rfl (search_openCurly line rest) (by simp [htokens])
    rw [hi.clear_gather] at hend
    rw [← hend]
    simp [closeRound, opened, gather, d₁, hi.run]
  rw [takeAll_spaced (d := d.gather ts) spelled_openRound hq ha ho, hin _ (apart_spaced _ _)]
  exact takeAll_spaced spelled_closeRound rfl (apart_spaced _ _) hclose

theorem roundKind_first (hi : d.Idle m) :
    (d.gather [.keyword .cond]).roundKind line = .ok (.guard .first) := by
  simp [roundKind, definedName?, headerKind, hi.run_gather, hi.atStart_gather, Keyword.opensBlock]

theorem roundKind_further (hi : d.Idle m) :
    (d.gather [.keyword .otherwise, .keyword .cond]).roundKind line = .ok (.guard .further) := by
  simp [roundKind, definedName?, headerKind, hi.run_gather, hi.atStart_gather, Keyword.opensBlock]

theorem roundKind_loop (hi : d.Idle m) :
    (d.gather [.keyword .loop]).roundKind line = .ok (.guard .loop) := by
  simp [roundKind, definedName?, headerKind, hi.run_gather, hi.atStart_gather, Keyword.opensBlock]

/-- A guard is compiled when its bracket is closed. -/
theorem takeAll_guard {kind : GuardKind} {ts : List Token} {e : Expr} (hi : d.Idle m)
    (hk : (d.gather ts).roundKind line = .ok (.guard kind)) (he : e.fits d.context = true) :
    (d.gather ts).takeAll
        ⟨spaced "(" ++ (e.render ++ (spaced ")" ++ (spaced "\x7b" ++ '\n' :: rest))), line⟩ =
      (d.headed (.guarded kind e.asm line)).takeAll
        ⟨spaced "\x7b" ++ '\n' :: rest, line⟩ := by
  refine takeAll_header (.guard kind) (e.tokens line) e.render hi hi.inString ?_
    (e.apart_render _) ?_ ?_
  · rw [openRound, hk]
    rfl
  · intro more hm
    exact takeAll_expr (d := (d.gather ts).opened _) he (atOperand_opened _ _) hm
      (by simp [atHead, not_atStart_opened])
  · intro d₁ hc c hl hs ht
    have hx : d₁.expression c.line (e.tokens c.line) = .ok e.asm :=
      expression_tokens (by rw [hc]; exact he)
    subst hl
    rw [endRound, ht]
    change (d₁.expression c.line (e.tokens c.line) >>= fun _ => _) = _
    rw [hx]
    change (c.search "\x7b" >>= fun _ => _) = _
    rw [hs]
    rfl

theorem gain_header (d : Desk) (f : String) :
    d.gain { functions := [f] } = { d with functions := ⟨d.functions.declared ++ [f]⟩ } := by
  rw [gain_stock, List.append_nil]
  rfl

theorem declare_of_hasFunction {f : String} (h : d.context.hasFunction f = false) (line : UInt32) :
    d.functions.declare f line = .ok ⟨d.functions.declared ++ [f]⟩ := by
  have hf : d.functions.isDeclared f = false := h
  rw [Functions.declare, hf]
  rfl

/-- The header of a function declares it. -/
theorem takeAll_definition {f : String} {params : List Binder} (hd : d.Between m)
    (hl : isLegalName f = true) (hf : d.context.hasFunction f = false)
    (hp : params.all (fun b => isLegalName b.name) = true) :
    d.takeAll
        ⟨spaced "fungsi" ++ (spaced f ++ (spaced "(" ++ (renderParams params ++
          (spaced ")" ++ (spaced "\x7b" ++ '\n' :: rest))))), line⟩ =
      ((d.gain { functions := [f] }).headed (.function f (params.map Binder.param) line)).takeAll
        ⟨spaced "\x7b" ++ '\n' :: rest, line⟩ := by
  have hq := hd.inString
  have hword : d.take (.keyword .function) ⟨spaced f ++ (spaced "(" ++ (renderParams params ++
      (spaced ")" ++ (spaced "\x7b" ++ '\n' :: rest)))), line⟩ =
        .ok (d.gather [.keyword .function]) := rfl
  rw [takeAll_joined (.of_keyword rfl fun _ => rfl) hq (apart_spaced _ _) hword,
    takeAll_joined (d := d.gather _) (spelled_name hl) hq (apart_spaced _ _) rfl, gather_gather,
    List.singleton_append]
  refine takeAll_header (.definition f) (paramTokens line params) (renderParams params)
    (hd.idle.gain _) hq ?_ (apart_params (apart_spaced _ _) params) ?_ ?_
  · have hn : (d.gather [.keyword .function, .identifier ⟨f, line⟩]).definedName? = some f := by
      simp [definedName?, hd.idle.run_gather, hd.idle.atStart_gather]
    have hk : (d.gather [.keyword .function, .identifier ⟨f, line⟩]).roundKind line =
        .ok (.definition f) := by
      simp only [roundKind, hn]
    rw [openRound, hk, gain_header]
    change ((d.functions.declare f line >>= fun _ => _) >>= fun _ => _) = _
    rw [declare_of_hasFunction hf]
    rfl
  · intro more hm
    exact takeAll_params hp rfl hm
  · intro d₁ hc c hl hs ht
    subst hl
    rw [endRound, ht, splitCommas_params, mapM_param]
    change (c.search "\x7b" >>= fun _ => _) = _
    rw [hs]
    rfl

/-- The header of the entry point, which stands in no block. -/
theorem takeAll_entry (hd : d.Between 0) (hf : d.context.hasFunction entryName = false) :
    d.takeAll
        ⟨spaced "utama" ++ (spaced "(" ++ (spaced ")" ++ (spaced "\x7b" ++ '\n' :: rest))),
          line⟩ =
      ((({ d with hasEntry := true } : Desk).gain { functions := [entryName] }).headed
        (.entry line)).takeAll ⟨spaced "\x7b" ++ '\n' :: rest, line⟩ := by
  have hq := hd.inString
  have hi : ({ d with hasEntry := true } : Desk).Idle 0 :=
    ⟨hd.idle.nesting, hd.idle.run, hd.idle.outer, hd.idle.strings⟩
  have hblocks : (d.gather [.keyword .entry]).blocks = [] :=
    List.length_eq_zero_iff.1 hd.opened.length_eq
  rw [takeAll_joined (.of_keyword rfl fun _ => rfl) hq (apart_spaced _ _) rfl]
  refine takeAll_header .entry [] [] (hi.gain _) hq ?_ (apart_spaced _ _) ?_ ?_
  · have hk : (d.gather [.keyword .entry]).roundKind line = .ok .entry := by
      simp [roundKind, definedName?, headerKind, hd.idle.run_gather, hd.idle.atStart_gather,
        Keyword.opensBlock, hblocks]
    rw [openRound, hk, gain_header]
    change ((d.functions.declare entryName line >>= fun _ => _) >>= fun _ => _) = _
    rw [declare_of_hasFunction hf]
    rfl
  · intro more _
    rw [gather_nil, List.nil_append]
  · intro d₁ hc c hl hs ht
    subst hl
    rw [endRound, ht]
    change (c.search "\x7b" >>= fun _ => _) = _
    rw [hs]
    rfl

/-! ## Brackets of bodies -/

/-- The bracket after a header begins its block. -/
theorem takeAll_begun {h : Header} (hh : d.header = none) (hi : d.Idle m)
    (hb : d.beginBlock h = .ok d') :
    (d.headed h).takeAll ⟨spaced "\x7b" ++ '\n' :: rest, line⟩ =
      ({ d' with nesting := .curly :: d'.nesting } : Desk).takeAll ⟨rest, line + 1⟩ := by
  have hself : ({ d.headed h with header := none } : Desk) = d := by
    rw [← hh]
    rfl
  have htake : (d.headed h).take (.bracket .openCurly) ⟨'\n' :: rest, line⟩ =
      .ok { d' with nesting := .curly :: d'.nesting } := by
    change (beginBlock { d.headed h with header := none } h >>= fun _ => _) = _
    rw [hself, hb]
    rfl
  rw [takeAll_spaced (d := d.headed h) (.of_symbol (.bracket .openCurly) rfl rfl) hi.inString
    (.cons rfl rest) htake]
  exact takeAll_blank rfl rfl

/-- The bracket at the end of a body ends its block. -/
theorem takeAll_finished {b : Block} (hi : d.Idle m)
    (he : (d.pushBlock b).endBlock ⟨rest, line⟩ = .ok d') :
    (d.inside b).takeAll ⟨spaced "\x7d" ++ rest, line⟩ =
      d'.takeAll ⟨rest, line⟩ := by
  have hhole : (d.inside b).nesting.inHole = false := by
    rw [inside, hi.nesting]
    cases m <;> rfl
  have htake : (d.inside b).take (.bracket .closeCurly) ⟨rest, line⟩ = .ok d' := by
    change (if (d.inside b).nesting.inHole then _ else _) = _
    rw [if_neg (by simp [hhole])]
    change (if d.run.tokens ≠ [] then _ else _) = _
    rw [if_neg (by simp [hi.run])]
    exact he
  change (d.inside b).takeAll ⟨' ' :: '}' :: rest, line⟩ = _
  rw [takeAll_blank rfl rfl]
  exact takeAll_next rfl (Cursor.next_closeCurly _ _) htake

end Desk

end Naskah
