/-
  Reading statements without blocks.  Such a statement adds its tokens to the run, and the
  semicolon turns them into the code of the statement and the name it declares (`takeAll_simple`).
-/
import Naskah.Proofs.Desk.Gains

namespace Naskah

open Scan Naskah.Tree

namespace Tree

/-! ## Tokens -/

def Binder.tokens (line : UInt32) (b : Binder) : List Token :=
  .identifier ⟨b.name, line⟩ ::
    match b.type with
    | none => []
    | some t => [.punctuation .colon, .keyword (.type t)]

/-- The tokens of a value that may be left out, after the given ones. -/
def valueTokens (sign : List Token) (line : UInt32) : Option Expr → List Token
  | none => []
  | some e => sign ++ e.tokens line

def stepToken (up : Bool) : Token :=
  .compound (if up then .increment else .decrement)

/-- The tokens of a statement on a line. -/
def Simple.tokens (line : UInt32) : Simple → List Token
  | .var b value => .keyword .var :: (b.tokens line ++ valueTokens [.punctuation .assign] line value)
  | .const b value => .keyword .const :: (b.tokens line ++ .punctuation .assign :: value.tokens line)
  | .assign x value => .identifier ⟨x, line⟩ :: .punctuation .assign :: value.tokens line
  | .compound x op value => .identifier ⟨x, line⟩ :: .compound (.assign op) :: value.tokens line
  | .step x up => [.identifier ⟨x, line⟩, stepToken up]
  | .result value => .keyword .result :: valueTokens [] line value
  | .expr e => e.tokens line

/-- The name that a statement on a line declares. -/
def Simple.entries (line : UInt32) : Simple → List (String × NameInfo)
  | .var b _ => [(b.name, ⟨.var, b.typeName, line⟩)]
  | .const b _ => [(b.name, ⟨.const, b.typeName, line⟩)]
  | .assign .. | .compound .. | .step .. | .result _ | .expr _ => []

/-- What a statement on a line adds. -/
def Simple.gain (line : UInt32) (s : Simple) : Gain :=
  { code := s.code.map .op, names := s.entries line }

theorem Simple.map_entries (line : UInt32) (s : Simple) :
    (s.entries line).map (fun p => (p.1, p.2.kind)) = s.names := by
  cases s <;> rfl

end Tree

namespace Desk

variable {d : Desk} {line : UInt32}

/-! ## Statements -/

theorem expression_tokens {e : Expr} (h : e.fits d.context = true) :
    d.expression line (e.tokens line) = .ok e.asm :=
  compile_tokens line h

theorem declare_of_fits {b : Binder} (h : b.fits d.context = true) (info : NameInfo) :
    d.names.declare b.name info = .ok ⟨(b.name, info) :: d.names.entries⟩ := by
  rw [Binder.fits, Bool.and_eq_true, Bool.not_eq_true', Context.hasName, context, lookup_contextOf,
    Option.isSome_map, Option.isSome_eq_false_iff, Option.isNone_iff_eq_none] at h
  rw [Names.declare, h.2]

theorem assignable_of_fits {x : String} (h : d.context.canAssign x = true) :
    d.names.assignable x line = .ok () := by
  rw [Context.canAssign, context, lookup_contextOf] at h
  cases hx : d.names.get? x with
  | none => rw [hx] at h; cases h
  | some info =>
    rw [hx] at h
    have hk : info.kind ≠ .const := by simpa using h
    rw [Names.assignable, Names.reference, hx]
    change (if info.kind = .const then _ else _) = _
    rw [if_neg hk]

/-- The value that a name begins with. -/
theorem initialValue_tokens (kind : NameKind) (name : String) {value : Option Expr}
    (hk : kind = .const → value.isSome = true) (h : fitsIfAny d.context value = true) :
    d.initialValue kind name line (valueTokens [.punctuation .assign] line value) =
      .ok ((valueCode value).map .op) := by
  cases value with
  | none =>
    have hk : kind ≠ .const := fun he => by simpa using hk he
    simp [valueTokens, initialValue, hk, valueCode]
  | some e => exact expression_tokens h

theorem declaration_tokens {kind : NameKind} {b : Binder} {value : Option Expr}
    (hk : kind = .const → value.isSome = true) (hb : b.fits d.context = true)
    (h : fitsIfAny d.context value = true) :
    d.declaration kind line (b.tokens line ++ valueTokens [.punctuation .assign] line value) =
      .ok ((valueCode value).map .op ++ [.op (.storeName b.name)],
        d.setNames ⟨(b.name, ⟨kind, b.typeName, line⟩) :: d.names.entries⟩) := by
  have hi : d.initialValue kind b.name line _ = _ := initialValue_tokens kind b.name hk h
  have ht : typeOf line ((match b.type with
      | none => []
      | some t => [.punctuation .colon, .keyword (.type t)]) ++
        valueTokens [.punctuation .assign] line value) =
      .ok (b.typeName, valueTokens [.punctuation .assign] line value) := by
    rw [Binder.typeName]
    cases b.type <;> cases value <;> rfl
  rw [Binder.tokens, List.cons_append, declaration, ht]
  change (d.initialValue kind b.name line (valueTokens [.punctuation .assign] line value) >>=
    fun _ => _) = _
  rw [hi]
  change (d.names.declare b.name ⟨kind, b.typeName, line⟩ >>= fun _ => _) = _
  rw [declare_of_fits hb]
  rfl

/-- A statement that is an expression is none of the others. -/
theorem statement_expr (d : Desk) (line : UInt32) (e : Expr) :
    d.statement line (e.tokens line) =
      ((d.expression line (e.tokens line) >>= fun code => pure (code ++ [.op .pop])) >>=
        fun code => pure (code, d)) := by
  cases e <;> (rw [Expr.tokens]; rfl)

/-- **A statement compiles to its code and declares its name.** -/
theorem statement_tokens {s : Simple} (h : s.fits d.context d.inFunction = true) :
    d.statement line (s.tokens line) =
      .ok (s.code.map .op, d.setNames ⟨s.entries line ++ d.names.entries⟩) := by
  have hself : d.setNames ⟨[] ++ d.names.entries⟩ = d := setNames_names d
  cases s with
  | var b value =>
    rw [Simple.fits, Bool.and_eq_true] at h
    rw [Simple.tokens, statement, declaration_tokens (by simp) h.1 h.2]
    simp [Simple.code, Simple.entries]
  | const b value =>
    rw [Simple.fits, Bool.and_eq_true] at h
    have hv : fitsIfAny d.context (some value) = true := h.2
    have hd : d.declaration .const line (b.tokens line ++ _) = _ :=
      declaration_tokens (by simp) h.1 hv
    rw [Simple.tokens, statement]
    refine hd.trans ?_
    simp [Simple.code, Simple.entries, valueCode]
  | assign x value =>
    simp only [Simple.fits, Bool.and_eq_true] at h
    rw [Simple.tokens, Simple.entries, hself]
    change ((d.names.assignable x line >>= fun _ => _) >>= fun _ => _) = _
    rw [assignable_of_fits h.1.2]
    change ((d.expression line (value.tokens line) >>= fun _ => _) >>= fun _ => _) = _
    rw [expression_tokens h.2, Simple.code, List.map_append]
    rfl
  | compound x op value =>
    simp only [Simple.fits, Bool.and_eq_true] at h
    rw [Simple.tokens, Simple.entries, hself]
    change ((d.names.assignable x line >>= fun _ => _) >>= fun _ => _) = _
    rw [assignable_of_fits h.1.1.2]
    change ((d.expression line (value.tokens line) >>= fun _ => _) >>= fun _ => _) = _
    rw [expression_tokens h.2, Simple.code, List.map_append]
    rfl
  | step x up =>
    simp only [Simple.fits, Bool.and_eq_true] at h
    rw [Simple.tokens, Simple.entries, hself]
    change ((d.names.assignable x line >>= fun _ => _) >>= fun _ => _) = _
    rw [assignable_of_fits h.2]
    cases up <;> rfl
  | result value =>
    rw [Simple.fits, Bool.and_eq_true] at h
    rw [Simple.tokens, Simple.entries, hself]
    change ((if !d.inFunction then _ else _) >>= fun _ => _) = _
    rw [if_neg (by simp [h.1]), Simple.code, List.map_append]
    cases value with
    | none => rfl
    | some e =>
      have he : valueTokens [] line (some e) ≠ [] := e.tokens_ne_nil line
      rw [if_neg he]
      change ((d.expression line (e.tokens line) >>= fun _ => _) >>= fun _ => _) = _
      rw [expression_tokens h.2]
      rfl
  | expr e =>
    rw [Simple.fits] at h
    rw [Simple.tokens, Simple.entries, hself, statement_expr, expression_tokens h, Simple.code,
      List.map_append]
    rfl

/-! ## Reading -/

section
variable {m : Nat} {rest : List Char}

theorem Idle.inString (hi : d.Idle m) : d.nesting.inString = false := by
  rw [hi.nesting]
  cases m <;> rfl

theorem Idle.clear_gather (hi : d.Idle m) (ts : List Token) : (d.gather ts).clear = d := by
  have hrun : ({ d.run with tokens := [] } : Run) = d.run := by rw [hi.run]
  change ({ d with run := { d.run with tokens := [] } } : Desk) = d
  rw [hrun]

theorem Idle.run_gather (hi : d.Idle m) (ts : List Token) : (d.gather ts).run = ⟨ts, []⟩ := by
  rw [gather, hi.run]
  rfl

theorem Between.inString (h : d.Between m) : d.nesting.inString = false :=
  h.idle.inString

theorem Between.atOperand (h : d.Between m) : d.AtOperand :=
  ⟨h.inString, by rw [h.idle.run]; rfl⟩

theorem search_ended (line : UInt32) (rest : List Char) :
    (Cursor.mk (ended ++ rest) line).search ";" = .ok () := by
  rw [ended, List.append_assoc]
  exact Cursor.search_spaced line (.punctuation .semicolon) rfl rfl (.cons rfl rest)

theorem apart_ended (rest : List Char) : Apart (ended ++ rest) :=
  apart_spaced ";" _

theorem spelled_assign : Spelled "=".toList fun _ => .punctuation .assign :=
  .of_symbol (.punctuation .assign) rfl rfl

theorem spelled_colon : Spelled ":".toList fun _ => .punctuation .colon :=
  .of_symbol (.punctuation .colon) rfl rfl

theorem spelled_step : ∀ up : Bool,
    Spelled (if up then "++" else "--").toList fun _ => stepToken up
  | true => .of_symbol (.compound .increment) rfl rfl
  | false => .of_symbol (.compound .decrement) rfl rfl

theorem apart_value {sign : List Char} (hs : sign = [] ∨ ∃ s, sign = spaced s) (hr : Apart rest) :
    ∀ value : Option Expr, Apart (renderValue sign value ++ rest)
  | none => hr
  | some e => by
    rw [renderValue, List.append_assoc]
    rcases hs with rfl | ⟨s, rfl⟩
    · exact e.apart_render _
    · exact apart_spaced _ _

theorem takeAll_binder {b : Binder} (hb : isLegalName b.name = true)
    (hq : d.nesting.inString = false) (hr : Apart rest) :
    d.takeAll ⟨b.render ++ rest, line⟩ =
      (d.gather (b.tokens line)).takeAll ⟨rest, line⟩ := by
  rw [Binder.render, Binder.tokens]
  cases b.type with
  | none =>
    rw [List.append_nil]
    exact takeAll_joined (spelled_name hb) hq hr rfl
  | some t =>
    simp only [List.append_assoc]
    rw [takeAll_joined (spelled_name hb) hq (apart_spaced _ _) rfl,
      takeAll_joined (d := d.gather _) spelled_colon hq (apart_spaced _ _) rfl,
      takeAll_joined (d := (d.gather _).gather _) (spelled_type t) hq hr rfl, gather_gather,
      gather_gather]
    rfl

/-- The beginning of a declaration. -/
theorem takeAll_declared {s : String} {k : Keyword} (hw : Spelled s.toList fun _ => .keyword k)
    (hk : k = .var ∨ k = .const) {b : Binder} (hb : isLegalName b.name = true)
    (hq : d.nesting.inString = false) (hr : Apart rest) :
    d.takeAll ⟨spaced s ++ (b.render ++ rest), line⟩ =
      (d.gather (.keyword k :: b.tokens line)).takeAll ⟨rest, line⟩ := by
  have hword : d.take (.keyword k) ⟨b.render ++ rest, line⟩ = .ok (d.gather [.keyword k]) := by
    rcases hk with rfl | rfl <;> rfl
  have ha : Apart (b.render ++ rest) := .cons rfl _
  rw [takeAll_joined hw hq ha hword, takeAll_binder (d := d.gather _) hb hq hr, gather_gather]
  rfl

/-- An expression after a token that an operand may follow. -/
theorem takeAll_after (t : Token) (ht : opensGroup (some t) = true)
    (hq : d.nesting.inString = false) {e : Expr} (he : e.fits d.context = true) (hr : Apart rest) :
    (d.gather [t]).takeAll ⟨e.render ++ rest, line⟩ =
      (d.gather (t :: e.tokens line)).takeAll ⟨rest, line⟩ := by
  have he' : e.fits (d.gather [t]).context = true := he
  rw [takeAll_expr he' (atOperand_gather hq ht) hr (by simp [atHead, gather]), gather_gather]
  rfl

/-- An expression after the sign that gives a name its value. -/
theorem takeAll_assigned (hq : d.nesting.inString = false) {e : Expr} (he : e.fits d.context = true)
    (hr : Apart rest) :
    d.takeAll ⟨spaced "=" ++ (e.render ++ rest), line⟩ =
      (d.gather (.punctuation .assign :: e.tokens line)).takeAll ⟨rest, line⟩ := by
  rw [takeAll_joined spelled_assign hq (e.apart_render _) rfl]
  exact takeAll_after (.punctuation .assign) rfl hq he hr

/-- **The text of a statement adds its tokens to the run.** -/
theorem takeAll_tokens {s : Simple} (h : s.fits d.context d.inFunction = true) (hd : d.Between m) :
    d.takeAll ⟨s.render ++ (ended ++ rest), line⟩ =
      (d.gather (s.tokens line)).takeAll ⟨ended ++ rest, line⟩ := by
  have hq := hd.inString
  have hr := apart_ended rest
  cases s with
  | var b value =>
    rw [Simple.fits, Bool.and_eq_true] at h
    have hb := (Bool.and_eq_true _ _ ▸ h.1).1
    rw [Simple.render, Simple.tokens]
    simp only [List.append_assoc]
    rw [takeAll_declared (.of_keyword rfl fun _ => rfl) (.inl rfl) hb hq
      (apart_value (.inr ⟨_, rfl⟩) hr value)]
    cases value with
    | none =>
      rw [valueTokens, List.append_nil]
      rfl
    | some e =>
      rw [renderValue, List.append_assoc, takeAll_assigned (d := d.gather _) hq h.2 hr,
        gather_gather]
      rfl
  | const b value =>
    rw [Simple.fits, Bool.and_eq_true] at h
    have hb := (Bool.and_eq_true _ _ ▸ h.1).1
    rw [Simple.render, Simple.tokens]
    simp only [List.append_assoc]
    rw [takeAll_declared (.of_keyword rfl fun _ => rfl) (.inr rfl) hb hq (apart_spaced _ _),
      takeAll_assigned (d := d.gather _) hq h.2 hr, gather_gather]
    rfl
  | assign x value =>
    simp only [Simple.fits, Bool.and_eq_true] at h
    rw [Simple.render, Simple.tokens]
    simp only [List.append_assoc]
    rw [takeAll_joined (spelled_name h.1.1) hq (apart_spaced _ _) rfl,
      takeAll_assigned (d := d.gather _) hq h.2 hr, gather_gather]
    rfl
  | compound x op value =>
    simp only [Simple.fits, Bool.and_eq_true] at h
    rw [Simple.render, Simple.tokens]
    simp only [List.append_assoc]
    rw [takeAll_joined (spelled_name h.1.1.1) hq (apart_spaced _ _) rfl,
      takeAll_joined (d := d.gather _) (spelled_compound h.1.2) hq (value.apart_render _) rfl,
      takeAll_after (d := d.gather _) (.compound (.assign op)) rfl hq h.2 hr, gather_gather]
    rfl
  | step x up =>
    simp only [Simple.fits, Bool.and_eq_true] at h
    have hstep : (d.gather [.identifier ⟨x, line⟩]).take (stepToken up)
        ⟨ended ++ rest, line⟩ =
          .ok ((d.gather [.identifier ⟨x, line⟩]).gather [stepToken up]) := by
      cases up <;>
      · change ((Cursor.mk (ended ++ rest) line).search ";" >>= fun _ => _) = _
        rw [search_ended]
        rfl
    rw [Simple.render, Simple.tokens]
    simp only [List.append_assoc]
    rw [takeAll_joined (spelled_name h.1) hq (apart_spaced _ _) rfl,
      takeAll_joined (d := d.gather _) (spelled_step up) hq hr hstep, gather_gather]
    rfl
  | result value =>
    rw [Simple.fits, Bool.and_eq_true] at h
    have hword : d.take (.keyword .result) ⟨renderValue [] value ++ (ended ++ rest), line⟩ =
        .ok (d.gather [.keyword .result]) := by
      cases value with
      | none => rfl
      | some e => cases e <;> (simp only [renderValue, Expr.render]; rfl)
    rw [Simple.render, Simple.tokens]
    simp only [List.append_assoc]
    rw [takeAll_joined (.of_keyword rfl fun _ => rfl) hq (apart_value (.inl rfl) hr value) hword]
    cases value with
    | none => rfl
    | some e => exact takeAll_after (.keyword .result) rfl hq h.2 hr
  | expr e =>
    exact takeAll_expr h hd.atOperand hr fun _ => search_ended line rest

/-! ## Ends of statements -/

/-- A semicolon and the end of its line turn a run of tokens into a gain. -/
theorem takeAll_ended (hd : d.Between m) {ts : List Token} (hne : ts ≠ []) {code : List Asm}
    {names : List (String × NameInfo)}
    (hs : d.statement line ts = .ok (code, d.setNames ⟨names ++ d.names.entries⟩)) :
    (d.gather ts).takeAll ⟨ended ++ rest, line⟩ =
      (d.gain { code, names }).takeAll ⟨rest, line + 1⟩ := by
  have hrun := hd.idle.run_gather ts
  have hopen : Open m (d.setNames ⟨names ++ d.names.entries⟩).blocks := Open.setNames hd.opened _
  have hgain : (d.setNames ⟨names ++ d.names.entries⟩).added code = d.gain { code, names } := by
    rw [added_eq_gain, setNames_eq_gain, gain_gain]
    simp [Gain.append]
  have htake : (d.gather ts).take (.punctuation .semicolon) ⟨'\n' :: rest, line⟩ =
      .ok (d.gain { code, names }) := by
    change (d.gather ts).endStatement line = _
    rw [endStatement, hrun, hd.idle.clear_gather, hs, if_neg (by simp [gather, hd.idle.outer]),
      if_neg (by simp), if_neg hne]
    change (d.setNames _).emit code = _
    rw [emit_of_open hopen, hgain]
  rw [ended, List.append_assoc, List.singleton_append,
    takeAll_spaced (d := d.gather ts) (.of_symbol (.punctuation .semicolon) rfl rfl) hd.inString
      (.cons rfl rest) htake]
  exact takeAll_blank rfl (hd.gain _).inString

/-- **A statement without a block adds its code and the name it declares.** -/
theorem takeAll_simple {s : Simple} (h : s.fits d.context d.inFunction = true) (hd : d.Between m) :
    d.takeAll ⟨s.render ++ ended ++ rest, line⟩ =
      (d.gain (s.gain line)).takeAll ⟨rest, line + 1⟩ := by
  have hne : s.tokens line ≠ [] := by
    cases s <;> simp [Simple.tokens, Expr.tokens_ne_nil]
  rw [List.append_assoc, takeAll_tokens h hd, takeAll_ended hd hne (statement_tokens h)]
  rfl

/-- A jump of a loop adds its instruction. -/
theorem takeAll_loopJump {s : String} {k : Keyword} {jump : LoopBlock → Asm}
    (hw : Spelled s.toList fun _ => .keyword k)
    (hk : ∀ c, d.take (.keyword k) c = .ok (d.gather [.keyword k]))
    (hs : d.statement line [.keyword k] = (d.loopJump k jump line [] >>= fun code => .ok (code, d)))
    (hd : d.Between m) {b : LoopBlock} (hb : loop? d.blocks = some b) :
    d.takeAll ⟨spaced s ++ ended ++ rest, line⟩ =
      (d.gain { code := [jump b] }).takeAll ⟨rest, line + 1⟩ := by
  have hself : d.setNames ⟨[] ++ d.names.entries⟩ = d := setNames_names d
  have hj : d.loopJump k jump line [] = .ok [jump b] := by
    rw [loopJump, hb]
  rw [List.append_assoc, takeAll_joined hw hd.inString (apart_ended rest) (hk _)]
  refine takeAll_ended hd (by simp) ?_
  rw [hs, hj, hself]
  rfl

theorem takeAll_stop (hd : d.Between m) (h : d.inLoop = true) :
    d.takeAll ⟨spaced "berhenti" ++ ended ++ rest, line⟩ =
      (d.gain { code := [.op (.jump d.exits.leave)] }).takeAll ⟨rest, line + 1⟩ := by
  obtain ⟨b, hb⟩ := Option.isSome_iff_exists.1 h
  rw [takeAll_loopJump (.of_keyword rfl fun _ => rfl) (fun _ => rfl) rfl hd hb, exits, hb]
  rfl

theorem takeAll_skip (hd : d.Between m) (h : d.inLoop = true) :
    d.takeAll ⟨spaced "lewati" ++ ended ++ rest, line⟩ =
      (d.gain { code := [.op (.jump d.exits.again)] }).takeAll ⟨rest, line + 1⟩ := by
  obtain ⟨b, hb⟩ := Option.isSome_iff_exists.1 h
  rw [takeAll_loopJump (.of_keyword rfl fun _ => rfl) (fun _ => rfl) rfl hd hb, exits, hb]
  rfl

end

end Desk

end Naskah
