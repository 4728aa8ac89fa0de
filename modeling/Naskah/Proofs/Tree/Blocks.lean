/-
  Reading statements.  The text of a statement adds its code, names, functions, chunks and labels
  to the desk, whatever stands around it and after it (`takeAll_stmt`), and so does a body
  (`takeAll_body`).

  A chain of conditions is read clause by clause: `takeAll_rest` says what follows from the end of
  a clause on, for any clauses before it.
-/
import Naskah.Proofs.Tree.Headers

namespace Naskah

open Scan Naskah.Tree

namespace Tree

/-! ## What statements add -/

mutual

/-- The names that a statement on a line declares, the latest first. -/
def Stmt.entries (line : UInt32) : Stmt → List (String × NameInfo)
  | .simple s => s.entries line
  | .loop _ body => entriesOf (line + 1) body
  | .cond _ body rest => rest.entries (line + 1 + linesOf body) ++ entriesOf (line + 1) body
  | .function .. | .stop | .skip => []

def Rest.entries (line : UInt32) : Rest → List (String × NameInfo)
  | .done => []
  | .last body => entriesOf (line + 1) body
  | .further _ body rest => rest.entries (line + 1 + linesOf body) ++ entriesOf (line + 1) body

def entriesOf (line : UInt32) : List Stmt → List (String × NameInfo)
  | [] => []
  | st :: body => entriesOf (line + st.lines) body ++ st.entries line

end

mutual

theorem Stmt.map_entries : ∀ (st : Stmt) (line : UInt32),
    (st.entries line).map (fun p => (p.1, p.2.kind)) = st.names
  | .simple s, line => by rw [Stmt.entries, Stmt.names, s.map_entries]
  | .loop _ body, line => by rw [Stmt.entries, Stmt.names, map_entriesOf body]
  | .cond _ body rest, line => by
    rw [Stmt.entries, Stmt.names, List.map_append, rest.map_entries, map_entriesOf body]
  | .function .., _ | .stop, _ | .skip, _ => by rw [Stmt.entries, Stmt.names]; rfl

theorem Rest.map_entries : ∀ (rest : Rest) (line : UInt32),
    (rest.entries line).map (fun p => (p.1, p.2.kind)) = rest.names
  | .done, _ => by rw [Rest.entries, Rest.names]; rfl
  | .last body, line => by rw [Rest.entries, Rest.names, map_entriesOf body]
  | .further _ body rest, line => by
    rw [Rest.entries, Rest.names, List.map_append, rest.map_entries, map_entriesOf body]

theorem map_entriesOf : ∀ (body : List Stmt) (line : UInt32),
    (entriesOf line body).map (fun p => (p.1, p.2.kind)) = namesOf body
  | [], _ => by rw [entriesOf, namesOf]; rfl
  | st :: body, line => by
    rw [entriesOf, namesOf, List.map_append, st.map_entries, map_entriesOf body]

end

section
variable (k n : Nat) (line : UInt32) (exits : Exits Label)

/-- What a statement adds after `k` chunks and `n` labels, in the loop with the given exits. -/
def Stmt.gain (st : Stmt) : Gain :=
  ⟨st.asm k n exits, st.entries line, st.functions, st.chunks k line, st.labels⟩

def gainOf (body : List Stmt) : Gain :=
  ⟨asmOf k n exits body, entriesOf line body, functionsOf body, chunksOf k line body, labelsOf body⟩

theorem gainOf_nil : gainOf k n line exits [] = {} := by
  simp [gainOf, asmOf, entriesOf, functionsOf, chunksOf, labelsOf]

theorem gainOf_cons (st : Stmt) (body : List Stmt) :
    gainOf k n line exits (st :: body) = (st.gain k n line exits).append
      (gainOf (k + st.count) (n + st.labels) (line + st.lines) exits body) := by
  simp [gainOf, Stmt.gain, Gain.append, asmOf, entriesOf, functionsOf, chunksOf, labelsOf]

/-- What the clauses after the given ones add, together with the code of them all. -/
def Rest.gain (rest : Rest) (clauses : List Clause) : Gain :=
  let exit := n + rest.labels
  { code := (Chain.emitClauses ⟨exit⟩ clauses (rest.asm k n exits exit)
      ⟨exit + 1 + rest.guards⟩).1 ++ [.mark ⟨exit⟩]
    names := rest.entries line
    functions := rest.functions
    chunks := rest.chunks k line
    labels := rest.labels + 1 + rest.guards + clauses.countP (·.guard.isSome) }

/-- The gain of a function: its name before its body, its chunk after it. -/
theorem Stmt.gain_function (f : String) (params : List Binder) (body : List Stmt)
    (inner : Exits Label) :
    (Stmt.function f params body).gain k n line exits =
      Gain.append { functions := [f] } ((gainOf k n (line + 1) inner body).shared.append
        { code := (bindFunction (k + countOf body) f).map .op
          chunks := [⟨f, params.map Binder.param, functionCode k params body, line⟩] }) := by
  simp [Stmt.gain, Gain.append, Gain.shared, gainOf, Stmt.asm, Stmt.entries, Stmt.functions,
    Stmt.chunks, Stmt.labels]

/-- The gain of a loop: its labels before its body, its code after it. -/
theorem Stmt.gain_loop (guard : Expr) (body : List Stmt) :
    (Stmt.loop guard body).gain k n line exits =
      Gain.append { labels := 2 } ((gainOf k (n + 2) (line + 1) ⟨⟨n⟩, ⟨n + 1⟩⟩ body).around.append
        { code := LoopBlock.finish
            { guard := guard.asm, body := asmOf k (n + 2) ⟨⟨n⟩, ⟨n + 1⟩⟩ body, start := ⟨n⟩
              stop := ⟨n + 1⟩, line } }) := by
  simp [Stmt.gain, Gain.append, Gain.around, gainOf, Stmt.asm, Stmt.entries, Stmt.functions,
    Stmt.chunks, Stmt.labels, LoopBlock.finish]

/-- The gain of a chain: that of the body of its first clause, then that of the others. -/
theorem Stmt.gain_cond (guard : Expr) (body : List Stmt) (rest : Rest) :
    (Stmt.cond guard body rest).gain k n line exits =
      (gainOf k n (line + 1) exits body).around.append
        (rest.gain (k + countOf body) (n + labelsOf body) (line + 1 + linesOf body) exits
          [{ kind := .first, guard := some guard.asm, body := asmOf k n exits body, line }]) := by
  simp [Stmt.gain, Rest.gain, Gain.append, Gain.around, gainOf, Stmt.asm, Stmt.entries,
    Stmt.functions, Stmt.chunks, Stmt.labels, Chain.emitClauses, Chain.emitClause, clauseAsm,
    LabelSupply.fresh]
  omega

theorem Rest.gain_last (body : List Stmt) (clauses : List Clause) :
    (Rest.last body).gain k n line exits clauses =
      (gainOf k n (line + 1) exits body).around.append
        { code := (Chain.emitClauses ⟨n + labelsOf body⟩
            ({ kind := .last, guard := none, body := asmOf k n exits body, line } :: clauses) []
              ⟨n + labelsOf body + 1⟩).1 ++ [.mark ⟨n + labelsOf body⟩]
          labels := 1 + clauses.countP (·.guard.isSome) } := by
  simp [Rest.gain, Gain.append, Gain.around, gainOf, Rest.asm, Rest.entries,
    Rest.functions, Rest.chunks, Rest.labels, Rest.guards, Chain.emitClauses, Chain.emitClause,
    Nat.add_assoc]

theorem Rest.gain_further (guard : Expr) (body : List Stmt) (rest : Rest) (clauses : List Clause) :
    (Rest.further guard body rest).gain k n line exits clauses =
      (gainOf k n (line + 1) exits body).around.append
        (rest.gain (k + countOf body) (n + labelsOf body) (line + 1 + linesOf body) exits
          ({ kind := .further, guard := some guard.asm, body := asmOf k n exits body, line } ::
            clauses)) := by
  have hnext := Nat.add_right_comm (n + labelsOf body + rest.labels) rest.guards 1
  simp [Rest.gain, Gain.append, Gain.around, gainOf, Rest.asm, Rest.entries, Rest.functions,
    Rest.chunks, Rest.labels, Rest.guards, Chain.emitClauses, Chain.emitClause, clauseAsm,
    LabelSupply.fresh, ← Nat.add_assoc, hnext]
  omega

end

/-! ## Where a chain ends -/

/-- A text that does not begin with the word that continues a chain. -/
def EndsChain (rest : List Char) : Prop :=
  ∀ line, (Cursor.mk rest line).nextWordIs "selainnya" = false

namespace EndsChain

variable {rest : List Char}

theorem of_next {t : UInt32 → Token} (ht : ∀ line, t line ≠ .keyword .otherwise)
    (h : ∀ line, ∃ c, (Cursor.mk rest line).next = (.ok (.token (t line)), c)) :
    EndsChain rest := by
  intro line
  by_contra hw
  obtain ⟨c, hc⟩ := h line
  obtain ⟨c', hc'⟩ := Cursor.next_of_nextWordIs_otherwise (by simpa using hw)
  rw [hc] at hc'
  simp only [Prod.mk.injEq, Except.ok.injEq, Lexed.token.injEq] at hc'
  exact ht line hc'.1

theorem blank {b : Char} (hb : Text.isBlank b = true) (h : EndsChain rest) :
    EndsChain (b :: rest) := by
  intro line
  rw [Cursor.nextWordIs_blank hb]
  exact h _

theorem spelled {w : List Char} {t : UInt32 → Token} (hw : Spelled w t)
    (ht : ∀ line, t line ≠ .keyword .otherwise) (hr : Apart rest) :
    EndsChain (' ' :: w ++ rest) :=
  blank rfl (of_next ht fun line => ⟨_, hw rest line hr⟩)

theorem keyword {s : String} (k : Keyword) (hk : k ≠ .otherwise)
    (hw : Spelled s.toList fun _ => .keyword k) (hr : Apart rest) : EndsChain (spaced s ++ rest) :=
  spelled hw (by simpa using hk) hr

theorem closeCurly (rest : List Char) : EndsChain (spaced "\x7d" ++ rest) :=
  blank rfl (of_next (fun _ => by simp) fun line => ⟨_, Cursor.next_closeCurly rest line⟩)

theorem atEnd (h : atEnd rest = true) : EndsChain rest := by
  intro line
  rw [Cursor.nextWordIs, Cursor.gap_atEnd h, word_atEnd h]
  rfl

end EndsChain

section
variable {ctx : Context} {rest : List Char}

theorem Expr.endsChain {e : Expr} (h : e.fits ctx = true) (hr : Apart rest) :
    EndsChain (e.render ++ rest) := by
  cases e with
  | int n =>
    rw [Expr.render]
    exact .spelled (spelled_digits n) (by simp) hr
  | float w =>
    rw [Expr.fits] at h
    rw [Expr.render]
    exact .spelled (spelled_fraction h) (by simp) hr
  | bool b =>
    rw [Expr.render]
    exact .spelled (spelled_truthWord b) (by simp) hr
  | string q t =>
    rw [Expr.render]
    exact .blank rfl (.of_next (fun _ => by simp) fun line =>
      ⟨_, Cursor.next_quote q line (t.not_two_quotes q hr)⟩)
  | name x =>
    rw [Expr.fits, Bool.and_eq_true] at h
    rw [Expr.render]
    exact .spelled (spelled_name h.1) (by simp) hr
  | call f args =>
    simp only [Expr.fits, Bool.and_eq_true] at h
    rw [Expr.render]
    simp only [List.append_assoc]
    exact .spelled (spelled_name h.1.1.1) (by simp) (apart_spaced _ _)
  | print args =>
    rw [Expr.render]
    simp only [List.append_assoc]
    exact .keyword .print (by simp) (.of_keyword rfl fun _ => rfl) (apart_spaced _ _)
  | apply o l r =>
    rw [Expr.render]
    simp only [List.append_assoc]
    exact .spelled Desk.spelled_openRound (by simp) (l.apart_render _)

theorem Simple.endsChain {inFunction : Bool} {s : Simple} (h : s.fits ctx inFunction = true)
    (hr : Apart rest) : EndsChain (s.render ++ rest) := by
  cases s with
  | var b value =>
    rw [Simple.render]
    simp only [List.append_assoc]
    exact .keyword .var (by simp) (.of_keyword rfl fun _ => rfl) (.cons rfl _)
  | const b value =>
    rw [Simple.render]
    simp only [List.append_assoc]
    exact .keyword .const (by simp) (.of_keyword rfl fun _ => rfl) (.cons rfl _)
  | assign x value =>
    simp only [Simple.fits, Bool.and_eq_true] at h
    rw [Simple.render]
    simp only [List.append_assoc]
    exact .spelled (spelled_name h.1.1) (by simp) (apart_spaced _ _)
  | compound x op value =>
    simp only [Simple.fits, Bool.and_eq_true] at h
    rw [Simple.render]
    simp only [List.append_assoc]
    exact .spelled (spelled_name h.1.1.1) (by simp) (apart_spaced _ _)
  | step x up =>
    simp only [Simple.fits, Bool.and_eq_true] at h
    rw [Simple.render]
    simp only [List.append_assoc]
    exact .spelled (spelled_name h.1) (by simp) (apart_spaced _ _)
  | result value =>
    rw [Simple.render]
    simp only [List.append_assoc]
    exact .keyword .result (by simp) (.of_keyword rfl fun _ => rfl) (Desk.apart_value (.inl rfl) hr value)
  | expr e =>
    rw [Simple.fits] at h
    exact e.endsChain h hr

theorem Stmt.endsChain {inFunction inLoop : Bool} {st : Stmt}
    (h : st.fits ctx inFunction inLoop = true) (rest : List Char) :
    EndsChain (st.render ++ rest) := by
  cases st with
  | function f params body =>
    rw [Stmt.render]
    simp only [List.append_assoc]
    exact .keyword .function (by simp) (.of_keyword rfl fun _ => rfl) (apart_spaced _ _)
  | simple s =>
    rw [Stmt.fits] at h
    rw [Stmt.render, List.append_assoc]
    exact s.endsChain h (Desk.apart_ended _)
  | loop guard body =>
    rw [Stmt.render, renderGuard]
    simp only [List.append_assoc]
    exact .keyword .loop (by simp) (.of_keyword rfl fun _ => rfl) (apart_spaced _ _)
  | stop =>
    rw [Stmt.render, List.append_assoc]
    exact .keyword .stop (by simp) (.of_keyword rfl fun _ => rfl) (Desk.apart_ended _)
  | skip =>
    rw [Stmt.render, List.append_assoc]
    exact .keyword .skip (by simp) (.of_keyword rfl fun _ => rfl) (Desk.apart_ended _)
  | cond guard body more =>
    rw [Stmt.render, renderGuard]
    simp only [List.append_assoc]
    exact .keyword .cond (by simp) (.of_keyword rfl fun _ => rfl) (apart_spaced _ _)

theorem endsChain_body {inFunction inLoop : Bool} {body : List Stmt}
    (h : bodyFits ctx inFunction inLoop body = true) (hr : EndsChain rest) :
    EndsChain (renderAll body ++ rest) := by
  cases body with
  | nil => rw [renderAll]; exact hr
  | cons st body =>
    rw [bodyFits, Bool.and_eq_true] at h
    rw [renderAll, List.append_assoc]
    exact st.endsChain h.1 _

end

end Tree

namespace Desk

variable {d : Desk} {m : Nat} {line : UInt32} {rest : List Char}

/-! ## Loops -/

theorem takeAll_loopHead {e : Expr} (hd : d.Between m) (he : e.fits d.context = true) :
    d.takeAll ⟨renderGuard (spaced "selama") e ++ (spaced "\x7b" ++ '\n' :: rest), line⟩ =
      ((d.gain { labels := 2 }).inside (.loop
        { guard := e.asm, start := ⟨d.labels.next⟩, stop := ⟨d.labels.next + 1⟩, line })).takeAll
          ⟨rest, line + 1⟩ := by
  rw [renderGuard]
  simp only [List.append_assoc]
  rw [takeAll_joined (t := fun _ => .keyword .loop) (.of_keyword rfl fun _ => rfl) hd.inString
      (apart_spaced _ _) rfl,
    takeAll_guard hd.idle (roundKind_loop hd.idle) he, takeAll_begun hd.header hd.idle rfl,
    gain_labels]
  rfl

theorem takeAll_loopEnd (hd : d.Between m) (b : LoopBlock) :
    (d.inside (.loop b)).takeAll ⟨spaced "\x7d" ++ '\n' :: rest, line⟩ =
      (d.gain { code := b.finish }).takeAll ⟨rest, line + 1⟩ := by
  have hend : (d.pushBlock (.loop b)).endBlock ⟨'\n' :: rest, line⟩ =
      .ok (d.gain { code := b.finish }) := by
    rw [← added_eq_gain]
    exact emit_of_open hd.opened b.finish
  rw [takeAll_finished hd.idle hend]
  exact takeAll_blank rfl (hd.gain _).inString

/-! ## Functions -/

/-- The names in a function at the beginning of its body. -/
def paramEntries (line : UInt32) (params : List Binder) : List (String × NameInfo) :=
  (params.map fun b => (b.name, ⟨.param, b.typeName, line⟩)).reverse

/-- A named function at the beginning of its body. -/
def begun (f : String) (params : List Binder) (line : UInt32) : FunctionBlock where
  role := .named f
  params := params.map Binder.param
  names := ⟨paramEntries line params⟩
  line := line

theorem foldlM_declare (line : UInt32) :
    ∀ {params : List Binder} {names : List (String × NameInfo)},
    (params.map Binder.name).Nodup → (∀ b ∈ params, names.lookup b.name = none) →
      (params.map Binder.param).foldlM (fun (names : Names) p =>
        names.declare p.name ⟨.param, p.type, line⟩) ⟨names⟩ =
          .ok ⟨paramEntries line params ++ names⟩
  | [], _, _, _ => rfl
  | b :: bs, names, hnd, hn => by
    rw [List.map_cons, List.nodup_cons] at hnd
    have hb : Names.declare ⟨names⟩ b.name ⟨.param, b.typeName, line⟩ =
        .ok ⟨(b.name, ⟨.param, b.typeName, line⟩) :: names⟩ := by
      rw [Names.declare, Names.get?, hn b (by simp)]
    have hbs : ∀ b' ∈ bs, List.lookup b'.name
        ((b.name, ⟨.param, b.typeName, line⟩) :: names) = none := by
      intro b' hb'
      have hne : b'.name ≠ b.name := fun he => hnd.1 (List.mem_map.2 ⟨b', hb', he⟩)
      rw [List.lookup_cons, beq_false_of_ne hne]
      exact hn b' (by simp [hb'])
    rw [List.map_cons, List.foldlM_cons]
    change (Names.declare ⟨names⟩ b.name ⟨.param, b.typeName, line⟩ >>= fun _ => _) = _
    rw [hb]
    refine (foldlM_declare line hnd.2 hbs).trans ?_
    simp [paramEntries]

theorem declareParams_eq {params : List Binder} (h : (params.map Binder.name).Nodup)
    (line : UInt32) :
    FunctionBlock.declareParams (params.map Binder.param) line =
      .ok ⟨paramEntries line params⟩ := by
  refine (foldlM_declare line h (by simp)).trans ?_
  rw [List.append_nil]

theorem takeAll_functionHead {f : String} {params : List Binder} (hd : d.Between m)
    (hl : isLegalName f = true) (hf : d.context.hasFunction f = false)
    (hp : paramsFit params = true) :
    d.takeAll
        ⟨spaced "fungsi" ++ (spaced f ++ (spaced "(" ++ (renderParams params ++
          (spaced ")" ++ (spaced "\x7b" ++ '\n' :: rest))))), line⟩ =
      ((d.gain { functions := [f] }).inside (.function (begun f params line))).takeAll
        ⟨rest, line + 1⟩ := by
  rw [paramsFit, Bool.and_eq_true, decide_eq_true_eq] at hp
  have hd' := hd.gain { functions := [f] }
  have hb : (d.gain { functions := [f] }).beginBlock (.function f (params.map Binder.param) line) =
      .ok ((d.gain { functions := [f] }).pushBlock (.function (begun f params line))) := by
    rw [beginBlock, beginFunction, FunctionBlock.begin, declareParams_eq hp.2]
    rfl
  rw [takeAll_definition hd hl hf hp.1, takeAll_begun hd'.header hd'.idle hb]
  rfl

/-- The end of a named function binds its chunk, which comes after those of its body. -/
theorem finish_begun {ctx : Context} {body : List Stmt} (h : bodyFits ctx true false body = true)
    (f : String) (params : List Binder) (line : UInt32) {k : Nat} (n : Nat) (inner : UInt32)
    (exits : Exits Label) {chunks : List Chunk} (hk : chunks.length = k + countOf body) :
    ((begun f params line).gained (gainOf k n inner exits body)).finish chunks =
      .ok ((bindFunction (k + countOf body) f).map .op,
        chunks ++ [⟨f, params.map Binder.param, functionCode k params body, line⟩]) := by
  have hp : (params.map Binder.param).map (fun p => Asm.op (.storeName p.name)) =
      paramsAsm params := by
    rw [List.map_map]
    rfl
  have hrole : ((begun f params line).gained (gainOf k n inner exits body)).role = .named f := rfl
  have hasm : Asm.assemble (((begun f params line).gained (gainOf k n inner exits body)).header ++
      ((begun f params line).gained (gainOf k n inner exits body)).content ++
        FunctionBlock.returnNull) = .ok (functionCode k params body) := by
    change Asm.assemble ((params.map Binder.param).map (fun p => Asm.op (.storeName p.name)) ++
      asmOf k n exits body ++ FunctionBlock.returnNull) = _
    rw [hp, assemble_function h]
  rw [FunctionBlock.finish, hrole, FunctionBlock.close, ← hk]
  simp only [hasm]
  rfl

theorem takeAll_functionEnd {b : FunctionBlock} {code : List Asm} {chunks : List Chunk}
    (hd : d.Between m) (hb : b.finish d.chunks = .ok (code, d.chunks ++ chunks)) :
    (d.inside (.function b)).takeAll ⟨spaced "\x7d" ++ '\n' :: rest, line⟩ =
      (d.gain { code, chunks }).takeAll ⟨rest, line + 1⟩ := by
  have hgain : ({ d with chunks := d.chunks ++ chunks } : Desk).added code = d.gain { code, chunks } := by
    have hs : ({ d with chunks := d.chunks ++ chunks } : Desk) = d.gain { chunks } := by
      rw [gain_stock, List.append_nil]
      rfl
    rw [hs, added_eq_gain, gain_gain]
    simp [Gain.append]
  have hend : (d.pushBlock (.function b)).endBlock ⟨'\n' :: rest, line⟩ =
      .ok (d.gain { code, chunks }) := by
    change (b.finish d.chunks >>= fun _ => _) = _
    rw [hb, ← hgain]
    exact emit_of_open (d := { d with chunks := d.chunks ++ chunks }) hd.opened code
  rw [takeAll_finished hd.idle hend]
  exact takeAll_blank rfl (hd.gain _).inString

/-! ## Chains -/

/-- A chain that is complete gives its code away. -/
theorem takeAll_resolved {clauses : List Clause} (hd : d.Between m)
    (hr : (Chain.mk clauses .filling).closeClause
      ((Cursor.mk rest line).nextWordIs "selainnya") = ⟨clauses, .resolved⟩) :
    (d.inside (.chain ⟨clauses, .filling⟩)).takeAll ⟨spaced "\x7d" ++ rest, line⟩ =
      (d.gain {
        code := (Chain.emitClauses ⟨d.labels.next⟩ clauses [] ⟨d.labels.next + 1⟩).1 ++
          [.mark ⟨d.labels.next⟩]
        labels := 1 + clauses.countP (·.guard.isSome) }).takeAll ⟨rest, line⟩ := by
  let labels : LabelSupply := ⟨d.labels.next + 1 + clauses.countP (·.guard.isSome)⟩
  let code := (Chain.emitClauses ⟨d.labels.next⟩ clauses [] ⟨d.labels.next + 1⟩).1 ++
    [.mark ⟨d.labels.next⟩]
  have hemit : (Chain.mk clauses .resolved).emit d.labels = .ok (code, ⟨[], .emitted⟩, labels) := by
    rw [Chain.emit_eq d.labels rfl]
    refine congrArg (fun l => Except.ok (code, Chain.mk [] .emitted, l)) ?_
    exact Chain.next_emitClauses _ clauses [] ⟨d.labels.next + 1⟩
  have hgain : ({ d with labels } : Desk).added code =
      d.gain { code, labels := 1 + clauses.countP (·.guard.isSome) } := by
    have hs : ({ d with labels } : Desk) =
        d.gain { labels := 1 + clauses.countP (·.guard.isSome) } := by
      rw [gain_labels, ← Nat.add_assoc]
    rw [hs, added_eq_gain, gain_gain]
    simp [Gain.append]
  refine takeAll_finished hd.idle ?_
  rw [← hgain, endBlock]
  change (if (Chain.closeClause ⟨clauses, .filling⟩ _).state = .chained then _ else _) = _
  rw [hr, if_neg (by simp)]
  change ((Chain.mk clauses .resolved).emit d.labels >>= fun _ => _) = _
  rw [hemit]
  exact emit_of_open (d := { d with labels }) hd.opened code

/-- The word that continues a chain comes next. -/
theorem nextWordIs_otherwise (hr : Apart rest) (line : UInt32) :
    (Cursor.mk (spaced "selainnya" ++ rest) line).nextWordIs "selainnya" = true := by
  have hall : "selainnya".toList.all isWordChar = true := rfl
  have hw := List.all_eq_true.1 hall
  change (Cursor.mk (' ' :: ("selainnya".toList ++ rest)) line).nextWordIs "selainnya" = true
  rw [Cursor.nextWordIs_blank rfl, Cursor.nextWordIs, Cursor.gap_word (by simp) hw,
    word_append hw (.of_apart (by simp) hr)]
  rfl

/-- A chain goes on with the word that continues it. -/
theorem takeAll_chained {c : Clause} {clauses : List Clause} (hd : d.Between m)
    (hk : c.kind ≠ .last) (hr : Apart rest) :
    (d.inside (.chain ⟨c :: clauses, .filling⟩)).takeAll
        ⟨spaced "\x7d" ++ (spaced "selainnya" ++ rest), line⟩ =
      ((d.pushBlock (.chain ⟨c :: clauses, .chained⟩)).gather [.keyword .otherwise]).takeAll
        ⟨rest, line⟩ := by
  have hend : (d.pushBlock (.chain ⟨c :: clauses, .filling⟩)).endBlock
      ⟨spaced "selainnya" ++ rest, line⟩ =
        .ok (d.pushBlock (.chain ⟨c :: clauses, .chained⟩)) := by
    have hc : (Chain.mk (c :: clauses) .filling).closeClause true = ⟨c :: clauses, .chained⟩ := by
      simp [Chain.closeClause, hk]
    rw [endBlock]
    change (if (Chain.closeClause ⟨c :: clauses, .filling⟩ _).state = .chained then _ else _) = _
    rw [nextWordIs_otherwise hr, hc, if_pos rfl]
    rfl
  have hword : (d.pushBlock (.chain ⟨c :: clauses, .chained⟩)).take (.keyword .otherwise)
      ⟨rest, line⟩ =
        .ok ((d.pushBlock (.chain ⟨c :: clauses, .chained⟩)).gather [.keyword .otherwise]) := by
    change (checkOtherwise _ line >>= fun _ => _) = _
    rw [checkOtherwise, if_neg (by simp [chained?, pushBlock, hd.idle.outer, hd.idle.run])]
    rfl
  rw [takeAll_finished hd.idle hend]
  exact takeAll_joined (.of_keyword rfl fun _ => rfl) hd.inString hr hword

/-- The last clause has no header. -/
theorem takeAll_lastClause (clauses : List Clause) (hd : d.Between m) :
    ((d.pushBlock (.chain ⟨clauses, .chained⟩)).gather [.keyword .otherwise]).takeAll
        ⟨spaced "\x7b" ++ '\n' :: rest, line⟩ =
      (d.inside (.chain ⟨{ kind := .last, guard := none, line } :: clauses, .filling⟩)).takeAll
        ⟨rest, line + 1⟩ := by
  have hi : (d.pushBlock (.chain ⟨clauses, .chained⟩)).Idle m :=
    ⟨hd.idle.nesting, hd.idle.run, hd.idle.outer, hd.idle.strings⟩
  have htake : ((d.pushBlock (.chain ⟨clauses, .chained⟩)).gather [.keyword .otherwise]).take
      (.bracket .openCurly) ⟨'\n' :: rest, line⟩ =
        .ok (d.inside (.chain ⟨{ kind := .last, guard := none, line } :: clauses, .filling⟩)) := by
    have hh : ((d.pushBlock (.chain ⟨clauses, .chained⟩)).gather [.keyword .otherwise]).header =
      none := hd.header
    have ho : ((d.pushBlock (.chain ⟨clauses, .chained⟩)).gather
      [.keyword .otherwise]).outer.isEmpty = true := List.isEmpty_iff.2 hd.idle.outer
    change openCurly _ line = _
    rw [openCurly, hh]
    change (beginLastClause _ line >>= fun _ => _) = _
    rw [beginLastClause, hi.run_gather, if_pos ⟨rfl, ho⟩, hi.clear_gather]
    rfl
  rw [takeAll_spaced (d := (d.pushBlock _).gather _) (.of_symbol (.bracket .openCurly) rfl rfl)
    hd.inString (.cons rfl rest) htake]
  exact takeAll_blank rfl rfl

theorem apart_guard (word : String) (e : Expr) (rest : List Char) :
    Apart (renderGuard (spaced word) e ++ rest) :=
  .cons rfl _

/-- A further clause. -/
theorem takeAll_furtherClause (clauses : List Clause) {e : Expr} (hd : d.Between m)
    (he : e.fits d.context = true) :
    ((d.pushBlock (.chain ⟨clauses, .chained⟩)).gather [.keyword .otherwise]).takeAll
        ⟨renderGuard (spaced "jika") e ++ (spaced "\x7b" ++ '\n' :: rest), line⟩ =
      (d.inside (.chain
        ⟨{ kind := .further, guard := some e.asm, line } :: clauses, .filling⟩)).takeAll
          ⟨rest, line + 1⟩ := by
  have hi : (d.pushBlock (.chain ⟨clauses, .chained⟩)).Idle m :=
    ⟨hd.idle.nesting, hd.idle.run, hd.idle.outer, hd.idle.strings⟩
  have he' : e.fits (d.pushBlock (.chain ⟨clauses, .chained⟩)).context = true := he
  rw [renderGuard]
  simp only [List.append_assoc]
  rw [takeAll_joined (d := (d.pushBlock _).gather _) (t := fun _ => .keyword .cond)
      (.of_keyword rfl fun _ => rfl) hd.inString (apart_spaced _ _) rfl, gather_gather,
    List.singleton_append, takeAll_guard hi (roundKind_further hi) he',
    takeAll_begun (d := d.pushBlock _) hd.header hi rfl]
  rfl

theorem takeAll_firstClause {e : Expr} (hd : d.Between m) (he : e.fits d.context = true) :
    d.takeAll ⟨renderGuard (spaced "jika") e ++ (spaced "\x7b" ++ '\n' :: rest), line⟩ =
      (d.inside (.chain (.start e.asm line))).takeAll ⟨rest, line + 1⟩ := by
  rw [renderGuard]
  simp only [List.append_assoc]
  rw [takeAll_joined (t := fun _ => .keyword .cond) (.of_keyword rfl fun _ => rfl) hd.inString
      (apart_spaced _ _) rfl,
    takeAll_guard hd.idle (roundKind_first hd.idle) he, takeAll_begun hd.header hd.idle rfl]
  rfl

/-! ## Where statements stand -/

/-- All that the reading of statements depends on. -/
structure Stands (d : Desk) (m : Nat) (ctx : Context) (inFunction inLoop : Bool) (k n : Nat)
    (exits : Exits Label) : Prop where
  between : d.Between m
  context : d.context = ctx
  inFunction : d.inFunction = inFunction
  inLoop : d.inLoop = inLoop
  chunks : d.chunks.length = k
  labels : d.labels.next = n
  exits : d.exits = exits

namespace Stands

variable {ctx : Context} {inFunction inLoop : Bool} {k n : Nat} {exits : Exits Label}

theorem gain (hd : d.Stands m ctx inFunction inLoop k n exits) (g : Gain) :
    (d.gain g).Stands m (ctx.add g.functions (g.names.map fun p => (p.1, p.2.kind))) inFunction
      inLoop (k + g.chunks.length) (n + g.labels) exits where
  between := hd.between.gain g
  context := by rw [context_gain, hd.context]
  inFunction := (inFunction_gain g d).trans hd.inFunction
  inLoop := (inLoop_gain g d).trans hd.inLoop
  chunks := by rw [← hd.chunks]; exact List.length_append
  labels := by rw [← hd.labels]; rfl
  exits := (exits_gain g d).trans hd.exits

theorem announced (hd : d.Stands m ctx inFunction inLoop k n exits) (f : String) :
    (d.gain { functions := [f] }).Stands m (ctx.add [f] []) inFunction inLoop k n exits :=
  hd.gain { functions := [f] }

theorem labelled (hd : d.Stands m ctx inFunction inLoop k n exits) (labels : Nat) :
    (d.gain { labels }).Stands m ctx inFunction inLoop k (n + labels) exits := by
  have hg := hd.gain { labels }
  rwa [show ctx.add [] (List.map _ []) = ctx by simp [Context.add]] at hg

theorem stmt (hd : d.Stands m ctx inFunction inLoop k n exits) (st : Stmt) (line : UInt32) :
    (d.gain (st.gain k n line exits)).Stands m (ctx.add st.functions st.names) inFunction inLoop
      (k + st.count) (n + st.labels) exits := by
  have hg := hd.gain (st.gain k n line exits)
  rwa [show (st.gain k n line exits).chunks.length = st.count from st.length_chunks k line,
    show (st.gain k n line exits).names.map _ = st.names from st.map_entries line] at hg

theorem statements (hd : d.Stands m ctx inFunction inLoop k n exits) (body : List Stmt)
    (line : UInt32) :
    (d.gain (gainOf k n line exits body)).Stands m (ctx.add (functionsOf body) (namesOf body))
      inFunction inLoop (k + countOf body) (n + labelsOf body) exits := by
  have hg := hd.gain (gainOf k n line exits body)
  rwa [show (gainOf k n line exits body).chunks.length = countOf body from
      length_chunksOf body k line,
    show (gainOf k n line exits body).names.map _ = namesOf body from map_entriesOf body line] at hg

/-- The desk around a block after the body of the block. -/
theorem body (hd : d.Stands m ctx inFunction inLoop k n exits) (inner : Exits Label)
    (body : List Stmt) (line : UInt32) :
    (d.gain (gainOf k n line inner body).around).Stands m
      (ctx.add (functionsOf body) (namesOf body)) inFunction inLoop (k + countOf body)
        (n + labelsOf body) exits := by
  have hg := hd.gain (gainOf k n line inner body).around
  rwa [show (gainOf k n line inner body).around.chunks.length = countOf body from
      length_chunksOf body k line,
    show (gainOf k n line inner body).around.names.map _ = namesOf body from
      map_entriesOf body line] at hg

theorem context_inside (d : Desk) {b : Block} (hb : b.names? = none) :
    (d.inside b).context = d.context := by
  simp [Desk.context, names, inside, hb]

theorem inFunction_inside (d : Desk) {b : Block} (hb : b.names? = none) :
    (d.inside b).inFunction = d.inFunction := by
  simp [Desk.inFunction, inside, hb]

theorem loop (hd : d.Stands m ctx inFunction inLoop k n exits) (b : LoopBlock) :
    (d.inside (.loop b)).Stands (m + 1) ctx inFunction true k n ⟨b.start, b.stop⟩ where
  between := hd.between.inside rfl
  context := (context_inside d rfl).trans hd.context
  inFunction := (inFunction_inside d rfl).trans hd.inFunction
  inLoop := rfl
  chunks := hd.chunks
  labels := hd.labels
  exits := rfl

theorem chain (hd : d.Stands m ctx inFunction inLoop k n exits) (clauses : List Clause) :
    (d.inside (.chain ⟨clauses, .filling⟩)).Stands (m + 1) ctx inFunction inLoop k n exits where
  between := hd.between.inside rfl
  context := (context_inside d rfl).trans hd.context
  inFunction := (inFunction_inside d rfl).trans hd.inFunction
  inLoop := hd.inLoop
  chunks := hd.chunks
  labels := hd.labels
  exits := hd.exits

theorem function (hd : d.Stands m ctx inFunction inLoop k n exits) {b : FunctionBlock}
    (hb : b.isAnonymous = false) :
    (d.inside (.function b)).Stands (m + 1)
      ⟨ctx.functions, b.names.entries.map fun p => (p.1, p.2.kind)⟩ true false k n
        noLabels where
  between := hd.between.inside (by simpa [Block.isOpen, FunctionBlock.isAnonymous] using hb)
  context := by
    rw [← hd.context]
    simp [Desk.context, contextOf, names, inside, Block.names?, hb]
  inFunction := by simp [Desk.inFunction, inside, Block.names?, hb]
  inLoop := rfl
  chunks := hd.chunks
  labels := hd.labels
  exits := rfl

/-- The beginning of the body of a named function. -/
theorem begun {f : String} (hd : d.Stands m (ctx.add [f] []) inFunction inLoop k n exits)
    (params : List Binder) (line : UInt32) :
    (d.inside (.function (Desk.begun f params line))).Stands (m + 1) (ctx.inside f params) true
      false k n noLabels := by
  have hb := hd.function (b := Desk.begun f params line) rfl
  have hn : (paramEntries line params).map (fun p => (p.1, p.2.kind)) =
      (params.map fun b => (b.name, NameKind.param)).reverse := by
    rw [paramEntries, List.map_reverse, List.map_map]
    rfl
  rwa [show (Desk.begun f params line).names.entries.map _ = _ from hn] at hb

end Stands

/-! ## Statements -/

section
variable {ctx : Context} {inFunction inLoop : Bool} {k n : Nat} {exits : Exits Label}

mutual

/-- **The text of a statement adds what the statement stands for.** -/
theorem takeAll_stmt : ∀ {st : Stmt} {ctx : Context} {inFunction inLoop : Bool},
    st.fits ctx inFunction inLoop = true → ∀ {d : Desk} {m k n : Nat} {exits : Exits Label},
      d.Stands m ctx inFunction inLoop k n exits → ∀ (line : UInt32) {rest : List Char},
        EndsChain rest →
        d.takeAll ⟨st.render ++ rest, line⟩ =
          (d.gain (st.gain k n line exits)).takeAll ⟨rest, line + st.lines⟩
  | .function f params body, ctx, inFunction, inLoop, h, d, m, k, n, exits, hd, line, rest, _ => by
    simp only [Stmt.fits, Bool.and_eq_true, Bool.not_eq_true'] at h
    obtain ⟨⟨⟨hl, hf⟩, hp⟩, hb⟩ := h
    have hd₁ := hd.announced f
    have hk : ((d.gain { functions := [f] }).gain
        (gainOf k n (line + 1) noLabels body).shared).chunks.length = k + countOf body :=
      (hd₁.body noLabels body (line + 1)).chunks
    have hend := finish_begun hb f params line n (line + 1) noLabels hk
    have hlines : line + 1 + linesOf body + 1 = line + (Stmt.function f params body).lines := by
      rw [Stmt.lines]
      grind
    rw [Stmt.render, braced]
    simp only [List.append_assoc, List.cons_append, List.nil_append]
    rw [takeAll_functionHead hd.between hl (by rw [hd.context]; exact hf) hp,
      takeAll_body hb (hd₁.begun params line) (line + 1) (.closeCurly _), gain_function _ rfl,
      takeAll_functionEnd (hd₁.between.gain _) hend, gain_gain, gain_gain, hlines,
      Stmt.gain_function k n line exits f params body noLabels]
  | .simple s, ctx, inFunction, inLoop, h, d, m, k, n, exits, hd, line, rest, _ => by
    rw [Stmt.fits, ← hd.context, ← hd.inFunction] at h
    rw [Stmt.render, takeAll_simple h hd.between, Stmt.lines]
    simp [Stmt.gain, Simple.gain, Stmt.asm, Stmt.entries, Stmt.functions, Stmt.chunks, Stmt.labels]
  | .loop guard body, ctx, inFunction, inLoop, h, d, m, k, n, exits, hd, line, rest, _ => by
    rw [Stmt.fits, Bool.and_eq_true] at h
    let b : LoopBlock := { guard := guard.asm, start := ⟨n⟩, stop := ⟨n + 1⟩, line }
    have hd₁ := hd.labelled 2
    rw [Stmt.render, braced]
    simp only [List.append_assoc, List.cons_append, List.nil_append]
    rw [takeAll_loopHead hd.between (by rw [hd.context]; exact h.1), hd.labels,
      takeAll_body h.2 (hd₁.loop b) (line + 1) (.closeCurly _), gain_loop,
      takeAll_loopEnd (hd₁.body _ body (line + 1)).between, gain_gain, gain_gain]
    have hl : line + 1 + linesOf body + 1 = line + (Stmt.loop guard body).lines := by
      rw [Stmt.lines]
      grind
    rw [Stmt.gain_loop, hl]
    rfl
  | .stop, ctx, inFunction, inLoop, h, d, m, k, n, exits, hd, line, rest, _ => by
    rw [Stmt.fits, ← hd.inLoop] at h
    rw [Stmt.render, takeAll_stop hd.between h, hd.exits, Stmt.lines]
    simp [Stmt.gain, Stmt.asm, Stmt.entries, Stmt.functions, Stmt.chunks, Stmt.labels]
  | .skip, ctx, inFunction, inLoop, h, d, m, k, n, exits, hd, line, rest, _ => by
    rw [Stmt.fits, ← hd.inLoop] at h
    rw [Stmt.render, takeAll_skip hd.between h, hd.exits, Stmt.lines]
    simp [Stmt.gain, Stmt.asm, Stmt.entries, Stmt.functions, Stmt.chunks, Stmt.labels]
  | .cond guard body more, ctx, inFunction, inLoop, h, d, m, k, n, exits, hd, line, rest, hr => by
    simp only [Stmt.fits, Bool.and_eq_true] at h
    have hl : line + 1 + linesOf body + more.lines = line + (Stmt.cond guard body more).lines := by
      rw [Stmt.lines]
      grind
    rw [Stmt.render, braced]
    simp only [List.append_assoc, List.cons_append, List.nil_append]
    rw [takeAll_firstClause hd.between (by rw [hd.context]; exact h.1.1), Chain.start,
      takeAll_body h.1.2 (hd.chain _) (line + 1) (.closeCurly _), gain_chain,
      takeAll_rest h.2 (hd.body _ body (line + 1)) _ (by simp) _ hr, gain_gain, hl, Stmt.gain_cond]
    rfl

theorem takeAll_rest : ∀ {more : Rest} {ctx : Context} {inFunction inLoop : Bool},
    more.fits ctx inFunction inLoop = true → ∀ {d : Desk} {m k n : Nat} {exits : Exits Label},
      d.Stands m ctx inFunction inLoop k n exits → ∀ {c : Clause} (clauses : List Clause),
        c.kind ≠ .last → ∀ (line : UInt32) {rest : List Char}, EndsChain rest →
          (d.inside (.chain ⟨c :: clauses, .filling⟩)).takeAll
              ⟨spaced "\x7d" ++ (more.render ++ rest), line⟩ =
            (d.gain (more.gain k n line exits (c :: clauses))).takeAll
              ⟨rest, line + more.lines⟩
  | .done, ctx, inFunction, inLoop, h, d, m, k, n, exits, hd, c, clauses, hk, line, rest, hr => by
    have hres : (Chain.mk (c :: clauses) .filling).closeClause
        ((Cursor.mk ('\n' :: rest) line).nextWordIs "selainnya") =
          ⟨c :: clauses, .resolved⟩ := by
      rw [hr.blank rfl line]
      rfl
    rw [Rest.render, List.singleton_append, takeAll_resolved hd.between hres,
      takeAll_blank rfl (hd.between.gain _).inString, Rest.lines, hd.labels]
    simp [Rest.gain, Rest.asm, Rest.entries, Rest.functions, Rest.chunks, Rest.labels, Rest.guards,
      Cursor.lineAfter]
  | .last body, ctx, inFunction, inLoop, h, d, m, k, n, exits, hd, c, clauses, hk, line, rest, hr => by
    rw [Rest.fits] at h
    have hd₁ := hd.body exits body (line + 1)
    have hl : line + 1 + linesOf body + 1 = line + (Rest.last body).lines := by
      rw [Rest.lines]
      grind
    rw [Rest.render, braced]
    simp only [List.append_assoc, List.cons_append, List.nil_append]
    rw [takeAll_chained hd.between hk (apart_spaced _ _), takeAll_lastClause _ hd.between,
      takeAll_body h (hd.chain _) (line + 1) (.closeCurly _), gain_chain,
      takeAll_resolved hd₁.between (by simp [Chain.closeClause]), gain_gain, hd₁.labels,
      takeAll_blank rfl (hd.between.gain _).inString, Rest.gain_last, ← hl]
    rfl
  | .further guard body more, ctx, inFunction, inLoop, h, d, m, k, n, exits, hd, c, clauses, hk,
      line, rest, hr => by
    simp only [Rest.fits, Bool.and_eq_true] at h
    have hl : line + 1 + linesOf body + more.lines =
        line + (Rest.further guard body more).lines := by
      rw [Rest.lines]
      grind
    have hg : renderGuard (spaced "selainnya" ++ spaced "jika") guard =
        spaced "selainnya" ++ renderGuard (spaced "jika") guard := by
      simp [renderGuard]
    rw [Rest.render, braced, hg]
    simp only [List.append_assoc, List.cons_append, List.nil_append]
    rw [takeAll_chained hd.between hk (apart_guard "jika" guard _),
      takeAll_furtherClause _ hd.between (by rw [hd.context]; exact h.1.1),
      takeAll_body h.1.2 (hd.chain _) (line + 1) (.closeCurly _), gain_chain,
      takeAll_rest h.2 (hd.body _ body (line + 1)) _ (by simp) _ hr, gain_gain, hl,
      Rest.gain_further]
    rfl

theorem takeAll_body : ∀ {body : List Stmt} {ctx : Context} {inFunction inLoop : Bool},
    bodyFits ctx inFunction inLoop body = true → ∀ {d : Desk} {m k n : Nat} {exits : Exits Label},
      d.Stands m ctx inFunction inLoop k n exits → ∀ (line : UInt32) {rest : List Char},
        EndsChain rest →
        d.takeAll ⟨renderAll body ++ rest, line⟩ =
          (d.gain (gainOf k n line exits body)).takeAll ⟨rest, line + linesOf body⟩
  | [], ctx, inFunction, inLoop, h, d, m, k, n, exits, hd, line, rest, _ => by
    rw [renderAll, List.nil_append, gainOf_nil, ← added_eq_gain, added_nil, linesOf,
      UInt32.add_zero]
  | st :: body, ctx, inFunction, inLoop, h, d, m, k, n, exits, hd, line, rest, hr => by
    rw [bodyFits, Bool.and_eq_true] at h
    rw [renderAll, List.append_assoc, takeAll_stmt h.1 hd line (endsChain_body h.2 hr),
      takeAll_body h.2 (hd.stmt st line) (line + st.lines) hr, gain_gain, gainOf_cons, linesOf,
      UInt32.add_assoc]

end

end

end Desk

end Naskah
