/-
  Compiling the text of a script.  The text is read up to its end; what is read adds up to the
  symbolic code and the chunks of the script, and the code is assembled.  So compilation in one
  pass gives the program that the tree of the script stands for (`compile_script`).
-/
import Naskah.Proofs.Tree.Blocks

namespace Naskah

open Scan Naskah.Tree

namespace Tree

/-! ## The entry point -/

/-- What an entry point on a line adds after `k` chunks and `n` labels. -/
def entryGain (k n : Nat) (line : UInt32) (body : List Stmt) : Gain :=
  .append { functions := [entryName], labels := 1 }
    ((gainOf k (n + 1) (line + 1) noLabels body).shared.append { code := entryAsm k n body })

end Tree

namespace Desk

variable {d : Desk} {line : UInt32}

section
variable {ctx : Context} {inFunction inLoop : Bool} {k n : Nat} {exits : Exits Label}

theorem Stands.entered (hd : d.Stands 0 ctx inFunction inLoop k n exits) :
    ({ d with hasEntry := true } : Desk).Stands 0 ctx inFunction inLoop k n exits :=
  ⟨⟨hd.between.header, ⟨hd.between.idle.nesting, hd.between.idle.run, hd.between.idle.outer,
    hd.between.idle.strings⟩, hd.between.opened⟩, hd.context, hd.inFunction, hd.inLoop, hd.chunks,
    hd.labels, hd.exits⟩

/-- After an entry point the names are those of the module again. -/
theorem Stands.entry (hd : d.Stands 0 ctx inFunction inLoop k n exits) (line : UInt32)
    (body : List Stmt) :
    (d.gain (entryGain k n line body)).Stands 0
      ⟨ctx.functions ++ [entryName] ++ functionsOf body, ctx.names⟩ inFunction inLoop
        (k + countOf body) (n + 1 + labelsOf body) exits := by
  have hg := hd.gain (entryGain k n line body)
  have hc : (entryGain k n line body).chunks.length = countOf body := by
    simp [entryGain, Gain.append, Gain.shared, gainOf, length_chunksOf]
  have hl : n + (entryGain k n line body).labels = n + 1 + labelsOf body := by
    simp [entryGain, Gain.append, Gain.shared, gainOf, Nat.add_assoc]
  have hx : ctx.add (entryGain k n line body).functions
      ((entryGain k n line body).names.map fun p => (p.1, p.2.kind)) =
        ⟨ctx.functions ++ [entryName] ++ functionsOf body, ctx.names⟩ := by
    simp [entryGain, Gain.append, Gain.shared, gainOf, Context.add]
  rw [hc, hl, hx] at hg
  exact hg

/-- **The text of an entry point adds its code to the module.** -/
theorem takeAll_entryPoint (hd : d.Stands 0 ctx inFunction inLoop k n exits)
    (hf : ctx.hasFunction entryName = false) {body : List Stmt}
    (h : bodyFits ⟨ctx.functions ++ [entryName], []⟩ true false body = true) (rest : List Char) :
    d.takeAll ⟨renderEntry body ++ rest, line⟩ =
      (({ d with hasEntry := true } : Desk).gain (entryGain k n line body)).takeAll
        ⟨rest, line + (linesOf body + 2)⟩ := by
  let d₁ : Desk := { d with hasEntry := true }
  let b : FunctionBlock := { role := .entry ⟨n⟩, params := [], names := {}, line }
  have hd₁ : d₁.Stands 0 ctx inFunction inLoop k n exits := hd.entered
  have hd₂ : (d₁.gain { functions := [entryName] }).Stands 0 (ctx.add [entryName] []) inFunction
    inLoop k n exits := hd₁.announced entryName
  have hd₃ := hd₂.labelled 1
  have hd₄ : (Desk.inside _ (.function b)).Stands 1 ⟨ctx.functions ++ [entryName], []⟩ true false k
    (n + 1) noLabels := hd₃.function rfl
  have hlines : line + 1 + linesOf body + 1 = line + (linesOf body + 2) := by grind
  have hbegin : (d₁.gain { functions := [entryName] }).beginBlock (.entry line) =
      .ok (((d₁.gain { functions := [entryName] }).gain { labels := 1 }).pushBlock (.function b)) := by
    have hn : (d₁.gain { functions := [entryName] }).labels.fresh.1 = ⟨n⟩ :=
      congrArg Label.mk hd₂.labels
    rw [beginBlock, beginFunction, FunctionBlock.begin, hn, gain_labels]
    rfl
  have hend : ∀ chunks, (b.gained (gainOf k (n + 1) (line + 1) noLabels body)).finish chunks =
      .ok (entryAsm k n body, chunks ++ []) := by
    intro chunks
    rw [List.append_nil]
    rfl
  rw [renderEntry, braced]
  simp only [List.append_assoc, List.cons_append, List.nil_append]
  rw [takeAll_entry hd.between (by rw [hd.context]; exact hf),
    takeAll_begun hd₂.between.header hd₂.between.idle hbegin]
  refine (takeAll_body h hd₄ (line + 1) (.closeCurly _)).trans ?_
  rw [gain_function _ rfl, takeAll_functionEnd (hd₃.between.gain _) (hend _), gain_gain, gain_gain,
    gain_gain, hlines]
  simp [entryGain, Gain.append, d₁]

end

/-! ## Scripts -/

theorem takeAll_atEnd (hq : d.nesting.inString = false) {cs : List Char} (h : atEnd cs = true)
    (line : UInt32) : d.takeAll ⟨cs, line⟩ = .ok (d, ⟨cs, line⟩) := by
  rw [takeAll_eq, if_neg (by simp [hq]), Cursor.next_atEnd h line]

theorem blocks_of_between (h : d.Between 0) : d.blocks = [] :=
  List.length_eq_zero_iff.1 h.opened.length_eq

/-- Outside of all blocks code goes to the module. -/
theorem code_gain (h : d.blocks = []) (g : Gain) : (d.gain g).code = d.code ++ g.code := by
  have hn : ∀ x ∈ d.blocks, x.names? = none := by simp [h]
  rw [gain, setNames_of_none hn, added, h]
  rfl

theorem hasEntry_gain (d : Desk) (g : Gain) : (d.gain g).hasEntry = d.hasEntry := by
  unfold gain stocked added setNames
  split <;> split <;> rfl

end Desk

namespace Tree.Script

open Desk

/-- The desk after the text of a script. -/
def desk (s : Script) : Desk :=
  let before := ({} : Desk).gain (gainOf 0 0 1 noLabels s.before)
  ({ before with hasEntry := true } : Desk).gain
    ((entryGain (countOf s.before) (labelsOf s.before) (1 + linesOf s.before) s.entry).append
      (gainOf (countOf s.before + countOf s.entry) (labelsOf s.before + 1 + labelsOf s.entry)
        (1 + linesOf s.before + (linesOf s.entry + 2)) noLabels s.after))

theorem stands_empty : ({} : Desk).Stands 0 {} false false 0 0 noLabels :=
  ⟨⟨rfl, ⟨rfl, rfl, rfl, rfl⟩, ⟨rfl, by simp⟩⟩, rfl, rfl, rfl, rfl, rfl, rfl⟩

theorem stands_before (s : Script) : (({} : Desk).gain (gainOf 0 0 1 noLabels s.before)).Stands 0
    ⟨functionsOf s.before, namesOf s.before⟩ false false (countOf s.before) (labelsOf s.before)
      noLabels := by
  have hd := stands_empty.statements s.before 1
  have hctx : (Context.add {} (functionsOf s.before) (namesOf s.before)) =
      ⟨functionsOf s.before, namesOf s.before⟩ := by simp [Context.add]
  rw [hctx, Nat.zero_add, Nat.zero_add] at hd
  exact hd

/-- **The text of a script is read to its end.** -/
theorem takeAll_render {s : Script} (h : s.fits = true) {cs : List Char} (hcs : atEnd cs = true) :
    ∃ line, ({} : Desk).takeAll ⟨s.render.toList ++ cs, 1⟩ = .ok (s.desk, ⟨cs, line⟩) := by
  simp only [Script.fits, Bool.and_eq_true] at h
  obtain ⟨⟨hb, he⟩, ha⟩ := h
  have hd₁ := s.stands_before
  have hd₂ := hd₁.entered.entry (1 + linesOf s.before) s.entry
  have hentry : EndsChain (renderEntry s.entry ++ (renderAll s.after ++ cs)) := by
    rw [renderEntry]
    simp only [List.append_assoc]
    exact .keyword .entry (by simp) (.of_keyword rfl fun _ => rfl) (apart_spaced _ _)
  rw [Script.render, String.toList_ofList, List.append_assoc, List.append_assoc,
    takeAll_body hb stands_empty 1 hentry, takeAll_entryPoint hd₁ (hasFunction_entryName hb _) he,
    takeAll_body ha hd₂ _ (.atEnd hcs), gain_gain]
  exact ⟨_, takeAll_atEnd (hd₁.entered.between.gain _).inString hcs _⟩

theorem finish_desk {s : Script} (h : s.fits = true) (c : Cursor) :
    s.desk.finish c = .ok s.generate := by
  have hd : s.desk.Between 0 := (s.stands_before.entered.between.gain _)
  have hcode : s.desk.code = s.asm := by
    rw [desk, code_gain (blocks_of_between s.stands_before.entered.between)]
    change (Desk.gain {} (gainOf 0 0 1 noLabels s.before)).code ++ _ = _
    rw [code_gain rfl]
    simp [gainOf, entryGain, Gain.append, Gain.shared, asm]
  have hchunks : s.desk.chunks = s.generate.chunks := by
    have hentry : 1 + linesOf s.before + 1 = linesOf s.before + 2 := by grind
    have hafter : 1 + linesOf s.before + (linesOf s.entry + 2) =
        linesOf s.before + linesOf s.entry + 3 := by grind
    rw [desk, hafter, entryGain, hentry]
    change ([] ++ chunksOf 0 1 s.before) ++ (([] ++ (_ ++ [])) ++ _) = _
    rw [List.nil_append, List.nil_append, List.append_nil, ← List.append_assoc]
    rfl
  have hentry : s.desk.hasEntry = true := hasEntry_gain _ _
  have hn : s.desk.nesting.closer? = none := by rw [hd.idle.nesting]; rfl
  rw [finish, hn]
  simp only [hd.idle.run, hd.header, blocks_of_between hd, hentry, hcode, assemble_asm h, hchunks]
  simp

/-- A buffer with the text of a script in front of its end is compiled to the program of the
    script. -/
theorem compileBuffer_render {s : Script} (h : s.fits = true) {buffer : String} {cs : List Char}
    (hb : buffer.toList = s.render.toList ++ cs) (hcs : atEnd cs = true) :
    compileBuffer buffer = .ok s.generate := by
  obtain ⟨line, hread⟩ := takeAll_render h hcs
  rw [compileBuffer, Cursor.start, hb, hread]
  exact finish_desk h ⟨cs, line⟩

/-- **Compilation in one pass is code generation from the tree.**  In 32 bits this is about scripts
    with fewer than `2 ^ 32` labels, instructions and chunks; lines have 32 bits in either. -/
theorem compile_script {s : Script} (h : s.fits = true) : compile s.render = .ok s.generate := by
  obtain ⟨cs, hb, hcs⟩ := toList_withEndMark s.render
  exact compileBuffer_render h hb hcs

/-- Multiplication by repeated addition, and a loop that prints some multiples of five. -/
def multiples : Script where
  before := [.function "kali" [⟨"a", none⟩, ⟨"b", some .int⟩]
    [.cond (.apply (.compare .lt) (.name "a") (.int 1)) [.simple (.result (some (.int 0)))] .done,
     .simple (.result (some (.apply (.binary .add) (.name "b")
      (.call "kali" [.apply (.binary .sub) (.name "a") (.int 1), .name "b"]))))]]
  entry := [.simple (.var ⟨"i", none⟩ (some (.int 0))),
    .loop (.apply (.compare .lt) (.name "i") (.int 3))
      [.simple (.step "i" true),
       .cond (.apply .equal (.name "i") (.int 2)) [.skip]
        (.last [.simple (.expr (.print
          [.string .double (.hole "5 * " (.name "i") (.hole " = "
            (.call "kali" [.name "i", .int 5]) (.last "!")))]))])]]

theorem compile_multiples : multiples.fits = true ∧
    compile multiples.render = .ok multiples.generate :=
  have h : multiples.fits = true := rfl
  ⟨h, compile_script h⟩

end Tree.Script

/-! ## Calls with too many arguments -/

open Expression in
/-- No code is made for a call with too many arguments. -/
theorem Tree.compile_long_call {names : Names} {functions : Functions} {f : String}
    {args : List Expr} (hf : (contextOf names functions).hasFunction f = true)
    (ha : fitAll (contextOf names functions) args = true) (hn : 255 < args.length) (line : UInt32) :
    Expression.compile (Scope.mk names functions) line ((Expr.call f args).tokens line) =
      broken (.tooManyArguments args.length) := by
  have hargs := proper_terms line ha
  have hi : Expression.items (Scope.mk names functions) line 0 []
      (((Expr.call f args).term line).tokens ++ []) = _ :=
    Term.items_callee (r := Scope.mk names functions) (c := .function ⟨f, line⟩)
      (check_of_hasFunction hf line)
      (fun t ht => (hargs t ht).fits) (fun t ht => (hargs t ht).compile line) rfl []
  rw [map_code_terms line ha, Expr.tokens_term] at hi
  have hcode : (Operand.call f (args.map Expr.asm)).code =
      broken (.tooManyArguments args.length) := by
    rw [Operand.code, List.length_map, if_neg (Nat.not_le.2 hn)]
  rw [List.append_nil, items_nil] at hi
  rw [Expression.compile, hi]
  change itemsCode [.operand (.call f (args.map Expr.asm))] = _
  simp only [itemsCode, toPostfix, List.foldlM_cons, combine, hcode]
  rfl

namespace Desk

variable {d : Desk} {m : Nat} {line : UInt32}

/-- A statement that is a call with too many arguments is not taken. -/
theorem takeAll_long_call (hd : d.Between m) {f : String} (hl : isLegalName f = true)
    (hf : d.context.hasFunction f = true) {args : List Expr} (ha : fitAll d.context args = true)
    (hn : 255 < args.length) (rest : List Char) :
    d.takeAll ⟨(Expr.call f args).render ++ (ended ++ rest), line⟩ =
      broken (.tooManyArguments args.length) := by
  have hargs := takeAll_args (d := (d.gather [.identifier ⟨f, line⟩]).opened (.call d.atHead)) ha
    (atOperand_opened _ _) (not_atStart_opened _ _) line (apart_spaced ")" (ended ++ rest))
  have hnext : (Cursor.mk (ended ++ rest) line).next =
      (.ok (.token (.punctuation .semicolon)), ⟨'\n' :: rest, line⟩) := by
    rw [ended, List.append_assoc]
    exact (Cursor.next_blank rfl).trans
      (Spelled.of_symbol (.punctuation .semicolon) rfl rfl _ line (.cons rfl rest))
  have hcompile : d.expression line ((Expr.call f args).tokens line) =
    broken (.tooManyArguments args.length) := compile_long_call hf ha hn line
  have hend : (d.gather ((Expr.call f args).tokens line)).take (.punctuation .semicolon)
      ⟨'\n' :: rest, line⟩ = broken (.tooManyArguments args.length) := by
    change (d.gather _).endStatement line = _
    rw [endStatement, hd.idle.run_gather, hd.idle.clear_gather, statement_expr, hcompile,
      if_neg (by simp [gather, hd.idle.outer]), if_neg (by simp), if_neg (Expr.tokens_ne_nil _ _)]
    rfl
  rw [takeAll_call hl hf hd.atOperand hargs (apart_ended rest) fun _ => search_ended line rest,
    takeAll_eq, if_neg (by simp [hd.inString, gather]), hnext]
  simp only [hend]
  rfl

end Desk

namespace Tree

open Desk

/-- A function without parameters, and a call of it with the given arguments. -/
def callText (args : List Expr) : String :=
  String.ofList (renderAll [.function "f" [] []] ++ ((Expr.call "f" args).render ++ ended))

theorem fitAll_replicate {ctx : Context} {e : Expr} (h : e.fits ctx = true) (n : Nat) :
    fitAll ctx (List.replicate n e) = true := by
  induction n with
  | zero => rfl
  | succ n ih => rw [List.replicate_succ, fitAll, h, ih]; rfl

theorem compile_callText {args : List Expr} (ha : fitAll ⟨["f"], []⟩ args = true)
    (hn : 255 < args.length) :
    compile (callText args) = .error (.broken (.tooManyArguments args.length)) := by
  obtain ⟨cs, hb, -⟩ := toList_withEndMark (callText args)
  have hd : Stands _ 0 ⟨["f"], []⟩ false false 1 0 noLabels :=
    Script.stands_empty.statements [.function "f" [] []] 1
  have hends : EndsChain ((Expr.call "f" args).render ++ (ended ++ cs)) := by
    rw [Expr.render]
    simp only [List.append_assoc]
    exact .spelled (spelled_name rfl) (by simp) (apart_spaced _ _)
  rw [compile, compileBuffer, Cursor.start, hb, callText, String.toList_ofList, List.append_assoc,
    List.append_assoc, takeAll_body (k := 0) (n := 0) rfl Script.stands_empty 1 hends,
    takeAll_long_call hd.between rfl (by rw [hd.context]; rfl) (by rw [hd.context]; exact ha)
      hn]
  rfl

end Tree

end Naskah
