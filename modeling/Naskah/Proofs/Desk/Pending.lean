/-
  What has been read and not been used: the tokens of the runs, the parts of open strings, and the
  head of a block.  Code that stands in holes or in the guard of a head loads only names that some
  step used as part of an expression (`Move.awaits`).  Names among the tokens are legal, and the
  names in that code are those that the desk knows.  Moves keep this (`Move.pending`), and so the
  code of an expression loads only names that are known and legal (`Pending.expression`).
-/
import Naskah.Proofs.Desk.Course
import Naskah.Proofs.Desk.Effects

namespace Naskah

/-- A token whose holes read only names with a property. -/
def Token.Reads (R : String → Prop) : Token → Prop
  | string s => ∀ part ∈ s.parts, part.Reads R
  | _ => True

/-- A head with legal names. -/
def Header.Legal : Header → Prop
  | function name params _ => LegalName name ∧ ∀ p ∈ params, LegalName p.name
  | entry _ | guarded .. => True

/-- A head whose guard reads only names with a property. -/
def Header.Reads (R : String → Prop) : Header → Prop
  | function .. | entry _ => True
  | guarded _ guard _ => Naskah.Reads R guard

section
variable {R R' : String → Prop}

theorem StringPart.Reads.mono {part : StringPart} (h : part.Reads R) (hR : ∀ x, R x → R' x) :
    part.Reads R' := by
  cases part with
  | text s => trivial
  | hole code => exact Naskah.Reads.mono h hR

theorem Token.Reads.mono {t : Token} (h : t.Reads R) (hR : ∀ x, R x → R' x) : t.Reads R' := by
  cases t with
  | string s => exact fun part hp => StringPart.Reads.mono (h part hp) hR
  | _ => trivial

theorem Header.Reads.mono {h : Header} (hh : h.Reads R) (hR : ∀ x, R x → R' x) : h.Reads R' := by
  cases h with
  | function name params line => trivial
  | entry line => trivial
  | guarded kind guard line => exact Naskah.Reads.mono hh hR

end

/-- The function whose parameters a bracket encloses. -/
def RoundKind.defines : RoundKind → List String
  | definition name => [name]
  | entry | guard _ | call _ | group => []

namespace Desk

/-- The names that an expression may load: that of printing, and legal ones that are declared. -/
def Allows (d : Desk) (x : String) : Prop :=
  x = Builtin.print.name ∨ LegalName x ∧ (⟨d.names, d.functions⟩ : Scope).Knows x

/-- A step ends a statement or the head of a block. -/
def Completes (d d' : Desk) : Prop :=
  d'.outer.length = d.outer.length ∧ d'.run.tokens = []

instance (d d' : Desk) : Decidable (d.Completes d') :=
  inferInstanceAs (Decidable (_ ∧ _))

/-- The tokens that become code in a step: those of a hole, a guard or a statement.  Names that are
    bound and parameters do not become code. -/
def consumed (d d' : Desk) : List Token :=
  if d'.outer.length < d.outer.length then d.run.tokens
  else if d.Completes d' then
    match d'.header with
    | some (.guarded ..) => d.run.tokens
    | some _ => []
    | none => used d.run.tokens
  else []

theorem mem_of_mem_consumed {d d' : Desk} {t : Token} (h : t ∈ d.consumed d') :
    t ∈ d.run.tokens := by
  unfold consumed at h
  repeat' split at h
  · exact h
  · exact h
  · cases h
  · exact mem_of_mem_used h
  · cases h

/-- Nothing has been read that has not been used. -/
structure Quiet (d : Desk) : Prop where
  run : d.run = {}
  outer : d.outer = []
  strings : d.strings = []
  header : d.header = none

/-- Code that has been made and is not in a block reads only names with a property. -/
structure Awaits (R : String → Prop) (d : Desk) : Prop where
  tokens : ∀ r ∈ d.run :: d.outer, ∀ t ∈ r.tokens, t.Reads R
  parts : ∀ s ∈ d.strings, ∀ part ∈ s.parts, part.Reads R
  header : ∀ h ∈ d.header, h.Reads R

/-- What has been read is legal, and reads what the desk allows. -/
structure Pending (d : Desk) : Prop where
  tokens : ∀ r ∈ d.run :: d.outer, ∀ t ∈ r.tokens, t.Legal
  rounds : ∀ r ∈ d.run :: d.outer, ∀ round ∈ r.rounds, ∀ name, round.kind = .definition name →
    LegalName name
  header : ∀ h ∈ d.header, h.Legal
  awaits : d.Awaits d.Allows

section
variable {c : Cursor} {d d' : Desk} {line : UInt32} {R R' : String → Prop}

/-- Only the head of a block is open before its curly bracket. -/
theorem Shape.of_begin (hs : d.Shape (some (.bracket .openCurly))) :
    d.run = {} ∧ d.outer = [] ∧ d.strings = [] := by
  cases hs with
  | headed _ hi _ => exact ⟨hi.run, hi.outer, hi.strings⟩

/-- Nothing else is open at the end of a block. -/
theorem Shape.of_end {nesting : Nesting} (hs : d.Shape none) (hn : d.nesting = .curly :: nesting)
    (hi : d.nesting.inHole = false) (ht : d.run.tokens = []) : d.Quiet := by
  cases hs with
  | ready h =>
    obtain ⟨m', -, hr, ho, hs, -⟩ := h.of_end hn hi ht
    exact ⟨hr, ho, hs, h.header⟩

/-- Nothing else is open at the end of a statement. -/
theorem Shape.of_statement (hs : d.Shape none) (hq : d.nesting.inString = false)
    (ho : d.outer = []) (hr : d.run.rounds = []) : d.clear.Quiet := by
  cases hs with
  | ready h =>
    have hn := h.nested
    rw [ho, hr] at hn
    refine ⟨?_, ho, List.map_eq_nil_iff.1 (hn.of_outermost hq).2, h.header⟩
    show (⟨[], d.run.rounds⟩ : Run) = {}
    rw [hr]

theorem Quiet.added (h : d.Quiet) (code : List Asm) : (d.added code).Quiet := by
  obtain ⟨hr, ho, hs, hh⟩ := h
  unfold Desk.added
  split <;> exact ⟨hr, ho, hs, hh⟩

theorem Quiet.setNames (h : d.Quiet) (names : Names) : (d.setNames names).Quiet := by
  obtain ⟨hr, ho, hs, hh⟩ := h
  unfold Desk.setNames
  split <;> exact ⟨hr, ho, hs, hh⟩

/-- Nothing else is open after a block. -/
theorem Quiet.finish (h : d.Quiet) {nesting : Nesting} {blocks : List Block} {labels : LabelSupply}
    {chunks : List Chunk} (code : List Asm) :
    ({ d with nesting, blocks, labels, chunks }.added code).Quiet := by
  obtain ⟨hr, ho, hs, hh⟩ := h
  exact Quiet.added (d := { d with nesting, blocks, labels, chunks }) ⟨hr, ho, hs, hh⟩ code

/-- Nothing else is open after a statement. -/
theorem Quiet.statement {d₁ : Desk} (h : d.clear.Quiet) (code : List Asm)
    (hd : d₁ = d.clear ∨ ∃ names, d₁ = d.clear.setNames names) : (d₁.added code).Quiet := by
  rcases hd with rfl | ⟨names, rfl⟩
  · exact h.added code
  · exact (h.setNames names).added code

/-- The block of a hole is nameless and empty. -/
theorem Shape.of_hole {run : Run} {outer : List Run} {b : FunctionBlock} {blocks : List Block}
    (hs : d.Shape none) (ho : d.outer = run :: outer) (hb : d.blocks = .function b :: blocks) :
    b.role = .anonymous ∧ b.content = [] := by
  cases hs with
  | ready h =>
    have hst := h.stacked
    rw [ho] at hst
    generalize hbs : d.blocks = bs at hst
    cases hst with
    | hole hr _ hc =>
      rw [hb] at hbs
      cases hbs
      exact ⟨hr, hc⟩

/-! ## Code that awaits its block -/

/-- Nothing waits between two statements. -/
theorem Quiet.awaits (h : d.Quiet) : d.Awaits R := by
  obtain ⟨hr, ho, hs, hh⟩ := h
  constructor <;> simp [hr, ho, hs, hh]

theorem Awaits.mono (h : d.Awaits R) (hR : ∀ x, R x → R' x) : d.Awaits R' where
  tokens r hr t ht := (h.tokens r hr t ht).mono hR
  parts s hs part hp := (h.parts s hs part hp).mono hR
  header hd hh := (h.header hd hh).mono hR

/-- A token with a property joins the run. -/
theorem forall_tokens_append {P : Token → Prop} {t : Token}
    (h : ∀ r ∈ d.run :: d.outer, ∀ t ∈ r.tokens, P t) (ht : P t)
    (hr : d'.run.tokens = d.run.tokens ++ [t]) (ho : d'.outer = d.outer) :
    ∀ r ∈ d'.run :: d'.outer, ∀ t ∈ r.tokens, P t := by
  rw [List.forall_mem_cons] at h ⊢
  rw [hr, ho]
  refine ⟨fun t' ht' => ?_, h.2⟩
  rcases List.mem_append.1 ht' with ht' | ht'
  · exact h.1 t' ht'
  · rw [List.mem_singleton.1 ht']
    exact ht

theorem Awaits.push {t : Token} (h : d.Awaits R) (ht : t.Reads R) : (d.push t).Awaits R :=
  ⟨forall_tokens_append h.tokens ht rfl rfl, h.parts, h.header⟩

/-- The names in code that waits, and those of some tokens. -/
theorem Awaits.refers (h : d.Awaits R) {tokens : List Token} (ht : ∀ t ∈ tokens, t ∈ d.run.tokens)
    (hR : ∀ l, .identifier l ∈ tokens → (⟨d.names, d.functions⟩ : Scope).Knows l.text → R l.text) :
    ∀ t ∈ tokens, t.Refers ⟨d.names, d.functions⟩ R := by
  intro t hm
  cases t with
  | identifier l => exact hR l hm
  | string s => exact h.tokens d.run (by simp) _ (ht _ hm)
  | _ => trivial

/-- The code of an expression loads only names of its tokens, and those in its holes. -/
theorem Awaits.expression (h : d.Awaits R) (hp : R Builtin.print.name) {tokens : List Token}
    (ht : ∀ t ∈ tokens, t ∈ d.run.tokens)
    (hR : ∀ l, .identifier l ∈ tokens → (⟨d.names, d.functions⟩ : Scope).Knows l.text → R l.text) :
    Ensures (d.expression line tokens) (Reads R) :=
  Expression.compile_reads hp line (h.refers ht hR)

theorem reads_of_isCollected {t : Token} (h : t.isCollected = true) : t.Reads R := by
  cases t with
  | string s => cases h
  | _ => trivial

theorem forall_parts_append {part : StringPart} {parts : List StringPart}
    (h : ∀ p ∈ parts, p.Reads R) (hp : part.Reads R) : ∀ p ∈ parts ++ [part], p.Reads R := by
  intro p hm
  rcases List.mem_append.1 hm with hm | hm
  · exact h p hm
  · rw [List.mem_singleton.1 hm]
    exact hp

/-- **What waits reads only names that are used.** -/
theorem Move.awaits {awaited : Option Token} (hm : Move c d awaited d') (hs : d.Shape awaited)
    (hp : R Builtin.print.name)
    (hR : ∀ l, .identifier l ∈ d.consumed d' →
      (⟨d.names, d.functions⟩ : Scope).Knows l.text → R l.text)
    (h : d.Awaits R) : d'.Awaits R := by
  cases hm with
  | stay => exact h
  | collect ht => exact h.push (reads_of_isCollected ht)
  | openRound =>
    exact ⟨forall_tokens_append (t := .bracket .openRound) h.tokens trivial rfl rfl, h.parts,
      h.header⟩
  | closeRound =>
    exact ⟨forall_tokens_append (t := .bracket .closeRound) h.tokens trivial rfl rfl, h.parts,
      h.header⟩
  | @closeHeader nesting round rounds hd hn hr hh =>
    cases hs with
    | ready hs =>
      obtain ⟨-, rfl, ho, hst, -⟩ := hs.of_header hn hr hh.continues.1
      refine ⟨by simp [clear, unround, ho], by simp [clear, unround, hst], ?_⟩
      rintro _ ⟨⟩
      unfold Heads at hh
      simp only at hh
      split at hh
      · obtain ⟨params, -, rfl⟩ := hh
        trivial
      · subst hh
        trivial
      · obtain ⟨guard, hg, rfl⟩ := hh
        refine h.expression hp (fun t ht => List.mem_of_mem_drop ht) (fun l hl => hR l ?_) guard hg
        simpa [consumed, Completes, clear, unround] using List.mem_of_mem_drop hl
      · cases hh
      · cases hh
  | statement hq ho hr _ hd => exact ((hs.of_statement hq ho hr).statement _ hd).awaits
  | openString q => exact ⟨h.tokens, List.forall_mem_cons.2 ⟨by simp, h.parts⟩, h.header⟩
  | @closeString s strings text _ hst =>
    have hparts := h.parts
    rw [hst, List.forall_mem_cons] at hparts
    refine Awaits.push (d := { d with nesting := d.nesting.tail, strings })
      ⟨h.tokens, hparts.2, h.header⟩ ?_
    show ∀ part ∈ closingParts s.parts text, _
    unfold closingParts
    split
    · exact forall_parts_append hparts.1 trivial
    · exact hparts.1
  | openHole text _ hst =>
    have hparts := h.parts
    rw [hst, List.forall_mem_cons] at hparts
    exact ⟨List.forall_mem_cons.2 ⟨by simp, h.tokens⟩,
      List.forall_mem_cons.2 ⟨forall_parts_append hparts.1 trivial, hparts.2⟩, h.header⟩
  | @closeHole run outer b blocks s strings code _ ho hb hst he =>
    have hparts := h.parts
    rw [hst, List.forall_mem_cons] at hparts
    have htok := (List.forall_mem_cons.1 h.tokens).2
    rw [ho] at htok
    have hcode : Reads R code := by
      refine h.expression hp (fun t ht => ht) (fun l hl => hR l ?_) code he
      simpa [consumed, ho] using hl
    exact ⟨htok, List.forall_mem_cons.2 ⟨forall_parts_append hparts.1 hcode, hparts.2⟩, h.header⟩
  | beginFunction | beginEntry | beginChain | beginLoop | beginFurther =>
    obtain ⟨hr, ho, hst⟩ := hs.of_begin
    exact Quiet.awaits ⟨hr, ho, hst, rfl⟩
  | beginLast _ _ ho =>
    cases hs with
    | ready hs =>
      refine ⟨by simp [clear, ho], h.parts, ?_⟩
      rw [show d.clear.header = none from hs.header]
      simp
  | endFunction hn hi ht | endLoop hn hi ht | endChain hn hi ht =>
    exact ((hs.of_end hn hi ht).finish _).awaits
  | endClause hn hi ht =>
    obtain ⟨hr, ho, hst, hh⟩ := hs.of_end hn hi ht
    exact Quiet.awaits ⟨hr, ho, hst, hh⟩

/-! ## Round brackets -/

/-- The name of a function that is defined is a token of the run. -/
theorem mem_tokens_of_definedName? {name : String} (h : d.definedName? = some name) :
    ∃ l : Literal, l.text = name ∧ .identifier l ∈ d.run.tokens := by
  unfold definedName? at h
  split at h
  · next l ht =>
    split at h
    · cases h
      exact ⟨l, rfl, by rw [ht]; simp⟩
    · cases h
  · cases h

/-- A bracket that begins a definition comes after the name of the function. -/
theorem roundKind_definition {kind : RoundKind} {name : String} (h : d.roundKind line = .ok kind)
    (hk : kind = .definition name) : d.definedName? = some name := by
  subst hk
  unfold roundKind headerKind at h
  simp only at h
  split at h
  · next hn => cases h; exact hn
  · repeat' split at h
    all_goals cases h
  · unfold Functions.check at h
    split at h <;> cases h
  · cases h

/-- A bracket after the name of a function or after the word of the entry point declares it. -/
theorem functions_of_announce {kind : RoundKind} {functions : Functions} {hasEntry : Bool}
    (h : d.announce kind line = .ok { d with functions, hasEntry }) :
    functions = d.functions ∧ kind.defines = [] ∨
      ∃ name, d.functions.declare name line = .ok functions ∧
        (kind = .definition name ∨ kind = .entry ∧ name = entryName) := by
  unfold announce at h
  split at h
  · next name =>
    cases hf : d.functions.declare name line with
    | error e => rw [hf] at h; cases h
    | ok f =>
      rw [hf] at h
      have he : f = functions := congrArg Desk.functions (Except.ok.inj h)
      exact .inr ⟨name, by rw [hf, he], .inl rfl⟩
  · cases hf : d.functions.declare entryName line with
    | error e => rw [hf] at h; cases h
    | ok f =>
      rw [hf] at h
      have he : f = functions := congrArg Desk.functions (Except.ok.inj h)
      exact .inr ⟨entryName, by rw [hf, he], .inr ⟨rfl, rfl⟩⟩
  all_goals exact .inl ⟨(congrArg Desk.functions (Except.ok.inj h)).symm, rfl⟩

theorem declared_of_declare {t t' : Functions} {name : String} (h : t.declare name line = .ok t') :
    name ∉ t.declared ∧ t'.declared = t.declared ++ [name] := by
  unfold Functions.declare at h
  split at h
  · cases h
  · next hd =>
    cases h
    exact ⟨by simpa [Functions.isDeclared] using hd, rfl⟩

/-- Functions stay declared. -/
theorem allows_announce {kind : RoundKind} {functions : Functions} {hasEntry : Bool} {x : String}
    (h : d.announce kind line = .ok { d with functions, hasEntry }) (hx : d.Allows x) :
    Allows { d with functions } x := by
  rcases functions_of_announce h with ⟨rfl, -⟩ | ⟨name, hf, -⟩
  · exact hx
  · obtain ⟨-, hd⟩ := declared_of_declare hf
    refine hx.imp_right fun ⟨hl, hk⟩ => ⟨hl, hk.imp_right fun hk => ?_⟩
    simp only [Functions.isDeclared, List.contains_iff_mem] at hk ⊢
    rw [hd]
    exact List.mem_append_left _ hk

theorem param_legal {tokens : List Token} (h : ∀ t ∈ tokens, t.Legal) :
    Ensures (param line tokens) fun p => LegalName p.name := by
  unfold param
  split
  · next name => exact .ok (h (.identifier name) (by simp))
  · next name t => exact .ok (h (.identifier name) (by simp))
  all_goals exact .error _

theorem Pending.refers (h : d.Pending) {t : Token} (ht : t ∈ d.run.tokens) :
    t.Refers ⟨d.names, d.functions⟩ d.Allows :=
  h.awaits.refers (fun _ ht => ht)
    (fun _ hl hk => .inr ⟨h.tokens d.run (by simp) _ hl, hk⟩) t ht

theorem Pending.heads {round : Round} {rounds : List Round} {h : Header} (hd : d.Pending)
    (hr : d.run.rounds = round :: rounds) (hh : d.Heads line round h) : h.Legal := by
  unfold Heads at hh
  simp only at hh
  split at hh
  · next name hk =>
    obtain ⟨params, hp, rfl⟩ := hh
    refine ⟨hd.rounds d.run (by simp) round (by simp [hr]) name hk, ?_⟩
    refine Ensures.mapM (fun ts hts => param_legal fun t ht => ?_) params hp
    exact hd.tokens d.run (by simp) t
      (List.mem_of_mem_drop (Expression.mem_of_mem_splitCommas hts t ht))
  · subst hh
    trivial
  · obtain ⟨guard, -, rfl⟩ := hh
    trivial
  · cases hh
  · cases hh

/-! ## Moves -/

theorem names_anonymous {b : FunctionBlock} {bs : List Block} (hb : d'.blocks = .function b :: bs)
    (hr : b.role = .anonymous) (hd : d.blocks = bs) (hg : d'.globals = d.globals) :
    d'.names = d.names := by
  simp [names, hb, hd, hg, Block.names?, FunctionBlock.isAnonymous, hr]

/-- Desks with the same names and functions allow the same. -/
theorem Allows.congr {x : String} (h : d.Allows x) (hn : d'.names = d.names)
    (hf : d'.functions = d.functions) : d'.Allows x := by
  unfold Allows at h ⊢
  rw [hn, hf]
  exact h

/-- Nothing is pending between two statements. -/
theorem Quiet.pending (h : d.Quiet) : d.Pending where
  tokens := by simp [h.run, h.outer]
  rounds := by simp [h.run, h.outer]
  header := by simp [h.header]
  awaits := h.awaits

/-- **Moves keep what is pending legal.** -/
theorem Move.pending {awaited : Option Token} (hm : Move c d awaited d') (hs : d.Shape awaited)
    (h : d.Pending) : d'.Pending := by
  have ha : d'.Awaits d.Allows := hm.awaits hs (.inl rfl)
    (fun l hl hk => .inr ⟨h.tokens d.run (by simp) _ (mem_of_mem_consumed hl), hk⟩) h.awaits
  cases hm with
  | stay => exact h
  | collect _ _ hl =>
    exact ⟨forall_tokens_append h.tokens hl rfl rfl,
      List.forall_mem_cons.2 (List.forall_mem_cons.1 h.rounds), h.header, ha⟩
  | @openRound kind functions hasEntry _ hk hf =>
    refine ⟨forall_tokens_append (t := .bracket .openRound) h.tokens trivial rfl rfl, ?_, h.header,
      ha.mono fun x hx => allows_announce hf hx⟩
    have hr := List.forall_mem_cons.1 h.rounds
    refine List.forall_mem_cons.2 ⟨List.forall_mem_cons.2 ⟨fun name hn => ?_, hr.1⟩, hr.2⟩
    obtain ⟨l, rfl, hl⟩ := mem_tokens_of_definedName? (roundKind_definition hk hn)
    exact h.tokens d.run (by simp) _ hl
  | @closeRound nesting round rounds _ hr =>
    refine ⟨forall_tokens_append (t := .bracket .closeRound) h.tokens trivial rfl rfl, ?_, h.header,
      ha⟩
    have hrs := List.forall_mem_cons.1 h.rounds
    rw [hr] at hrs
    exact List.forall_mem_cons.2 ⟨(List.forall_mem_cons.1 hrs.1).2, hrs.2⟩
  | @closeHeader nesting round rounds hd hn hr hh =>
    cases hs with
    | ready hs =>
      obtain ⟨-, rfl, ho, hst, -⟩ := hs.of_header hn hr hh.continues.1
      refine ⟨by simp [clear, unround, ho], by simp [clear, unround, ho], ?_, ha⟩
      rintro _ ⟨⟩
      exact h.heads hr hh
  | statement hq ho hr _ hd => exact ((hs.of_statement hq ho hr).statement _ hd).pending
  | openString q => exact ⟨h.tokens, h.rounds, h.header, ha⟩
  | closeString =>
    exact ⟨forall_tokens_append (t := .string _) h.tokens trivial rfl rfl,
      List.forall_mem_cons.2 (List.forall_mem_cons.1 h.rounds), h.header, ha⟩
  | openHole =>
    exact ⟨List.forall_mem_cons.2 ⟨by simp, h.tokens⟩, List.forall_mem_cons.2 ⟨by simp, h.rounds⟩,
      h.header, ha.mono fun x hx => hx.congr (names_anonymous rfl rfl rfl rfl) rfl⟩
  | closeHole _ ho hb =>
    have htok := (List.forall_mem_cons.1 h.tokens).2
    have hr := (List.forall_mem_cons.1 h.rounds).2
    rw [ho] at htok hr
    refine ⟨htok, hr, h.header, ha.mono fun x hx => hx.congr (Eq.symm ?_) rfl⟩
    exact names_anonymous hb (hs.of_hole ho hb).1 rfl rfl
  | beginFunction | beginEntry | beginChain | beginLoop | beginFurther =>
    obtain ⟨hr, ho, hst⟩ := hs.of_begin
    exact Quiet.pending ⟨hr, ho, hst, rfl⟩
  | @beginLast chain blocks hq ht ho hb =>
    refine ⟨by simp [clear, ho], List.forall_mem_cons.2 (List.forall_mem_cons.1 h.rounds), h.header,
      ha.mono fun x hx => hx.congr ?_ rfl⟩
    simp only [names, clear, hb, List.findSome?_cons, Block.names?]
  | endFunction hn hi ht | endLoop hn hi ht | endChain hn hi ht =>
    exact ((hs.of_end hn hi ht).finish _).pending
  | endClause hn hi ht =>
    obtain ⟨hr, ho, hst, hh⟩ := hs.of_end hn hi ht
    exact Quiet.pending ⟨hr, ho, hst, hh⟩

end

end Desk

end Naskah
