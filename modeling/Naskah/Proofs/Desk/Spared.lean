/-
  Names that the module leaves alone.  Code of the module, its entry point included, stores a name
  only for a declaration, an assignment or the definition of a function.  As long as none of these
  comes up (`Desk.Avoids`), nothing on the desk is about to bind the name (`Move.spared`), and no
  code that moves add to the module stores it (`Move.unstored`).
-/
import Naskah.Proofs.Desk.Hosts

namespace Naskah

/-! ## Code that does not store a name -/

/-- Code of the module that does not store a name. -/
def Unstored (x : String) (bs : List Block) (code : List Asm) : Prop :=
  Exposed bs → .op (.storeName x) ∉ code

theorem unstored_additive (x : String) : Additive (Unstored x) where
  nil _ _ := by simp
  append ha hb he := by
    rw [List.mem_append]
    exact not_or.2 ⟨ha he, hb he⟩
  jump _ _ _ := by simp
  jumpIfFalse _ _ _ := by simp
  mark _ _ _ := by simp
  content _ h he := by
    obtain ⟨hb, he⟩ := exposed_cons.1 he
    exact h (exposed_cons.2 ⟨hb, he⟩)
  loop h he := h (exposed_cons.2 ⟨rfl, (exposed_cons.1 he).2⟩)
  chain h he := h (exposed_cons.2 ⟨rfl, (exposed_cons.1 he).2⟩)
  leaveLoop h he := h (exposed_cons.2 ⟨rfl, he⟩)
  leaveChain h he := h (exposed_cons.2 ⟨rfl, he⟩)

theorem ExpressionCode.not_store {code : List Asm} (h : ExpressionCode code) (x : String) :
    .op (.storeName x) ∉ code := by
  intro hm
  obtain ⟨i, hi, hc⟩ := h.computes _ hm
  cases hi
  cases hc

/-! ## Blocks that leave a name alone -/

/-- An entry point does not declare a name. -/
def Block.Spares (x : String) : Block → Prop
  | function b => (∃ exit, b.role = .entry exit) → b.names.get? x = none
  | loop _ | chain _ => True

/-- In the module no entry point declares a name, and no function of that name is defined. -/
def Spares (x : String) : List Block → Prop
  | [] => True
  | b :: bs => (Exposed bs → b.Spares x ∧ x ∉ b.defines) ∧ Spares x bs

section
variable {x : String} {b : FunctionBlock} {bs inner outer : List Block}

theorem Spares.add {b : Block} (h : Spares x (b :: bs)) (code : List Asm) :
    Spares x (b.add code :: bs) := by
  refine ⟨fun he => ?_, h.2⟩
  obtain ⟨hb, hd⟩ := h.1 he
  refine ⟨?_, by rw [Block.defines_add]; exact hd⟩
  cases b with
  | function b => exact hb
  | loop b | chain c => trivial

theorem Spares.names {names : Names}
    (hb : Exposed outer → Block.Spares x (.function { b with names }))
    (h : Spares x (inner ++ .function b :: outer)) :
    Spares x (inner ++ .function { b with names } :: outer) := by
  induction inner with
  | nil => exact ⟨fun he => ⟨hb he, (h.1 he).2⟩, h.2⟩
  | cons i inner ih => exact ⟨fun he => h.1 (exposed_names.1 he), ih h.2⟩

theorem Spares.entry (h : Spares x bs) (he : Exposed bs) (hb : .function b ∈ bs) :
    Block.Spares x (.function b) := by
  induction bs with
  | nil => cases hb
  | cons b' bs ih =>
    have hbs := (exposed_cons.1 he).2
    rcases List.mem_cons.1 hb with rfl | hb
    · exact (h.1 hbs).1
    · exact ih h.2 hbs hb

end

namespace Desk

variable {c : Cursor} {d d' : Desk} {x : String} {base code : List Asm}

/-- Exposed code uses the names of the module, or those of the entry point. -/
theorem names_of_exposed (h : Exposed d.blocks) :
    d.names = d.globals ∧ d.host? = none ∨
      ∃ b, .function b ∈ d.blocks ∧ (∃ exit, b.role = .entry exit) ∧ d.names = b.names ∧
        d.host? = some entryName := by
  rcases h.cases with ⟨hn, hh⟩ | ⟨b, exit, hb, hr, hn, hh⟩
  · exact .inl ⟨by rw [names, hn]; rfl, hh⟩
  · exact .inr ⟨b, hb, ⟨exit, hr⟩, by rw [names, hn]; rfl, hh⟩

/-- What the module stores next is not a name: it is not a variable, and is neither declared nor
    defined as a function here. -/
structure Avoids (x : String) (d : Desk) : Prop where
  constant : ∀ info, d.globals.get? x = some info → info.kind = .const
  declared : Exposed d.blocks → d.names.get? x = none → d.declaredName? ≠ some x
  defined : Exposed d.blocks → d.definedName? ≠ some x

/-- Nothing on the desk is about to bind a name in the module. -/
structure Spared (x : String) (d : Desk) : Prop where
  blocks : Spares x d.blocks
  header : Exposed d.blocks → ∀ h ∈ d.header, x ∉ h.defines
  rounds : Exposed d.blocks → ∀ r ∈ d.run :: d.outer, ∀ round ∈ r.rounds, x ∉ round.kind.defines

/-! ## Statements -/

/-- A statement of the module does not store the name. -/
theorem Spared.unstored {R : String → Prop} {d₁ : Desk} (h : d.Spared x) (hx : d.Avoids x)
    (hq : d.nesting.inString = false) (ho : d.outer = []) (hr : d.run.rounds = [])
    (hd : d.clear.Does R d.run.tokens code d₁) : Unstored x d.blocks code := by
  intro he
  -- what can be stored has another name
  have store : ∀ {value : List Asm} {y : String}, ExpressionCode value → y ≠ x →
      .op (.storeName x) ∉ value ++ [.op (.storeName y)] := by
    intro value y hv hy hm
    rcases List.mem_append.1 hm with hm | hm
    · exact hv.not_store x hm
    · simp only [List.mem_singleton, Asm.op.injEq, Instr.storeName.injEq] at hm
      exact hy hm.symm
  cases hd with
  | @declares kind l rest type value names ht hv _ hn =>
    refine store hv fun hl => hx.declared he ?_ ?_
    · rw [← hl]
      exact (Names.of_declare hn).1
    · rw [declaredName?_of_tokens ht hq ho hr, hl]
  | @assigns l rest value ht hv _ ha =>
    refine store hv fun hl => ?_
    obtain ⟨info, hi, hk⟩ := assignable_ensures () ha
    rw [show d.clear.names = d.names from rfl, hl] at hi
    rcases names_of_exposed he with ⟨hg, -⟩ | ⟨b, hb, hr, hg, -⟩
    · rw [hg] at hi
      exact hk (hx.constant info hi)
    · rw [hg, h.blocks.entry he hb hr] at hi
      cases hi
  | drops hv | returns hv =>
    intro hm
    rcases List.mem_append.1 hm with hm | hm
    · exact hv.not_store x hm
    · simp at hm
  | leaves => simp

/-- Names that are declared are others. -/
theorem Spared.setNames {y : String} {info : NameInfo} {names : Names} (h : d.Spared x)
    (hx : Exposed d.blocks → d.names.get? x = none → y ≠ x)
    (hn : d.names.declare y info = .ok names) : (d.setNames names).Spared x := by
  obtain ⟨-, hget⟩ := Names.of_declare hn
  have hexp : Exposed (d.setNames names).blocks → Exposed d.blocks := (exposed_setNames names).1
  rcases setNames_cases (d := d) names with ⟨inner, b, outer, he, hs, -, hi, hnames, -⟩ | ⟨hs, -⟩
  · have hblocks := h.blocks
    rw [he] at hblocks
    rw [hs] at hexp ⊢
    refine ⟨Spares.names (fun ho => ?_) hblocks, fun e => h.header (hexp e),
      fun e => h.rounds (hexp e)⟩
    rintro ⟨exit, hrole⟩
    have hrole : b.role = .entry exit := hrole
    -- the blocks inside the entry point have no names, so all blocks are exposed
    have hall : Exposed d.blocks := by
      rw [he]
      refine List.forall_mem_append.2 ⟨fun i hm => ?_, exposed_cons.2 ⟨?_, ho⟩⟩
      · exact Block.defines_eq_nil (hi i hm)
      · simp [Block.defines, hrole]
    have hno : b.names.get? x = none :=
      hblocks.entry (by rw [← he]; exact hall) (by simp) ⟨exit, hrole⟩
    show names.get? x = none
    rw [hget, if_neg fun e => hx hall (by rw [hnames]; exact hno) e.symm, hnames]
    exact hno
  · rw [hs]
    exact ⟨h.blocks, h.header, h.rounds⟩

/-! ## Moves -/

/-- Code is added where nothing is being read. -/
theorem Spared.added (hb : Spares x d.blocks) (hr : d.run = {}) (ho : d.outer = [])
    (hh : d.header = none) : (d.added code).Spared x := by
  unfold Desk.added
  split
  · exact ⟨hb, by simp [hh], by simp [hr, ho]⟩
  · next b bs he =>
    rw [he] at hb
    exact ⟨hb.add code, by simp [hh], by simp [hr, ho]⟩

/-- A block begins where nothing is being read. -/
theorem Spared.begin {b : Block} {bs : List Block} {nesting : Nesting} (labels : LabelSupply)
    (hb : Exposed bs → b.Spares x ∧ x ∉ b.defines) (hbs : Spares x bs) (hr : d.run = {})
    (ho : d.outer = []) : Spared x { d with header := none, labels, blocks := b :: bs, nesting } :=
  ⟨⟨hb, hbs⟩, by simp, by simp [hr, ho]⟩

/-- The rounds of the runs, when the current run has others. -/
theorem Spared.rounds_of {run : Run} (h : d.Spared x)
    (hr : Exposed d.blocks → ∀ round ∈ run.rounds, x ∉ round.kind.defines) (he : Exposed d.blocks) :
    ∀ r ∈ run :: d.outer, ∀ round ∈ r.rounds, x ∉ round.kind.defines :=
  List.forall_mem_cons.2 ⟨hr he, (List.forall_mem_cons.1 (h.rounds he)).2⟩

theorem Spared.tail {b : Block} {bs : List Block} (h : d.Spared x) (hb : d.blocks = b :: bs) :
    Spares x bs := by
  have hbl := h.blocks
  rw [hb] at hbl
  exact hbl.2

/-- Where the blocks around one that binds nothing are exposed, all are. -/
theorem exposed_of_tail {b : Block} {bs : List Block} (hb : d.blocks = b :: bs)
    (hdef : b.defines = []) (he : Exposed bs) : Exposed d.blocks := by
  rw [hb]
  exact exposed_cons.2 ⟨hdef, he⟩

/-- **Moves leave a name alone** that is avoided. -/
theorem Move.spared {awaited : Option Token} (hm : Move c d awaited d') (hs : d.Shape awaited)
    (hd : d.Sound) (hp : d.Pending) (hx : d.Avoids x) (h : d.Spared x) : d'.Spared x := by
  have hrun : Exposed d.blocks → ∀ round ∈ d.run.rounds, x ∉ round.kind.defines :=
    fun he => h.rounds he d.run (by simp)
  -- loops and chains bind nothing
  have plain : ∀ {b : Block} {bs : List Block}, b.Spares x → b.defines = [] →
      Exposed bs → b.Spares x ∧ x ∉ b.defines := fun hb hdef _ => ⟨hb, by simp [hdef]⟩
  cases hm with
  | stay => exact h
  | collect | openString => exact ⟨h.blocks, h.header, h.rounds_of hrun⟩
  | closeString => exact ⟨h.blocks, h.header, h.rounds_of hrun⟩
  | @openRound kind functions hasEntry _ hk =>
    refine ⟨h.blocks, h.header, h.rounds_of fun he => ?_⟩
    refine List.forall_mem_cons.2 ⟨fun hdef => hx.defined he ?_, hrun he⟩
    cases kind with
    | definition name =>
      obtain rfl := List.mem_singleton.1 hdef
      exact roundKind_definition hk rfl
    | entry | guard k | call b | group => cases hdef
  | closeRound _ hr =>
    refine ⟨h.blocks, h.header, h.rounds_of fun he round hm => hrun he round ?_⟩
    rw [hr]
    exact List.mem_cons_of_mem _ hm
  | closeHeader _ hr hh =>
    refine ⟨h.blocks, fun he => ?_, h.rounds_of fun he round hm => hrun he round ?_⟩
    · rintro _ ⟨⟩
      rw [hh.defines]
      exact hrun he _ (by rw [hr]; exact List.mem_cons_self)
    · rw [hr]
      exact List.mem_cons_of_mem _ hm
  | statement hq ho hr _ _ hst =>
    have hquiet := hs.of_statement hq ho hr
    cases hp.does hd hst with
    | @declares kind l rest type value names ht _ _ hn =>
      have hclear : d.clear.Spared x := ⟨h.blocks, h.header, h.rounds_of hrun⟩
      have h₁ := hclear.setNames (fun he hno hl => hx.declared he hno (by
        rw [declaredName?_of_tokens ht hq ho hr, hl])) hn
      obtain ⟨hidle, ho, -, hh⟩ := hquiet.setNames names
      exact .added h₁.blocks hidle ho hh
    | assigns | drops | returns | leaves => exact .added h.blocks hquiet.run ho hquiet.header
  | openHole =>
    refine ⟨⟨fun _ => ⟨?_, by simp [Block.defines]⟩, h.blocks⟩, fun he => ?_, fun he => ?_⟩
    · rintro ⟨exit, he⟩
      cases he
    · exact h.header (exposed_cons.1 he).2
    · exact List.forall_mem_cons.2 ⟨by simp, h.rounds (exposed_cons.1 he).2⟩
  | @closeHole _ _ b _ _ _ _ _ ho hb =>
    have hdef : (Block.function b).defines = [] := by
      simp [Block.defines, (hs.of_hole ho hb).1]
    refine ⟨h.tail hb, fun he => h.header (exposed_of_tail hb hdef he), fun he => ?_⟩
    have hrs := (List.forall_mem_cons.1 (h.rounds (exposed_of_tail hb hdef he))).2
    rw [ho] at hrs
    exact hrs
  | beginFunction hh =>
    obtain ⟨hr, ho, -⟩ := hs.of_begin
    refine .begin d.labels (fun he => ⟨?_, h.header he _ hh⟩) h.blocks hr ho
    rintro ⟨exit, he⟩
    cases he
  | beginEntry =>
    obtain ⟨hr, ho, -⟩ := hs.of_begin
    exact .begin _ (plain (fun _ => rfl) rfl) h.blocks hr ho
  | beginChain =>
    obtain ⟨hr, ho, -⟩ := hs.of_begin
    exact .begin d.labels (plain trivial rfl) h.blocks hr ho
  | beginLoop =>
    obtain ⟨hr, ho, -⟩ := hs.of_begin
    exact .begin _ (plain trivial rfl) h.blocks hr ho
  | beginFurther _ hb =>
    obtain ⟨hr, ho, -⟩ := hs.of_begin
    exact .begin d.labels (plain trivial rfl) (h.tail hb) hr ho
  | beginLast _ _ _ hb =>
    exact ⟨⟨plain trivial rfl, h.tail hb⟩,
      fun he => h.header (exposed_of_tail hb rfl (exposed_cons.1 he).2),
      fun he => h.rounds_of hrun (exposed_of_tail hb rfl (exposed_cons.1 he).2)⟩
  | @endFunction nesting b blocks code chunks hn hi ht hb =>
    obtain ⟨hr, ho, -, hh⟩ := hs.of_end hn hi ht
    exact .added (d := { d with nesting, blocks, chunks }) (h.tail hb) hr ho hh
  | @endLoop nesting b blocks hn hi ht hb =>
    obtain ⟨hr, ho, -, hh⟩ := hs.of_end hn hi ht
    exact .added (d := { d with nesting, blocks }) (h.tail hb) hr ho hh
  | endClause hn hi ht hb =>
    obtain ⟨hr, ho, -, hh⟩ := hs.of_end hn hi ht
    exact ⟨⟨plain trivial rfl, h.tail hb⟩, by simp [hh], by simp [hr, ho]⟩
  | @endChain nesting chain blocks hn hi ht hb =>
    obtain ⟨hr, ho, -, hh⟩ := hs.of_end hn hi ht
    exact .added (d := { d with nesting, blocks, labels := chain.supplyAfter d.labels })
      (h.tail hb) hr ho hh

/-- **The module does not store the name in what moves add to its code.** -/
theorem Move.unstored {awaited : Option Token} (hm : Move c d awaited d') (hd : d.Sound)
    (hp : d.Pending) (hx : d.Avoids x) (h : d.Spared x) (hc : d.Holds (Unstored x) base) :
    d'.Holds (Unstored x) base := by
  refine hm.holds (unstored_additive x) hc ?_ ?_ ?_ ?_
  · intro line code d₁ hq ho hr hst
    have hdoes := hp.does hd hst
    have hu := h.unstored hx hq ho hr hdoes
    cases hdoes with
    | declares =>
      refine ⟨hc.clear.setNames fun _ _ _ _ _ hu he => hu (exposed_names.1 he), fun he => ?_⟩
      exact hu ((exposed_setNames (d := d.clear) _).1 he)
    | assigns | drops | returns | leaves => exact ⟨hc.clear, hu⟩
  · intro kind guard line b bs hh _ _ _
    have hg : ExpressionCode guard := hd.header _ hh
    exact hg.not_store x
  · intro exit b bs hb hr hu he
    have hcontent := hu (exposed_cons.2 ⟨by simp [Block.defines, hr], he⟩)
    simp [FunctionBlock.entryCode, hcontent]
  · intro name b bs assembled hb hr _ he
    have hbl := h.blocks
    rw [hb] at hbl
    have hne : x ≠ name := by simpa [Block.defines, hr] using (hbl.1 he).2
    simp [FunctionBlock.bindCode, hne]

/-- The names of the module change where a declaration outside of functions ends. -/
theorem Move.globals {awaited : Option Token} (hm : Move c d awaited d') (hd : d.Sound)
    (hp : d.Pending) (x : String) : d'.globals.get? x = d.globals.get? x ∨
      d.globals.get? x = none ∧ d.host? = none ∧ d.declaredName? = some x := by
  have added : ∀ {d : Desk} {code : List Asm}, (d.added code).globals = d.globals := by
    intro d code
    unfold Desk.added
    split <;> rfl
  cases hm with
  | statement hq ho hr _ _ hst =>
    rw [added]
    cases hp.does hd hst with
    | @declares kind l rest type value names ht _ _ hn =>
      obtain ⟨hno, hget⟩ := Names.of_declare hn
      rcases setNames_cases (d := d.clear) names with ⟨_, _, _, -, hs, -⟩ | ⟨hs, hnames, hhost⟩
      · rw [hs]
        exact .inl rfl
      · rw [hnames] at hno hget
        rw [hs]
        by_cases hl : x = l.text
        · exact .inr ⟨hl ▸ hno, hhost, by rw [declaredName?_of_tokens ht hq ho hr, hl]⟩
        · exact .inl (by rw [hget, if_neg hl]; rfl)
    | assigns | drops | returns | leaves => exact .inl rfl
  | endFunction | endLoop | endChain => exact .inl (by rw [added])
  | _ => exact .inl rfl

end Desk

end Naskah
