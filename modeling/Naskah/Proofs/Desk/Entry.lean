/-
  The entry point on a desk.  Its brackets are read once in a source, outside of all blocks
  (`Move.of_entering`).  From its head on, the module goes on with the code of the entry point, and
  then with code that does not jump back (`Move.beyond`).  A name that has neither been declared nor
  defined as a function outside of functions up to the head is not stored in front of it
  (`Move.early`).
-/
import Naskah.Proofs.Desk.Spared

namespace Naskah

/-- No bracket is open directly in a hole that can be closed. -/
theorem Nested.rounds_of_hole {chained : Bool} {m : Nat} {n : Nesting} {rs : List Round}
    {rss : List (List Round)} {qs : List Quote} {q : Quote}
    (h : Nested chained m (.curly :: .quote q :: n) (rs :: rss) qs) : rs = [] := by
  generalize hn : Delimiter.curly :: Delimiter.quote q :: n = n' at h
  cases h with
  | outermost => exact absurd hn.symm not_curly_quote
  | hole h => rfl
  | header | round | quote => cases hn

namespace Desk

variable {c : Cursor} {d d' : Desk} {x : String} {base : List Asm}

/-! ## Brackets and head -/

/-- What the open round brackets enclose. -/
def kinds (d : Desk) : List RoundKind :=
  (d.run :: d.outer).flatMap fun r => r.rounds.map Round.kind

/-- The brackets or the head of the entry point have been read, but not its curly bracket. -/
def Entering (d : Desk) : Prop :=
  .entry ∈ d.kinds ∨ ∃ line, d.header = some (.entry line)

theorem not_entering (hr : d.run.rounds = []) (ho : d.outer = []) (hh : d.header = none) :
    ¬ d.Entering := by
  simp [Entering, kinds, hr, ho, hh]

theorem Quiet.not_entering (h : d.Quiet) : ¬ d.Entering :=
  Desk.not_entering (by rw [h.run]) h.outer h.header

/-- The entry point stands outside of all blocks. -/
theorem roundKind_entry {line : UInt32} (h : d.roundKind line = .ok .entry) : d.blocks = [] := by
  unfold roundKind at h
  simp only at h
  split at h
  · cases h
  · next k _ _ =>
    split at h
    · unfold headerKind at h
      simp only at h
      split at h
      · cases h
      · cases k with
        | entry =>
          simp only at h
          split at h
          · next hb => exact List.isEmpty_iff.1 hb
          · cases h
        | _ => cases h
    · split at h <;> cases h
  · next name _ _ =>
    cases hc : d.functions.check name.text name.line with
    | error e => rw [hc] at h; cases h
    | ok u => rw [hc] at h; cases h
  · cases h

/-- The entry point declares its word. -/
theorem functions_of_entry {functions : Functions} {hasEntry : Bool} {line : UInt32}
    (h : d.announce .entry line = .ok { d with functions, hasEntry }) :
    d.functions.declare entryName line = .ok functions := by
  rcases functions_of_announce h with ⟨rfl, -⟩ | ⟨name, hd, he | ⟨-, rfl⟩⟩
  · unfold announce at h
    cases hf : d.functions.declare entryName line with
    | error e => rw [hf] at h; cases h
    | ok f =>
      rw [hf] at h
      exact congrArg Except.ok (congrArg Desk.functions (Except.ok.inj h))
  · cases he
  · exact hd

/-- The brackets of the head are those of the entry point. -/
theorem Heads.entry_iff {line : UInt32} {round : Round} {h : Header} (hh : d.Heads line round h) :
    (∃ l, h = .entry l) ↔ round.kind = .entry := by
  unfold Heads at hh
  simp only at hh
  split at hh
  · next hk => obtain ⟨_, _, rfl⟩ := hh; simp [hk]
  · next hk => subst hh; simp [hk]
  · next hk => obtain ⟨_, _, rfl⟩ := hh; simp [hk]
  · cases hh
  · cases hh

/-- No bracket is open after the word that continues a chain. -/
theorem Shape.rounds_of_last (hs : d.Shape none) (ht : d.run.tokens = [.keyword .otherwise]) :
    d.run.rounds = [] ∧ d.header = none := by
  cases hs with
  | ready h =>
    refine ⟨by_contra fun hne => ?_, h.header⟩
    have hm := h.brackets d.run (by simp) hne
    simp [ht] at hm

/-- **The entry point comes up once, outside of all blocks.**  While its brackets and its head are
    read, only holes of strings begin. -/
theorem Move.of_entering {awaited : Option Token} (hm : Move c d awaited d') (hs : d.Shape awaited)
    (h : d'.Entering) :
    d.Entering ∧ (∀ b ∈ d'.blocks, b ∈ d.blocks ∨ b.isOpen = false) ∨
      entryName ∉ d.functions.declared ∧ entryName ∈ d'.functions.declared ∧ d'.blocks = [] := by
  have same : ∀ {bs : List Block}, bs = d.blocks → ∀ b ∈ bs, b ∈ d.blocks ∨ b.isOpen = false :=
    fun he b hb => .inl (he ▸ hb)
  cases hm with
  | stay | collect | openString | closeString => exact .inl ⟨h, same rfl⟩
  | @openRound kind functions hasEntry _ hk hf =>
    rcases h with h | hh
    · rcases List.mem_cons.1 h with hkind | h
      · subst hkind
        obtain ⟨hno, hdec⟩ := declared_of_declare (functions_of_entry hf)
        exact .inr ⟨hno, by simp [hdec], roundKind_entry (d := d) hk⟩
      · exact .inl ⟨.inl h, same rfl⟩
    · exact .inl ⟨.inr hh, same rfl⟩
  | closeRound _ hr =>
    refine .inl ⟨h.imp_left fun h => ?_, same rfl⟩
    simp only [kinds, hr, List.flatMap_cons, List.map_cons, List.cons_append] at h ⊢
    exact List.mem_cons_of_mem _ h
  | closeHeader hn hr hh =>
    refine .inl ⟨.inl ?_, same rfl⟩
    cases hs with
    | ready hs =>
      obtain ⟨-, rfl, ho, -, -⟩ := hs.of_header hn hr hh.continues.1
      rcases h with h | ⟨line, h⟩
      · simp [kinds, unround, clear, ho] at h
      · rw [← hh.entry_iff.1 ⟨line, Option.some.inj h⟩]
        simp [kinds, hr]
  | statement hq ho hr _ hd =>
    exact absurd h ((hs.of_statement hq ho hr).statement _ hd).not_entering
  | openHole =>
    refine .inl ⟨h, fun b hb => ?_⟩
    rcases List.mem_cons.1 hb with rfl | hb
    · exact .inr rfl
    · exact .inl hb
  | closeHole _ ho hb =>
    refine .inl ⟨h.imp_left fun h => ?_, fun b hm => .inl ?_⟩
    · simp only [kinds, ho, List.flatMap_cons] at h ⊢
      exact List.mem_append_right _ h
    · rw [hb]
      exact List.mem_cons_of_mem _ hm
  | beginFunction | beginEntry | beginChain | beginLoop | beginFurther =>
    obtain ⟨hr, ho, -⟩ := hs.of_begin
    exact absurd h (not_entering (by simp [hr]) ho rfl)
  | beginLast _ ht ho =>
    obtain ⟨hr, hh⟩ := hs.rounds_of_last ht
    exact absurd h (not_entering hr ho hh)
  | endFunction hn hi ht | endLoop hn hi ht | endChain hn hi ht =>
    exact absurd h ((hs.of_end hn hi ht).finish _).not_entering
  | endClause hn hi ht =>
    obtain ⟨hr, ho, -, hh⟩ := hs.of_end hn hi ht
    exact absurd h (not_entering (by simp [hr]) ho hh)

/-- While the entry point is announced, its word is declared and no block is open. -/
structure Announced (d : Desk) : Prop where
  declared : d.Entering → entryName ∈ d.functions.declared
  holes : d.Entering → ∀ b ∈ d.blocks, b.isOpen = false

/-- Functions stay declared. -/
theorem Move.declared {awaited : Option Token} (hm : Move c d awaited d') {f : String}
    (h : f ∈ d.functions.declared) : f ∈ d'.functions.declared := by
  cases hm with
  | openRound _ _ hf =>
    rcases functions_of_announce hf with ⟨rfl, -⟩ | ⟨name, hd, -⟩
    · exact h
    · simp [(declared_of_declare hd).2, h]
  | statement _ _ _ _ hd =>
    rw [functions_added]
    rcases hd with rfl | ⟨names, rfl⟩
    · exact h
    · rw [functions_setNames]
      exact h
  | endFunction | endLoop | endChain => rw [functions_added]; exact h
  | _ => exact h

theorem Move.announced {awaited : Option Token} (hm : Move c d awaited d') (hs : d.Shape awaited)
    (h : d.Announced) : d'.Announced := by
  constructor
  · intro he
    rcases hm.of_entering hs he with ⟨he, -⟩ | ⟨-, hd, -⟩
    · exact hm.declared (h.declared he)
    · exact hd
  · intro he b hb
    rcases hm.of_entering hs he with ⟨he, hbl⟩ | ⟨-, -, hbl⟩
    · exact (hbl b hb).elim (h.holes he b) id
    · rw [hbl] at hb
      cases hb

/-- The head of the entry point stands outside of all blocks. -/
theorem Announced.blocks_eq_nil {awaited : Option Token} {line : UInt32} (h : d.Announced)
    (hs : d.Shape awaited) (hh : d.header = some (.entry line)) : d.blocks = [] := by
  have hn := h.holes (.inr ⟨line, hh⟩)
  cases hs with
  | ready h => rw [h.header] at hh; cases hh
  | chained h => rw [h] at hh; cases hh
  | headed hh' _ hst =>
    rw [hh] at hh'
    cases hh'
    have ho := (Stacked.eq_opened hst rfl).isOpen
    refine List.eq_nil_iff_forall_not_mem.2 fun b hb => ?_
    have hopen := ho b hb
    rw [hn b hb] at hopen
    cases hopen

/-! ### Every entry point has a head -/

/-- Brackets of the entry point become its head. -/
theorem Move.entering {awaited : Option Token} (hm : Move c d awaited d') (hs : d.Shape awaited)
    (h : d.Entering) : d'.Entering ∨ ∃ line, d.header = some (.entry line) := by
  -- where nothing is open there is nothing but a head
  have only : d.run.rounds = [] → d.outer = [] →
      d'.Entering ∨ ∃ line, d.header = some (.entry line) := by
    intro hr ho
    rcases h with h | h
    · simp [kinds, hr, ho] at h
    · exact .inr h
  cases hm with
  | stay | collect | openString | closeString | openHole => exact .inl h
  | openRound => exact .inl (h.imp_left fun h => List.mem_cons_of_mem _ h)
  | closeRound _ hr hk =>
    refine .inl (h.imp_left fun h => ?_)
    simp only [kinds, hr, List.flatMap_cons, List.map_cons, List.cons_append] at h ⊢
    rcases List.mem_cons.1 h with he | h
    · rw [← he] at hk
      cases hk
    · exact h
  | closeHeader hn hr hh =>
    cases hs with
    | ready hs =>
      obtain ⟨-, rfl, ho, -, -⟩ := hs.of_header hn hr hh.continues.1
      refine .inl (.inr ?_)
      rcases h with h | ⟨line, h⟩
      · obtain ⟨line, rfl⟩ := hh.entry_iff.2 (by simpa [kinds, hr, ho, eq_comm] using h)
        exact ⟨line, rfl⟩
      · rw [hs.header] at h
        cases h
  | statement _ ho hr => exact only hr ho
  | closeHole hn ho hb =>
    cases hs with
    | ready hs =>
      obtain ⟨q, n, hn⟩ := inHole_eq hn
      have hr := hs.nested
      rw [hn] at hr
      have hr := hr.rounds_of_hole
      refine .inl (h.imp_left fun h => ?_)
      simpa [kinds, hr, ho] using h
  | beginFunction | beginEntry | beginChain | beginLoop | beginFurther =>
    obtain ⟨hr, ho, -⟩ := hs.of_begin
    exact only (by rw [hr]) ho
  | beginLast _ ht ho => exact only (hs.rounds_of_last ht).1 ho
  | endFunction hn hi ht | endLoop hn hi ht | endClause hn hi ht | endChain hn hi ht =>
    obtain ⟨hr, ho, -, -⟩ := hs.of_end hn hi ht
    exact only (by rw [hr]) ho

theorem Move.hasEntry {awaited : Option Token} (hm : Move c d awaited d')
    (h : d'.hasEntry = true) : d.hasEntry = true ∨ d'.Entering := by
  have added : ∀ {d : Desk} {code : List Asm}, (d.added code).hasEntry = d.hasEntry := by
    intro d code
    unfold Desk.added
    split <;> rfl
  cases hm with
  | @openRound kind functions hasEntry _ _ hf =>
    cases kind with
    | entry => exact .inr (.inl List.mem_cons_self)
    | definition name =>
      simp only [announce] at hf
      cases hd : d.functions.declare name c.line with
      | error e => rw [hd] at hf; cases hf
      | ok f =>
        rw [hd] at hf
        have he : d.hasEntry = hasEntry := congrArg Desk.hasEntry (Except.ok.inj hf)
        exact .inl (he.trans h)
    | guard _ | call _ | group =>
      have he : d.hasEntry = hasEntry := congrArg Desk.hasEntry (Except.ok.inj hf)
      exact .inl (he.trans h)
  | statement _ _ _ _ hd =>
    rw [added] at h
    rcases hd with rfl | ⟨names, rfl⟩
    · exact .inl h
    · left
      rw [← h]
      unfold Desk.setNames
      split <;> rfl
  | endFunction | endLoop | endChain => rw [added] at h; exact .inl h
  | _ => exact .inl h

/-! ## In front of the entry point -/

/-- A name is declared, or defined as a function, outside of functions. -/
def BindsOutside (x : String) (d : Desk) : Prop :=
  d.host? = none ∧ (d.declaredName? = some x ∨ d.definedName? = some x)

instance (x : String) (d : Desk) : Decidable (d.BindsOutside x) :=
  inferInstanceAs (Decidable (_ ∧ _))

/-- The body of the entry point is not under construction, and the module has nothing to do with a
    name. -/
structure Early (x : String) (d : Desk) : Prop where
  outside : ∀ b exit, .function b ∈ d.blocks → b.role ≠ .entry exit
  undeclared : d.globals.get? x = none
  spared : d.Spared x
  unstored : d.Holds (Unstored x) []

theorem Early.avoids (h : d.Early x) (hx : ¬ d.BindsOutside x) : d.Avoids x := by
  have host : Exposed d.blocks → d.host? = none := by
    intro he
    rcases names_of_exposed he with ⟨-, hh⟩ | ⟨b, hb, ⟨exit, hr⟩, -⟩
    · exact hh
    · exact absurd hr (h.outside b exit hb)
  refine ⟨fun info hi => ?_, fun he _ hl => hx ⟨host he, .inl hl⟩,
    fun he hf => hx ⟨host he, .inr hf⟩⟩
  rw [h.undeclared] at hi
  cases hi

/-- The body of the entry point comes after its head. -/
theorem Move.of_entry {awaited : Option Token} (hm : Move c d awaited d') {b : FunctionBlock}
    {exit : Label} (hb : .function b ∈ d'.blocks) (hr : b.role = .entry exit) :
    (∃ b₀, .function b₀ ∈ d.blocks ∧ b₀.role = .entry exit) ∨
      ∃ line, d.header = some (.entry line) := by
  have added : ∀ {d : Desk} {code : List Asm}, .function b ∈ (d.added code).blocks →
      ∃ b₀, .function b₀ ∈ d.blocks ∧ b₀.role = .entry exit := by
    intro d code hb
    unfold Desk.added at hb
    split at hb
    · exact ⟨b, hb, hr⟩
    · next b' bs he =>
      rcases List.mem_cons.1 hb with hb | hb
      · cases b' with
        | function b₀ =>
          refine ⟨b₀, by simp [he], ?_⟩
          rw [← hr, Block.function.inj hb]
          rfl
        | loop b' | chain c => cases hb
      · exact ⟨b, by simp [he, hb], hr⟩
  have tail : ∀ {b' : Block} {bs : List Block}, d.blocks = b' :: bs →
      (∃ b₀, .function b₀ ∈ bs ∧ b₀.role = .entry exit) →
        ∃ b₀, .function b₀ ∈ d.blocks ∧ b₀.role = .entry exit :=
    fun he ⟨b₀, hm, hr⟩ => ⟨b₀, by simp [he, hm], hr⟩
  cases hm with
  | stay | collect | openRound | closeRound | closeHeader | openString | closeString =>
    exact .inl ⟨b, hb, hr⟩
  | statement _ _ _ _ hd =>
    left
    obtain ⟨b₀, hb, hr⟩ := added hb
    rcases hd with rfl | ⟨names, rfl⟩
    · exact ⟨b₀, hb, hr⟩
    · rcases setNames_cases (d := d.clear) names with ⟨inner, f, outer, he, hs, -⟩ | ⟨hs, -⟩
      · have he : d.blocks = inner ++ .function f :: outer := he
        rw [hs] at hb
        rcases List.mem_append.1 hb with hb | hb
        · exact ⟨b₀, by simp [he, hb], hr⟩
        · rcases List.mem_cons.1 hb with hb | hb
          · refine ⟨f, by simp [he], ?_⟩
            rw [← hr, Block.function.inj hb]
          · exact ⟨b₀, by simp [he, hb], hr⟩
      · rw [hs] at hb
        exact ⟨b₀, hb, hr⟩
  | openHole | beginFunction =>
    rcases List.mem_cons.1 hb with hb | hb
    · cases hb
      cases hr
    · exact .inl ⟨b, hb, hr⟩
  | closeHole _ _ he => exact .inl (tail he ⟨b, hb, hr⟩)
  | beginEntry hh => exact .inr ⟨_, hh⟩
  | beginChain | beginLoop =>
    rcases List.mem_cons.1 hb with hb | hb
    · cases hb
    · exact .inl ⟨b, hb, hr⟩
  | beginFurther _ he | beginLast _ _ _ he | endClause _ _ _ he =>
    rcases List.mem_cons.1 hb with hb | hb
    · cases hb
    · exact .inl (tail he ⟨b, hb, hr⟩)
  | endFunction _ _ _ he | endLoop _ _ _ he | endChain _ _ _ he =>
    exact .inl (tail he (added hb))

/-- **In front of the entry point a name stays free**, if nothing binds it. -/
theorem Move.early {awaited : Option Token} (hm : Move c d awaited d') (hs : d.Shape awaited)
    (hd : d.Sound) (hp : d.Pending) (hx : ¬ d.BindsOutside x) (h : d.Early x) :
    d'.Early x ∨ ∃ line, d.header = some (.entry line) := by
  by_cases hh : ∃ line, d.header = some (.entry line)
  · exact .inr hh
  have ha := h.avoids hx
  refine .inl ⟨fun b exit hb hr => ?_, ?_, hm.spared hs hd hp ha h.spared,
    hm.unstored hd hp ha h.spared h.unstored⟩
  · obtain ⟨b₀, hb₀, hr₀⟩ := (hm.of_entry hb hr).resolve_right hh
    exact h.outside b₀ exit hb₀ hr₀
  · rcases hm.globals hd hp x with hg | ⟨-, hb⟩
    · exact hg.trans h.undeclared
    · exact absurd ⟨hb.1, .inl hb.2⟩ hx

/-! ## From the head of the entry point on -/

/-- The outermost block is the body of an entry point. -/
def Rests (bs : List Block) : Prop :=
  ∃ inner b exit, bs = inner ++ [.function b] ∧ b.role = .entry exit

section
variable {b : Block} {bs : List Block}

theorem Rests.cons (h : Rests bs) (b : Block) : Rests (b :: bs) := by
  obtain ⟨inner, f, exit, rfl, hr⟩ := h
  exact ⟨b :: inner, f, exit, rfl, hr⟩

/-- The innermost block is that of the entry point, or stands in it. -/
theorem Rests.cases (h : Rests (b :: bs)) :
    (∃ f exit, b = .function f ∧ f.role = .entry exit ∧ bs = []) ∨ Rests bs := by
  obtain ⟨inner, f, exit, he, hr⟩ := h
  cases inner with
  | nil =>
    cases he
    exact .inl ⟨f, exit, rfl, hr, rfl⟩
  | cons i inner =>
    cases he
    exact .inr ⟨inner, f, exit, rfl, hr⟩

theorem Rests.tail (h : Rests (b :: bs)) (hb : ∀ f exit, b = .function f → f.role ≠ .entry exit) :
    Rests bs := by
  rcases h.cases with ⟨f, exit, he, hr, -⟩ | h
  · exact absurd hr (hb f exit he)
  · exact h

theorem Rests.add (h : Rests (b :: bs)) (code : List Asm) : Rests (b.add code :: bs) := by
  rcases h.cases with ⟨f, exit, rfl, hr, rfl⟩ | h
  · exact ⟨[], f.add code, exit, rfl, hr⟩
  · exact h.cons _

end

/-- Code is added inside the entry point. -/
theorem Rests.added (h : Rests d.blocks) (code : List Asm) :
    Rests (d.added code).blocks ∧ (d.added code).code = d.code := by
  unfold Desk.added
  split
  · next he =>
    rw [he] at h
    obtain ⟨inner, b, exit, he, -⟩ := h
    simp at he
  · next b bs he =>
    rw [he] at h
    exact ⟨h.add code, rfl⟩

theorem Rests.names {b : FunctionBlock} {names : Names} {inner outer : List Block}
    (h : Rests (inner ++ .function b :: outer)) :
    Rests (inner ++ .function { b with names } :: outer) := by
  induction inner with
  | nil =>
    rcases Rests.cases h with ⟨f, exit, hf, hr, rfl⟩ | h
    · cases hf
      exact ⟨[], { b with names }, exit, rfl, hr⟩
    · exact h.cons _
  | cons i inner ih =>
    rcases Rests.cases h with ⟨f, exit, -, -, he⟩ | h
    · simp at he
    · exact (ih h).cons i

theorem Rests.setNames (h : Rests d.blocks) (names : Names) :
    Rests (d.setNames names).blocks ∧ (d.setNames names).code = d.code := by
  rcases setNames_cases (d := d) names with ⟨inner, b, outer, he, hs, -⟩ | ⟨hs, -⟩
  · rw [hs]
    rw [he] at h
    exact ⟨h.names, rfl⟩
  · rw [hs]
    exact ⟨h, rfl⟩

/-- A desk that the head of an entry point leads to, if the module had some code there.  Code that
    comes after the head does not jump back. -/
inductive Beyond (base : List Asm) (Body : List Asm → Prop) (d : Desk) : Prop
  | headed {line : UInt32} (hh : d.header = some (.entry line)) (hb : d.blocks = [])
      (hc : d.code = base)
  | inside (hb : Rests d.blocks) (hc : d.code = base)
  | behind {exit : Label} {body rest : List Asm} (hb : Body body)
      (hc : d.code = base ++ (FunctionBlock.entryCode exit body ++ rest))
      (ht : ∀ l ∈ Asm.targets (FunctionBlock.entryCode exit body ++ rest),
        l ∈ Asm.marks (FunctionBlock.entryCode exit body ++ rest))

/-- Inside of the entry point the code of the module stays what it is, up to the end of the entry
    point. -/
theorem Move.inside {awaited : Option Token} (hm : Move c d awaited d') (hs : d.Shape awaited)
    (h : Rests d.blocks) :
    Rests d'.blocks ∧ d'.code = d.code ∨ ∃ b exit, d.blocks = [.function b] ∧
      b.role = .entry exit ∧ d'.blocks = [] ∧
        d'.code = d.code ++ FunctionBlock.entryCode exit b.content := by
  have tail : ∀ {b : Block} {bs : List Block}, d.blocks = b :: bs →
      (∀ f exit, b = .function f → f.role ≠ .entry exit) → Rests bs := by
    intro b bs hb hne
    rw [hb] at h
    exact h.tail hne
  cases hm with
  | stay | collect | openRound | closeRound | closeHeader | openString | closeString =>
    exact .inl ⟨h, rfl⟩
  | @statement code d₁ _ _ _ _ hd =>
    left
    have h₁ : Rests d₁.blocks ∧ d₁.code = d.code := by
      rcases hd with rfl | ⟨names, rfl⟩
      · exact ⟨h, rfl⟩
      · exact Rests.setNames (d := d.clear) h names
    obtain ⟨h₂, hc⟩ := h₁.1.added code
    exact ⟨h₂, hc.trans h₁.2⟩
  | openHole | beginFunction | beginEntry | beginChain | beginLoop =>
    exact .inl ⟨h.cons _, rfl⟩
  | closeHole _ ho hb =>
    refine .inl ⟨tail hb ?_, rfl⟩
    rintro f exit ⟨⟩ hr
    rw [(hs.of_hole ho hb).1] at hr
    cases hr
  | beginFurther _ hb | beginLast _ _ _ hb | endClause _ _ _ hb =>
    exact .inl ⟨(tail hb nofun).cons _, rfl⟩
  | @endFunction nesting b blocks code chunks _ _ _ hb hr hf =>
    rw [hb] at h
    rcases h.cases with ⟨f, exit, hb', hrole, rfl⟩ | h
    · cases hb'
      right
      rw [FunctionBlock.finish_entry hrole] at hf
      cases hf
      exact ⟨b, exit, hb, hrole, rfl, rfl⟩
    · exact .inl (Rests.added (d := { d with nesting, blocks, chunks }) h code)
  | @endLoop nesting b blocks _ _ _ hb =>
    exact .inl (Rests.added (d := { d with nesting, blocks }) (tail hb nofun) _)
  | @endChain nesting chain blocks _ _ _ hb =>
    exact .inl (Rests.added
      (d := { d with nesting, blocks, labels := chain.supplyAfter d.labels }) (tail hb nofun) _)

/-- **What follows the head of an entry point.** -/
theorem Move.beyond {awaited : Option Token} {Body : List Asm → Prop} (hm : Move c d awaited d')
    (hs : d.Shape awaited) (hd : d.Sound)
    (hB : ∀ b exit, d.blocks = [.function b] → b.role = .entry exit → d'.blocks = [] →
      Body b.content) (h : d.Beyond base Body) : d'.Beyond base Body := by
  cases h with
  | headed hh hb hc =>
    cases hs with
    | ready hr => rw [hr.header] at hh; cases hh
    | chained hn => rw [hn] at hh; cases hh
    | headed =>
      cases hm with
      | collect ht ha => rw [ha _ rfl] at ht; cases ht
      | beginEntry => exact .inside ⟨[], _, _, by rw [hb]; rfl, rfl⟩ hc
      | beginFunction hh' | beginChain hh' | beginLoop hh' | beginFurther hh' =>
        rw [hh] at hh'
        cases hh'
  | inside hb hc =>
    rcases hm.inside hs hb with ⟨hb', hc'⟩ | ⟨b, exit, hb', hrole, hnil, hc'⟩
    · exact .inside hb' (hc'.trans hc)
    · have he : d'.code = base ++ (FunctionBlock.entryCode exit b.content ++ []) := by
        rw [hc', hc, List.append_nil]
      refine .behind (hB b exit hb' hrole hnil) he ?_
      rw [List.append_nil]
      rcases hm.code_cases hd with he | ⟨n, new, he, hn⟩
      · rw [hc'] at he
        simp [FunctionBlock.entryCode] at he
      · rw [hc'] at he
        rw [List.append_cancel_left he]
        exact fun l hl => (hn.placed l hl).resolve_right (by simp)
  | @behind exit body rest hb hc ht =>
    rcases hm.code_cases hd with he | ⟨n, new, he, hn⟩
    · exact .behind hb (he.trans hc) ht
    · have he : d'.code = base ++ (FunctionBlock.entryCode exit body ++ (rest ++ new)) := by
        rw [he, hc]
        simp
      refine .behind hb he ?_
      rw [← List.append_assoc]
      intro l hl
      rw [Asm.targets_append, List.mem_append] at hl
      rw [Asm.marks_append, List.mem_append]
      exact hl.imp (ht l) fun hl => (hn.placed l hl).resolve_right (by simp)

end Desk

end Naskah
