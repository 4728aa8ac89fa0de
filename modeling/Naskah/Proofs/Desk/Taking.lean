/-
  Taking a token.  On a desk of the right shape, with sound code, a token leads to a move or is
  refused (`take_yields`): none of the assumptions that the compiler checks on its way can fail.
  The same holds for texts of strings, and so for all of a source (`takeAll_yields`).  That every
  desk has the right shape and sound code is proved along with it, and whatever else moves keep.
-/
import Naskah.Proofs.Desk.Shape
import Naskah.Proofs.Desk.Sound

namespace Naskah.Desk

variable {c : Cursor} {d : Desk} {line : UInt32}

/-! ## Round brackets -/

theorem check_yields (t : Functions) (name : String) (line : UInt32) :
    Yields (t.check name line) fun _ => True := by
  unfold Functions.check
  split
  · trivial
  · exact Yields.refuse _ _

theorem declareFunction_yields (t : Functions) (name : String) (line : UInt32) :
    Yields (t.declare name line) fun _ => True := by
  unfold Functions.declare
  split
  · exact Yields.refuse _ _
  · trivial

theorem headerKind_yields (k : Keyword) : Yields (d.headerKind k line) fun _ => True := by
  unfold headerKind
  simp only
  split
  · exact illegal_yields _
  · split
    · split
      · trivial
      · exact Yields.refuse _ _
    · trivial
    · trivial
    · exact Yields.refuse _ _
    · exact Yields.refuse _ _

theorem roundKind_yields : Yields (d.roundKind line) fun _ => True := by
  unfold roundKind
  simp only
  split
  · trivial
  · split
    · exact headerKind_yields _
    · trivial
  · exact (check_yields _ _ _).bind fun _ _ _ => trivial
  · trivial

theorem announce_yields (kind : RoundKind) :
    Yields (d.announce kind line) fun d' => ∃ functions hasEntry, d' = { d with functions, hasEntry } := by
  unfold announce
  split
  · exact (declareFunction_yields _ _ _).bind fun f _ _ => Yields.pure ⟨f, _, rfl⟩
  · exact (declareFunction_yields _ _ _).bind fun f _ _ => Yields.pure ⟨f, _, rfl⟩
  all_goals exact Yields.ok ⟨_, _, rfl⟩

theorem openRound_yields (hq : d.nesting.inString = false) :
    Yields (d.openRound c.line) (Move c d none) := by
  unfold openRound
  refine roundKind_yields.bind fun kind hk _ => ?_
  refine (announce_yields kind).bind fun d' ha hd => ?_
  obtain ⟨functions, hasEntry, rfl⟩ := hd
  exact Yields.pure (.openRound hq hk ha)

theorem search_yields (c : Cursor) (wanted : String) : Yields (c.search wanted) fun _ => True := by
  unfold Cursor.search
  simp only
  split
  · exact Yields.refuseAtEnd _
  · split
    · trivial
    · exact Yields.refuse _ _

theorem param_yields (tokens : List Token) : Yields (param line tokens) fun _ => True := by
  unfold param
  split <;> trivial

theorem endRound_yields {nesting : Nesting} {round : Round} {rounds : List Round} (h : d.Sound)
    (hn : d.nesting = .round :: nesting) (hr : d.run.rounds = round :: rounds) :
    Yields ((d.unround nesting rounds).endRound round c) (Move c d none) := by
  obtain ⟨kind, start⟩ := round
  unfold endRound
  cases kind with
  | group => exact Yields.ok (.closeRound hn hr rfl)
  | call head =>
    cases head with
    | false => exact Yields.ok (.closeRound hn hr rfl)
    | true =>
      refine (search_yields c _).bind fun _ _ _ => ?_
      exact Yields.pure (.closeRound hn hr rfl)
  | definition name =>
    refine (Yields.mapM (Q := fun _ => True) fun ts _ => param_yields ts).bind fun params hp _ => ?_
    refine (search_yields c _).bind fun _ hs _ => ?_
    exact Yields.pure (.closeHeader hn hr ⟨params, hp, rfl⟩ hs)
  | entry =>
    simp only
    split
    · exact Yields.bind (P := fun _ => False) (Yields.refuse _ _) fun _ _ h => h.elim
    · refine (search_yields c _).bind fun _ hs _ => ?_
      exact Yields.pure (.closeHeader hn hr rfl hs)
  | guard kind =>
    have ht : ∀ t ∈ d.run.tokens.drop (start + 1), t.Sound :=
      fun t ht => h.run t (List.mem_of_mem_drop ht)
    refine (Expression.compile_yields _ c.line ht).bind fun guard hg _ => ?_
    refine (search_yields c _).bind fun _ hs _ => ?_
    exact Yields.pure (.closeHeader hn hr ⟨guard, hg, rfl⟩ hs)

theorem closeRound_yields {m : Nat} {chained : Bool} (hr : d.Ready m chained) (h : d.Sound) :
    Yields (d.closeRound c) (Move c d none) := by
  unfold closeRound
  split
  · next nesting round rounds hn hrs => exact endRound_yields h hn hrs
  · next nesting hn hrs =>
    have hs := hr.nested
    rw [hn, hrs] at hs
    exact absurd hs Nested.not_round
  · exact Yields.refuse _ _

/-! ## Statements and strings -/

theorem endStatement_yields {m : Nat} {chained : Bool} (hr : d.Ready m chained) (h : d.Sound)
    (hq : d.nesting.inString = false) : Yields (d.endStatement c.line) (Move c d none) := by
  unfold endStatement
  split
  · exact Yields.refuse _ _
  · next ho =>
    split
    · exact Yields.refuse _ _
    · next hrs =>
      split
      · exact Yields.ok .stay
      · have ho : d.outer = [] := by simpa using ho
        have hrs : d.run.rounds = [] := by simpa using hrs
        refine (statement_yields 0 h.run).bind fun r hs hst => ?_
        obtain ⟨code, d₁⟩ := r
        obtain ⟨⟨-, -, hd⟩, hf⟩ := hst
        have hop : Open m d.blocks := by
          have hc : chained = false := by
            rw [← Bool.not_eq_true, ← hr.first, firstToken?_of_outer ho]
            exact hf
          subst hc
          exact Stacked.eq_opened hr.stacked (by rw [ho]; rfl)
        have hop₁ : Open m d₁.blocks := by
          rcases hd with rfl | ⟨names, rfl⟩
          · exact hop
          · exact Open.setNames (d := d.clear) hop names
        simp only [emit_of_open hop₁]
        exact Yields.ok (.statement hq ho hrs hf hd hs)

/-- A string is open where its text comes next. -/
theorem Ready.strings {m : Nat} {chained : Bool} (hr : d.Ready m chained)
    (hq : d.nesting.inString = true) : ∃ s strings, d.strings = s :: strings := by
  obtain ⟨q, n, hn⟩ := inString_eq hq
  have hs := hr.nested
  rw [hn] at hs
  cases hd : d.strings with
  | cons s strings => exact ⟨s, strings, rfl⟩
  | nil =>
    rw [hd] at hs
    exact absurd hs Nested.not_quote

theorem closeString_yields {m : Nat} {chained : Bool} (hr : d.Ready m chained)
    (hq : d.nesting.inString = true) (text : String) :
    Yields (d.closeString text) (Move c d none) := by
  obtain ⟨s, strings, hs⟩ := hr.strings hq
  simp only [closeString, hs]
  exact Yields.ok (.closeString text hq hs)

theorem openHole_yields {m : Nat} {chained : Bool} (hr : d.Ready m chained)
    (hq : d.nesting.inString = true) (text : String) :
    Yields (d.openHole text c.line) (Move c d none) := by
  obtain ⟨s, strings, hs⟩ := hr.strings hq
  simp only [openHole, addPart, hs]
  exact Yields.ok (.openHole text hq hs)

theorem closeHole_yields {m : Nat} {chained : Bool} (hr : d.Ready m chained) (h : d.Sound)
    (hi : d.nesting.inHole = true) : Yields (d.closeHole c.line) (Move c d none) := by
  obtain ⟨q, n, hn⟩ := inHole_eq hi
  have hne := hr.nested
  rw [hn] at hne
  have hne := hne.of_hole
  -- the hole has a run around it, a string and a block of its own
  obtain ⟨run, outer, ho⟩ : ∃ run outer, d.outer = run :: outer := by
    cases ho : d.outer with
    | cons run outer => exact ⟨run, outer, rfl⟩
    | nil => rw [ho] at hne; exact absurd rfl hne.ne_nil
  obtain ⟨s, strings, hs⟩ : ∃ s strings, d.strings = s :: strings := by
    cases hs : d.strings with
    | cons s strings => exact ⟨s, strings, rfl⟩
    | nil => rw [hs] at hne; exact absurd hne Nested.not_quote
  have hst := hr.stacked
  rw [ho] at hst
  generalize hb : d.blocks = bs at hst
  cases hst with
  | @hole _ _ b bs hrole hp hc hst =>
    simp only [closeHole, ho]
    refine (Expression.compile_yields _ c.line h.run).bind fun code he _ => ?_
    have hfin : (b.add code).finish d.chunks = .ok (code, d.chunks) := by
      have hf := FunctionBlock.finish_anonymous (b := b.add code) hrole hp d.chunks
      rw [hf, FunctionBlock.add, hc, List.nil_append]
    simp only [finishHole, hb, FunctionBlock.isAnonymous, hrole, hfin, addPart, hs]
    exact Yields.ok (.closeHole hi ho hb hs he)

/-! ## Curly brackets -/

theorem declareParams_yields (params : List Param) :
    Yields (FunctionBlock.declareParams params line) fun _ => True :=
  Yields.foldlM trivial fun _ _ _ _ => declare_yields _ _ _

theorem openCurly_headed {m : Nat} {h : Header} (hh : d.header = some h)
    (hs : Stacked m h.continues 0 d.blocks) :
    Yields (d.openCurly c.line) (Move c d (some (.bracket .openCurly))) := by
  unfold openCurly
  simp only [hh]
  cases h with
  | function name params line =>
    simp only [beginBlock, beginFunction, FunctionBlock.begin, bind_assoc]
    refine (declareParams_yields params).bind fun names hn _ => ?_
    exact Yields.pure (.beginFunction hh hn)
  | entry line => exact Yields.ok (.beginEntry hh)
  | guarded kind guard line =>
    cases kind with
    | first => exact Yields.ok (.beginChain hh)
    | loop => exact Yields.ok (.beginLoop hh)
    | further =>
      obtain ⟨chain, blocks, hb, hst, -⟩ := Stacked.eq_chained hs rfl
      have hc : ({ d with header := none } : Desk).chained? = some (chain, blocks) := by
        simp [chained?, hb, hst]
      simp only [beginBlock, pushClause, hc, Chain.pushClause, hst, ne_eq, not_true_eq_false,
        if_false]
      exact Yields.ok (.beginFurther hh hb hst)

theorem openCurly_ready {m : Nat} {chained : Bool} (hr : d.Ready m chained)
    (hq : d.nesting.inString = false) : Yields (d.openCurly c.line) (Move c d none) := by
  unfold openCurly
  simp only [hr.header, beginLastClause]
  split
  · next hc =>
    obtain ⟨ht, ho⟩ := hc
    have ho : d.outer = [] := by simpa using ho
    have hch : chained = true := by
      rw [← hr.first, firstToken?_of_outer ho, ht]
      rfl
    subst hch
    obtain ⟨chain, blocks, hb, hst, -⟩ := Stacked.eq_chained hr.stacked (by rw [ho]; rfl)
    have hc : d.clear.chained? = some (chain, blocks) := by
      simp [chained?, clear, hb, hst]
    simp only [pushClause, hc, Chain.pushClause, hst, ne_eq, not_true_eq_false, if_false]
    exact Yields.ok (.beginLast hq ht ho hb hst)
  · exact Yields.bind (P := fun _ => False) (Yields.refuse _ _) fun _ _ h => h.elim

theorem endBlock_yields {m : Nat} {chained : Bool} {nesting : Nesting} (hr : d.Ready m chained)
    (h : d.Sound) (hn : d.nesting = .curly :: nesting) (hi : d.nesting.inHole = false)
    (ht : d.run.tokens = []) :
    Yields (Desk.endBlock { d with nesting } c) (Move c d none) := by
  obtain ⟨m', -, -, -, -, hop⟩ := hr.of_end hn hi ht
  cases hb : d.blocks with
  | nil => rw [hb] at hop; cases hop.length_eq
  | cons b blocks =>
    rw [hb] at hop
    have hbl := h.crafted.blocks
    rw [hb] at hbl
    cases b with
    | function b =>
      have hro : b.isAnonymous = false := by
        simpa [Block.isOpen] using hop.isOpen (.function b) (by simp)
      have hfin : ∃ code chunks, b.finish d.chunks = .ok (code, chunks) := by
        cases hrole : b.role with
        | anonymous => simp [FunctionBlock.isAnonymous, hrole] at hro
        | entry exit => exact ⟨_, _, FunctionBlock.finish_entry hrole _⟩
        | named name =>
          obtain ⟨code, hf, -⟩ := FunctionBlock.finish_named hrole hbl.1
            (h.distinct.nodup_content hb)
          exact ⟨_, _, hf⟩
      obtain ⟨code, chunks, hf⟩ := hfin
      simp only [endBlock, hf]
      show Yields (emit { d with nesting, blocks, chunks } code) _
      rw [emit_of_open hop.tail]
      exact Yields.ok (.endFunction hn hi ht hb hro hf)
    | loop b =>
      simp only [endBlock]
      rw [emit_of_open hop.tail]
      exact Yields.ok (.endLoop hn hi ht hb)
    | chain chain =>
      simp only [endBlock]
      rcases chain.closeClause_cases (c.nextWordIs "selainnya") with ⟨hw, hk, hc⟩ | hc
      · rw [hc, if_pos rfl]
        exact Yields.ok (.endClause hn hi ht hb hw hk)
      · rw [hc, if_neg (by simp), Chain.emit_eq _ rfl]
        show Yields (emit { d with nesting, blocks, labels := chain.supplyAfter d.labels }
          (chain.code d.labels)) _
        rw [emit_of_open hop.tail]
        exact Yields.ok (.endChain hn hi ht hb)

theorem closeCurly_yields {m : Nat} {chained : Bool} (hr : d.Ready m chained) (h : d.Sound) :
    Yields (d.closeCurly c) (Move c d none) := by
  unfold closeCurly
  split
  · next nesting hn =>
    split
    · next hi => exact closeHole_yields hr h hi
    · next hi =>
      split
      · exact Yields.refuse _ _
      · next ht =>
        exact endBlock_yields hr h hn (Bool.eq_false_iff.2 hi) (Decidable.not_not.1 ht)
  · exact Yields.refuse _ _

/-! ## Tokens -/

theorem requireBlank_yields (c : Cursor) : Yields c.requireBlank fun _ => True := by
  unfold Cursor.requireBlank
  split
  · exact Yields.refuseAtEnd _
  · split
    · trivial
    · exact Yields.refuse _ _

theorem checkNext_yields (t : Token) :
    Yields (d.checkNext t c) fun _ => t = .keyword .otherwise →
      d.chained?.isSome = true ∧ d.outer = [] ∧ d.run.tokens = [] := by
  unfold checkNext
  split
  · unfold checkOtherwise
    split
    · exact Yields.refuse _ _
    · next hc =>
      refine Yields.ok fun _ => ?_
      simp only [not_or, Bool.not_eq_true', Decidable.not_not] at hc
      simpa [Option.isSome_iff_ne_none] using hc
  · next k hk =>
    split
    · exact (requireBlank_yields c).mono fun _ _ he => absurd (Token.keyword.inj he) hk
    · exact Yields.ok fun he => absurd (Token.keyword.inj he) hk
  · split
    · exact (search_yields c _).mono fun _ _ he => by cases he
    · exact Yields.ok fun he => by cases he
  · next hk _ _ => exact Yields.ok fun he => (hk he).elim

theorem collect_yields {awaited : Option Token} {t : Token} (ht : t.isCollected = true)
    (ha : ∀ a ∈ awaited, t = a) (hl : t.Legal) :
    Yields (do d.checkNext t c; return d.push t) (Move c d awaited) :=
  (checkNext_yields t).bind fun _ _ ho => Yields.pure (.collect ht ha hl ho)

/-- **A token leads to a move, or is refused.** -/
theorem take_yields {awaited : Option Token} {t : Token} (hs : d.Shape awaited) (h : d.Sound)
    (hq : d.nesting.inString = false) (ha : ∀ a ∈ awaited, t = a) (ht : ∀ s, t ≠ .string s)
    (hl : t.Legal) : Yields (d.take t c) (Move c d awaited) := by
  cases hs with
  | headed hh _ hst =>
    obtain rfl := ha _ rfl
    exact openCurly_headed hh hst
  | chained =>
    obtain rfl := ha _ rfl
    exact collect_yields rfl ha hl
  | ready hr =>
    unfold take
    split
    · exact openRound_yields hq
    · exact closeRound_yields hr h
    · exact openCurly_ready hr hq
    · exact closeCurly_yields hr h
    · exact endStatement_yields hr h hq
    · exact Yields.ok (.openString _)
    · exact illegal_yields _
    · exact illegal_yields _
    · next h₁ h₂ h₃ h₄ h₅ h₆ h₇ h₈ =>
      refine collect_yields ?_ ha hl
      cases t with
      | bracket b => cases b <;> simp_all [Token.isCollected]
      | punctuation p => cases p <;> simp_all [Token.isCollected]
      | string s => exact absurd rfl (ht s)
      | _ => rfl

/-! ## Sources -/

theorem classify_yields (w : List Char) (line : UInt32) :
    Yields (Scan.classify w line) fun _ => True := by
  unfold Scan.classify
  simp only
  repeat' split
  all_goals trivial

/-- Reading a token may fail, but breaks no assumption. -/
theorem next_yields (c : Cursor) : Yields c.next.1 fun _ => True := by
  unfold Cursor.next
  simp only
  split
  · trivial
  · split
    · trivial
    · split
      · trivial
      · exact (classify_yields _ _).map fun _ _ => trivial

theorem Shape.ready_of_inString {awaited : Option Token} (hs : d.Shape awaited)
    (hq : d.nesting.inString = true) : awaited = none ∧ ∃ m chained, d.Ready m chained := by
  have hno : ∀ {m : Nat}, ¬ d.Idle m := by
    intro m hi
    obtain ⟨q, n, hn⟩ := inString_eq hq
    rw [hi.nesting] at hn
    have hm : Delimiter.quote q ∈ List.replicate m Delimiter.curly := by simp [hn]
    cases List.eq_of_mem_replicate hm
  cases hs with
  | ready h => exact ⟨rfl, _, _, h⟩
  | headed _ hi | chained _ hi => exact absurd hi hno

/-- **Taking a source breaks no assumption of the compiler.**  The desk in the end is of the right
    shape, its code is sound, and it has every property that all moves keep. -/
theorem takeAll_yields {P : Desk → Prop}
    (step : ∀ {c : Cursor} {d d' : Desk} {awaited : Option Token},
      Move c d awaited d' → d.Shape awaited → d.Sound → P d → P d') :
    ∀ {c : Cursor} {d : Desk}, d.Standing c → d.Sound → P d →
      Yields (d.takeAll c) fun r => (∃ awaited, r.1.Shape awaited) ∧ r.1.Sound ∧ P r.1 := by
  intro c
  induction hn : c.rest.length using Nat.strongRecOn generalizing c with
  | ind n ih =>
    intro d hst h hp
    obtain ⟨awaited, hs, ha⟩ := hst
    -- what is read makes a move, and the rest of the source is shorter
    have goOn : ∀ {c' : Cursor} {x : Except Diagnostic Desk}, c'.rest.length < c.rest.length →
        Yields x (Move c' d awaited) → Yields (do (← x).takeAll c') fun r =>
          (∃ awaited, r.1.Shape awaited) ∧ r.1.Sound ∧ P r.1 := by
      intro c' x hlt hx
      refine hx.bind fun d' _ hm => ?_
      exact ih _ (by omega) rfl (hm.shape hs) (hm.sound h) (step hm hs h hp)
    rw [takeAll]
    split
    · next hq =>
      obtain ⟨rfl, m, chained, hr⟩ := hs.ready_of_inString hq
      obtain ⟨s, strings, hstr⟩ := hr.strings hq
      split
      · next hd => rw [hstr] at hd; cases hd
      · split
        · next text c' hseg =>
          exact goOn (Cursor.length_of_segment hseg (by simp)) (closeString_yields hr hq text)
        · next text c' hseg =>
          exact goOn (Cursor.length_of_segment hseg (by simp)) (openHole_yields hr hq text)
        · exact Yields.ok ⟨⟨_, hs⟩, h, hp⟩
    · next hq =>
      split
      · next t c' hnext =>
        refine goOn (Cursor.length_of_next hnext) (take_yields hs h (by simpa using hq) ?_ ?_
          (Cursor.next_legal hnext))
        · intro a haw
          obtain ⟨c'', hc⟩ := ha a haw
          rw [hnext] at hc
          simpa using congrArg Prod.fst hc
        · exact Cursor.next_ne_string hnext
      · exact Yields.ok ⟨⟨_, hs⟩, h, hp⟩
      · exact Yields.ok ⟨⟨_, hs⟩, h, hp⟩
      · next e c' hnext =>
        have he := next_yields c
        rw [hnext] at he
        cases e with
        | refused why line => trivial
        | broken b => exact he

end Naskah.Desk
