/-
  The shape of a desk.  The open delimiters say what there is on a desk: every open round bracket
  is a round bracket of some run, every open quote is an unfinished string, every curly bracket
  directly inside a quote is a hole with a run and a nameless block, and the other curly brackets
  are the blocks under construction.

  A desk is ready for any token, or it waits for a certain one: after the head of a block for the
  curly bracket, and after a clause of a chain that goes on for the word that continues it.  Moves
  keep the shape, and what a desk waits for is what comes next (`Move.shape`).
-/
import Naskah.Proofs.Desk.Moves
import Naskah.Proofs.Desk.Statements

namespace Naskah

/-- Round brackets with the guard of a clause that continues a chain. -/
def RoundKind.continues : RoundKind → Bool
  | guard .further => true
  | _ => false

/-- The head of a clause that continues a chain. -/
def Header.continues : Header → Bool
  | guarded .further _ _ => true
  | _ => false

/-- Blocks that code can be added to. -/
def Block.isOpen : Block → Bool
  | function b => !b.isAnonymous
  | loop _ => true
  | chain c => c.state = .filling

/-- The blocks of `m` curly brackets. -/
structure Open (m : Nat) (bs : List Block) : Prop where
  length_eq : bs.length = m
  isOpen : ∀ b ∈ bs, b.isOpen = true

/-- The open delimiters inside `m` curly brackets, with the round brackets of all runs and the
    quotes of all strings.  The round brackets of a head of a block are the outermost ones of a
    statement, and the head continues a chain only if the statement does. -/
inductive Nested (chained : Bool) (m : Nat) : Nesting → List (List Round) → List Quote → Prop
  | outermost : Nested chained m (List.replicate m .curly) [[]] []
  | header {r : Round} (hr : r.kind.isHeader = true) (hc : r.kind.continues = chained) :
      Nested chained m (.round :: List.replicate m .curly) [[r]] []
  | round {r : Round} {n : Nesting} {rs : List Round} {rss : List (List Round)} {qs : List Quote}
      (hr : r.kind.isHeader = false) (h : Nested chained m n (rs :: rss) qs) :
      Nested chained m (.round :: n) ((r :: rs) :: rss) qs
  | quote (q : Quote) {n : Nesting} {rss : List (List Round)} {qs : List Quote}
      (h : Nested chained m n rss qs) : Nested chained m (.quote q :: n) rss (q :: qs)
  | hole {q : Quote} {n : Nesting} {rss : List (List Round)} {qs : List Quote}
      (h : Nested chained m (.quote q :: n) rss qs) :
      Nested chained m (.curly :: .quote q :: n) ([] :: rss) qs

/-- The blocks under construction: nameless ones for the holes, then the chain that the statement
    continues, if it does, then the blocks of the curly brackets. -/
inductive Stacked (m : Nat) : Bool → Nat → List Block → Prop
  | opened {bs : List Block} (h : Open m bs) : Stacked m false 0 bs
  | chained {c : Chain} {bs : List Block} (hc : c.state = .chained) (h : Open m bs) :
      Stacked m true 0 (.chain c :: bs)
  | hole {chained : Bool} {k : Nat} {b : FunctionBlock} {bs : List Block}
      (hr : b.role = .anonymous) (hp : b.params = []) (hc : b.content = [])
      (h : Stacked m chained k bs) : Stacked m chained (k + 1) (.function b :: bs)

namespace Desk

/-- The first token of the statement. -/
def firstToken? (d : Desk) : Option Token :=
  (d.outer.getLast?.getD d.run).tokens.head?

/-- A desk that is ready for any token. -/
structure Ready (d : Desk) (m : Nat) (chained : Bool) : Prop where
  header : d.header = none
  nested : Nested chained m d.nesting (d.run.rounds :: d.outer.map Run.rounds)
    (d.strings.map Draft.quote)
  brackets : ∀ r ∈ d.run :: d.outer, r.rounds ≠ [] → .bracket .openRound ∈ r.tokens
  stacked : Stacked m chained d.outer.length d.blocks
  first : d.firstToken? = some (.keyword .otherwise) ↔ chained = true

/-- A desk between two statements, inside `m` curly brackets. -/
structure Idle (d : Desk) (m : Nat) : Prop where
  nesting : d.nesting = List.replicate m .curly
  run : d.run = {}
  outer : d.outer = []
  strings : d.strings = []

/-- The shape of a desk, and the token that it waits for. -/
inductive Shape (d : Desk) : Option Token → Prop
  | ready {m : Nat} {chained : Bool} (h : Ready d m chained) : Shape d none
  | headed {m : Nat} {h : Header} (hh : d.header = some h) (hi : d.Idle m)
      (hs : Stacked m h.continues 0 d.blocks) : Shape d (some (.bracket .openCurly))
  | chained {m : Nat} (hh : d.header = none) (hi : d.Idle m) (hs : Stacked m true 0 d.blocks) :
      Shape d (some (.keyword .otherwise))

end Desk

/-! ## Delimiters -/

section
variable {chained : Bool} {m : Nat} {n : Nesting} {rss : List (List Round)} {qs : List Quote}

theorem not_curly_quote {q : Quote} : List.replicate m .curly ≠ .curly :: .quote q :: n := by
  intro h
  have hq : Delimiter.quote q ∈ List.replicate m Delimiter.curly := by simp [h]
  cases List.eq_of_mem_replicate hq

/-- What stands inside a curly bracket that belongs to a block. -/
theorem Nested.of_curly (h : Nested chained m (.curly :: n) rss qs)
    (hi : Nesting.inHole (.curly :: n) = false) :
    ∃ m', m = m' + 1 ∧ n = List.replicate m' .curly ∧ rss = [[]] ∧ qs = [] := by
  generalize hn : Delimiter.curly :: n = n' at h
  cases h with
  | outermost =>
    cases m with
    | zero => cases hn
    | succ m => exact ⟨m, rfl, (List.cons.inj hn).2, rfl, rfl⟩
  | hole h =>
    cases hn
    cases hi
  | header | round | quote => cases hn

/-- What stands inside a round bracket. -/
theorem Nested.of_round {r : Round} {rs : List Round}
    (h : Nested chained m (.round :: n) ((r :: rs) :: rss) qs) :
    r.kind.isHeader = false ∧ Nested chained m n (rs :: rss) qs ∨
      r.kind.isHeader = true ∧ r.kind.continues = chained ∧
        n = List.replicate m .curly ∧ rs = [] ∧ rss = [] ∧ qs = [] := by
  generalize hn : Delimiter.round :: n = n' at h
  cases h with
  | header hr hc => cases hn; exact .inr ⟨hr, hc, rfl, rfl, rfl, rfl⟩
  | round hr h => cases hn; exact .inl ⟨hr, h⟩
  | quote => cases hn

/-- Inside a round bracket some run has one. -/
theorem Nested.not_round : ¬ Nested chained m (.round :: n) ([] :: rss) qs := by
  generalize hn : Delimiter.round :: n = n'
  intro h
  cases h with
  | outermost =>
    have hr : Delimiter.round ∈ List.replicate m Delimiter.curly := by simp [← hn]
    cases List.eq_of_mem_replicate hr
  | quote | hole => cases hn

/-- Inside a quote there is a string. -/
theorem Nested.not_quote {q : Quote} : ¬ Nested chained m (.quote q :: n) rss [] := by
  generalize hn : Delimiter.quote q :: n = n'
  intro h
  cases h with
  | outermost =>
    have hr : Delimiter.quote q ∈ List.replicate m Delimiter.curly := by simp [← hn]
    cases List.eq_of_mem_replicate hr
  | header | round | hole => cases hn

theorem Nested.of_quote {q q' : Quote} (h : Nested chained m (.quote q :: n) rss (q' :: qs)) :
    Nested chained m n rss qs := by
  generalize hn : Delimiter.quote q :: n = n' at h
  cases h with
  | quote _ h => cases hn; exact h
  | round | hole => cases hn

theorem Nested.of_hole {q : Quote} {rs : List Round}
    (h : Nested chained m (.curly :: .quote q :: n) (rs :: rss) qs) :
    Nested chained m (.quote q :: n) rss qs := by
  generalize hn : Delimiter.curly :: Delimiter.quote q :: n = n' at h
  cases h with
  | outermost => exact absurd hn.symm not_curly_quote
  | hole h => cases hn; exact h
  | header | round | quote => cases hn

theorem Nested.ne_nil (h : Nested chained m n rss qs) : rss ≠ [] := by
  induction h with
  | quote _ _ ih => exact ih
  | outermost | header | round | hole => simp

/-- A run without open brackets that stands neither in a hole nor in a string. -/
theorem Nested.of_outermost (h : Nested chained m n [[]] qs) (hq : n.inString = false) :
    n = List.replicate m .curly ∧ qs = [] := by
  generalize hr : [[]] = rss at h
  cases h with
  | outermost => exact ⟨rfl, rfl⟩
  | hole h => cases hr; exact absurd rfl h.ne_nil
  | header | round => cases hr
  | quote => cases hq

end

/-! ## Blocks -/

theorem Block.isOpen_add {b : Block} (h : b.isOpen = true) (code : List Asm) :
    (b.add code).isOpen = true := by
  cases b with
  | function b => exact h
  | loop b => rfl
  | chain c =>
    obtain ⟨clauses, state⟩ := c
    cases clauses with
    | nil => exact h
    | cons cl cls => exact h

theorem Open.cons {m : Nat} {b : Block} {bs : List Block} (hb : b.isOpen = true)
    (h : Open m bs) : Open (m + 1) (b :: bs) :=
  ⟨by simp [h.length_eq], List.forall_mem_cons.2 ⟨hb, h.isOpen⟩⟩

theorem Open.tail {m : Nat} {b : Block} {bs : List Block} (h : Open (m + 1) (b :: bs)) :
    Open m bs :=
  ⟨by simpa using h.length_eq, fun b' hb => h.isOpen b' (by simp [hb])⟩

/-- Code can be added to the innermost of some open blocks. -/
theorem Open.filling {m : Nat} {c : Chain} {bs : List Block} (h : Open m (.chain c :: bs)) :
    c.state = .filling := by
  simpa [Block.isOpen] using h.isOpen (.chain c) (by simp)

namespace Desk

/-- Code can be added to a desk whose blocks are open. -/
theorem emit_of_open {m : Nat} {d : Desk} (h : Open m d.blocks) (code : List Asm) :
    d.emit code = .ok (d.added code) := by
  refine emit_eq (fun c blocks hb => ?_) code
  rw [hb] at h
  exact h.filling

theorem Open.added {m : Nat} {d : Desk} (h : Open m d.blocks) (code : List Asm) :
    Open m (d.added code).blocks := by
  unfold Desk.added
  split
  · exact h
  · next b blocks hb =>
    rw [hb] at h
    refine ⟨h.length_eq, List.forall_mem_cons.2 ⟨?_, fun b' hb' => h.isOpen b' (by simp [hb'])⟩⟩
    exact Block.isOpen_add (h.isOpen b (by simp)) code

theorem Open.setNames {m : Nat} {d : Desk} (h : Open m d.blocks) (names : Names) :
    Open m (d.setNames names).blocks := by
  unfold Desk.setNames
  split
  · next bs hr =>
    obtain ⟨inner, b, outer, hb, rfl, -, -⟩ := replaceNames?_eq_some hr
    rw [hb] at h
    refine ⟨by rw [← h.length_eq]; simp, fun x hx => ?_⟩
    rcases List.mem_append.1 hx with hx | hx
    · exact h.isOpen x (by simp [hx])
    · rcases List.mem_cons.1 hx with rfl | hx
      · exact h.isOpen (.function b) (by simp)
      · exact h.isOpen x (by simp [hx])
  · exact h

/-! ## Moves -/

section
variable {c : Cursor} {d d' : Desk} {m : Nat} {chained : Bool}

/-- A desk that has a shape, and waits for nothing but the token that comes next. -/
def Standing (d : Desk) (c : Cursor) : Prop :=
  ∃ awaited, Shape d awaited ∧ ∀ t ∈ awaited, ∃ c', c.next = (.ok (.token t), c')

theorem Ready.standing (h : Ready d m chained) : Standing d c :=
  ⟨none, .ready h, by simp⟩

/-- Desks with the same tokens in all runs begin with the same token. -/
theorem firstToken?_congr (hr : d'.run.tokens = d.run.tokens) (ho : d'.outer = d.outer) :
    d'.firstToken? = d.firstToken? := by
  unfold firstToken?
  rw [ho]
  cases d.outer.getLast? with
  | none => exact congrArg List.head? hr
  | some r => rfl

/-- More tokens do not change the first one, if there is one. -/
theorem firstToken?_append {t : Token} (hr : d'.run.tokens = d.run.tokens ++ [t])
    (ho : d'.outer = d.outer) :
    d'.firstToken? = d.firstToken? ∨ d.outer = [] ∧ d.run.tokens = [] ∧ d'.firstToken? = some t := by
  unfold firstToken?
  rw [ho]
  cases h : d.outer.getLast? with
  | some r => exact .inl rfl
  | none =>
    simp only [Option.getD_none, hr]
    cases ht : d.run.tokens with
    | nil => exact .inr ⟨List.getLast?_eq_none_iff.1 h, rfl, rfl⟩
    | cons a as => exact .inl rfl

/-- A token that does not continue a chain joins a run. -/
theorem Ready.first_append {t : Token} (h : Ready d m chained)
    (hr : d'.run.tokens = d.run.tokens ++ [t]) (ho : d'.outer = d.outer)
    (ht : t ≠ .keyword .otherwise) :
    d'.firstToken? = some (.keyword .otherwise) ↔ chained = true := by
  rcases firstToken?_append hr ho with he | ⟨hd, hn, he⟩
  · rw [he]; exact h.first
  · rw [← h.first, he]
    simp [firstToken?, hd, hn, ht]

theorem Stacked.not_chained? {bs : List Block} (h : Stacked m false 0 bs) (hb : d.blocks = bs) :
    d.chained? = none := by
  cases h with
  | opened ho =>
    unfold Desk.chained?
    split
    · next c blocks hc =>
      rw [hb] at hc
      rw [hc] at ho
      rw [if_neg (by simp [ho.filling])]
    · rfl

theorem Stacked.eq_chained {k : Nat} {bs : List Block} (h : Stacked m true k bs) (hk : k = 0) :
    ∃ chain blocks, bs = .chain chain :: blocks ∧ chain.state = .chained ∧ Open m blocks := by
  cases h with
  | chained hc ho => exact ⟨_, _, rfl, hc, ho⟩
  | hole => cases hk

theorem Stacked.eq_opened {k : Nat} {bs : List Block} (h : Stacked m false k bs) (hk : k = 0) :
    Open m bs := by
  cases h with
  | opened ho => exact ho
  | hole => cases hk

theorem atStart_iff : d.atStart = true ↔ d.outer = [] ∧ d.run.rounds = [] := by
  simp [atStart]

theorem firstToken?_of_outer (h : d.outer = []) : d.firstToken? = d.run.tokens.head? := by
  simp [firstToken?, h]

theorem definedName?_eq_some {name : String} (h : d.definedName? = some name) :
    d.atStart = true ∧ d.run.tokens.head? = some (.keyword .function) := by
  unfold definedName? at h
  split at h
  · next n ht =>
    split at h
    · next ha => exact ⟨ha, by rw [ht]; rfl⟩
    · cases h
  · cases h

theorem headerKind_eq_ok {k : Keyword} {line : UInt32} {kind : RoundKind}
    (h : d.headerKind k line = .ok kind) (hl : d.run.tokens.getLast? = some (.keyword k)) :
    d.atStart = true ∧
      (d.run.tokens.head? = some (.keyword .otherwise) ↔ kind.continues = true) := by
  unfold headerKind at h
  simp only at h
  split at h
  · cases h
  · next hg =>
    simp only [Bool.or_eq_true, Bool.not_eq_true', Bool.and_eq_true, bne_iff_ne, ne_eq,
      decide_eq_false_iff_not, not_or, not_and, Bool.not_eq_false, Decidable.not_not] at hg
    refine ⟨hg.1, ?_⟩
    by_cases hf : d.run.tokens = [.keyword .otherwise, .keyword .cond]
    · -- the guard of a clause that continues a chain
      rw [hf] at hl
      obtain rfl : Keyword.cond = k := by simpa using hl
      simp only [hf, decide_true, if_true] at h
      cases h
      simp [hf, RoundKind.continues]
    · obtain ⟨t, ht⟩ := List.length_eq_one_iff.1 (Decidable.byContradiction fun hn => hf (hg.2 hn))
      obtain rfl : t = .keyword k := by simpa [ht] using hl
      simp only [hf, decide_false] at h
      rw [ht]
      cases k with
      | entry =>
        simp only at h
        split at h
        · cases h; simp [RoundKind.continues]
        · cases h
      | cond | loop => cases h; simp [RoundKind.continues]
      | _ => cases h

/-- The tokens in front of the bracket of a header. -/
theorem roundKind_header {line : UInt32} {kind : RoundKind} (h : d.roundKind line = .ok kind)
    (hk : kind.isHeader = true) :
    d.outer = [] ∧ d.run.rounds = [] ∧
      (d.firstToken? = some (.keyword .otherwise) ↔ kind.continues = true) := by
  suffices hs : d.atStart = true ∧
      (d.run.tokens.head? = some (.keyword .otherwise) ↔ kind.continues = true) by
    obtain ⟨ho, hr⟩ := atStart_iff.1 hs.1
    exact ⟨ho, hr, by rw [firstToken?_of_outer ho]; exact hs.2⟩
  unfold roundKind at h
  simp only at h
  split at h
  · next name hd =>
    obtain ⟨ha, ht⟩ := definedName?_eq_some hd
    cases h
    exact ⟨ha, by simp [ht, RoundKind.continues]⟩
  · next k hd hl =>
    split at h
    · exact headerKind_eq_ok h hl
    · cases h
      split at hk <;> cases hk
  · next name hd hl =>
    cases hc : d.functions.check name.text name.line with
    | error e => rw [hc] at h; cases h
    | ok u => rw [hc] at h; cases h; cases hk
  · cases h; cases hk
/-! ### Tokens and round brackets -/

theorem Ready.collect {t : Token} (h : Ready d m chained)
    (ho : t = .keyword .otherwise →
      d.chained?.isSome = true ∧ d.outer = [] ∧ d.run.tokens = []) :
    Ready (d.push t) m chained where
  header := h.header
  nested := h.nested
  brackets := by
    intro r hr hne
    rcases List.mem_cons.1 hr with rfl | hr
    · exact List.mem_append_left _ (h.brackets d.run (by simp) hne)
    · exact h.brackets r (List.mem_cons_of_mem _ hr) hne
  stacked := h.stacked
  first := by
    by_cases ht : t = .keyword .otherwise
    · -- the statement has no token yet, so it continues no chain
      obtain ⟨hc, hd, hn⟩ := ho ht
      have hf : chained = false := by
        rw [← Bool.not_eq_true, ← h.first]
        simp [firstToken?_of_outer hd, hn]
      subst hf
      have hs := h.stacked
      rw [hd] at hs
      rw [Stacked.not_chained? hs rfl] at hc
      cases hc
    · exact h.first_append rfl rfl ht

theorem Ready.openRound {kind : RoundKind} {functions : Functions} {hasEntry : Bool} {line : UInt32}
    (h : Ready d m chained) (hq : d.nesting.inString = false)
    (hk : d.roundKind line = .ok kind) :
    Ready { d with
        functions, hasEntry
        nesting := .round :: d.nesting
        run := ⟨d.run.tokens ++ [.bracket .openRound],
          ⟨kind, d.run.tokens.length⟩ :: d.run.rounds⟩ } m chained where
  header := h.header
  nested := by
    have hn := h.nested
    cases hh : kind.isHeader with
    | false => exact .round hh hn
    | true =>
      obtain ⟨ho, hr, hf⟩ := roundKind_header hk hh
      rw [ho, hr] at hn
      obtain ⟨hn, hs⟩ := hn.of_outermost hq
      simp only [ho, hr, hn, hs, List.map_nil]
      refine .header hh ?_
      rw [Bool.eq_iff_iff, ← hf, h.first]
  brackets := by
    intro r hr hne
    rcases List.mem_cons.1 hr with rfl | hr
    · simp
    · exact h.brackets r (by simp [hr]) hne
  stacked := h.stacked
  first := h.first_append rfl rfl (by simp)

theorem Ready.closeRound {nesting : Nesting} {round : Round} {rounds : List Round}
    (h : Ready d m chained) (hn : d.nesting = .round :: nesting)
    (hr : d.run.rounds = round :: rounds) (hk : round.kind.isHeader = false) :
    Ready ((d.unround nesting rounds).push (.bracket .closeRound)) m chained where
  header := h.header
  nested := by
    have hs := h.nested
    rw [hn, hr] at hs
    rcases hs.of_round with ⟨-, hs⟩ | ⟨hh, -⟩
    · exact hs
    · rw [hk] at hh; cases hh
  brackets := by
    intro r hr' hne
    rcases List.mem_cons.1 hr' with rfl | hr'
    · exact List.mem_append_left _ (h.brackets d.run (by simp) (by simp [hr]))
    · exact h.brackets r (List.mem_cons_of_mem _ hr') hne
  stacked := h.stacked
  first := h.first_append rfl rfl (by simp)

/-- The round brackets of a header are all that is open. -/
theorem Ready.of_header {nesting : Nesting} {round : Round} {rounds : List Round}
    (h : Ready d m chained) (hn : d.nesting = .round :: nesting)
    (hr : d.run.rounds = round :: rounds) (hk : round.kind.isHeader = true) :
    nesting = List.replicate m .curly ∧ rounds = [] ∧ d.outer = [] ∧ d.strings = [] ∧
      round.kind.continues = chained := by
  have hs := h.nested
  rw [hn, hr] at hs
  rcases hs.of_round with ⟨hh, -⟩ | ⟨-, hc, hm, hrs, ho, hq⟩
  · rw [hk] at hh; cases hh
  · exact ⟨hm, hrs, List.map_eq_nil_iff.1 ho, List.map_eq_nil_iff.1 hq, hc⟩

theorem Heads.continues {line : UInt32} {round : Round} {h : Header} (hh : d.Heads line round h) :
    round.kind.isHeader = true ∧ h.continues = round.kind.continues := by
  unfold Heads at hh
  simp only at hh
  split at hh
  · next hk => obtain ⟨_, _, rfl⟩ := hh; rw [hk]; exact ⟨rfl, rfl⟩
  · next hk => subst hh; rw [hk]; exact ⟨rfl, rfl⟩
  · next k hk => obtain ⟨_, _, rfl⟩ := hh; rw [hk]; cases k <;> exact ⟨rfl, rfl⟩
  · cases hh
  · cases hh

theorem Ready.closeHeader {nesting : Nesting} {round : Round} {rounds : List Round} {h : Header}
    {line : UInt32} (hd : Ready d m chained) (hn : d.nesting = .round :: nesting)
    (hr : d.run.rounds = round :: rounds) (hh : d.Heads line round h) :
    Shape { (d.unround nesting rounds).clear with header := some h }
      (some (.bracket .openCurly)) := by
  obtain ⟨hk, hc⟩ := hh.continues
  obtain ⟨rfl, rfl, ho, hs, hch⟩ := hd.of_header hn hr hk
  refine .headed rfl ⟨rfl, rfl, ho, hs⟩ ?_
  have hst := hd.stacked
  rw [ho] at hst
  rw [hc, hch]
  exact hst

/-! ### Strings and holes -/

theorem Ready.openString (h : Ready d m chained) (q : Quote) (line : UInt32) :
    Ready (d.openString q line) m chained where
  header := h.header
  nested := .quote q h.nested
  brackets := h.brackets
  stacked := h.stacked
  first := by
    have hf : (d.openString q line).firstToken? = d.firstToken? := firstToken?_congr rfl rfl
    rw [hf]
    exact h.first

theorem inString_eq {n : Nesting} (h : n.inString = true) : ∃ q n', n = .quote q :: n' := by
  match n, h with
  | .quote q :: n', _ => exact ⟨q, n', rfl⟩

theorem Ready.closeString {s : Draft} {strings : List Draft} (h : Ready d m chained)
    (hq : d.nesting.inString = true) (hs : d.strings = s :: strings) (parts : List StringPart) :
    Ready ({ d with nesting := d.nesting.tail, strings }.push (.string ⟨parts, s.line⟩))
      m chained where
  header := h.header
  nested := by
    obtain ⟨q, n, hn⟩ := inString_eq hq
    have ht := h.nested
    rw [hn, hs, List.map_cons] at ht
    have ht := ht.of_quote
    show Nested chained m d.nesting.tail _ _
    rw [hn]
    exact ht
  brackets := by
    intro r hr hne
    rcases List.mem_cons.1 hr with rfl | hr
    · exact List.mem_append_left _ (h.brackets d.run (by simp) hne)
    · exact h.brackets r (List.mem_cons_of_mem _ hr) hne
  stacked := h.stacked
  first := h.first_append rfl rfl (by simp)

theorem Ready.openHole {s : Draft} {strings : List Draft} {line : UInt32} (h : Ready d m chained)
    (hq : d.nesting.inString = true) (hs : d.strings = s :: strings) (parts : List StringPart) :
    Ready { d with
        strings := { s with parts } :: strings
        blocks := .function ⟨.anonymous, [], {}, line, []⟩ :: d.blocks
        run := {}
        outer := d.run :: d.outer
        nesting := .curly :: d.nesting } m chained where
  header := h.header
  nested := by
    obtain ⟨q, n, hn⟩ := inString_eq hq
    have ht := h.nested
    rw [hn, hs, List.map_cons] at ht
    simp only [hn, List.map_cons]
    exact .hole ht
  brackets := by
    intro r hr hne
    rcases List.mem_cons.1 hr with rfl | hr
    · exact absurd rfl hne
    · exact h.brackets r hr hne
  stacked := .hole rfl rfl rfl h.stacked
  first := by
    rw [← h.first]
    unfold firstToken?
    cases ho : d.outer with
    | nil => rfl
    | cons r rs => rfl

theorem inHole_eq {n : Nesting} (h : n.inHole = true) : ∃ q n', n = .curly :: .quote q :: n' := by
  match n, h with
  | .curly :: .quote q :: n', _ => exact ⟨q, n', rfl⟩

theorem Ready.closeHole {run : Run} {outer : List Run} {b : FunctionBlock} {blocks : List Block}
    {s : Draft} {strings : List Draft} (h : Ready d m chained) (hn : d.nesting.inHole = true)
    (ho : d.outer = run :: outer) (hb : d.blocks = .function b :: blocks)
    (hs : d.strings = s :: strings) (parts : List StringPart) :
    Ready { d with
        run, outer, blocks
        strings := { s with parts } :: strings
        nesting := d.nesting.tail } m chained where
  header := h.header
  nested := by
    obtain ⟨q, n, hn⟩ := inHole_eq hn
    have ht := h.nested
    rw [hn, hs, ho, List.map_cons, List.map_cons] at ht
    simp only [hn, List.map_cons, List.tail_cons]
    exact ht.of_hole
  brackets := by
    intro r hr hne
    exact h.brackets r (by rw [ho]; exact List.mem_cons_of_mem _ hr) hne
  stacked := by
    have ht := h.stacked
    rw [ho, hb] at ht
    cases ht with
    | hole _ _ _ ht => exact ht
  first := by
    rw [← h.first]
    unfold firstToken?
    rw [ho]
    cases outer with
    | nil => rfl
    | cons r rs => rfl

/-! ### Blocks and statements -/

theorem Ready.of_idle (hh : d.header = none) (hi : d.Idle m) (ho : Open m d.blocks) :
    Ready d m false where
  header := hh
  nested := by
    rw [hi.nesting, hi.run, hi.outer, hi.strings]
    exact .outermost
  brackets := by
    intro r hr hne
    rw [hi.run, hi.outer, List.mem_singleton] at hr
    subst hr
    exact absurd rfl hne
  stacked := by rw [hi.outer]; exact .opened ho
  first := by simp [firstToken?_of_outer hi.outer, hi.run]

theorem Idle.added (h : d.Idle m) (code : List Asm) : (d.added code).Idle m := by
  unfold Desk.added
  split
  · exact ⟨h.nesting, h.run, h.outer, h.strings⟩
  · exact ⟨h.nesting, h.run, h.outer, h.strings⟩

theorem header_added (d : Desk) (code : List Asm) : (d.added code).header = d.header := by
  unfold Desk.added
  split <;> rfl

theorem Idle.setNames (h : d.Idle m) (names : Names) : (d.setNames names).Idle m := by
  unfold Desk.setNames
  split
  · exact ⟨h.nesting, h.run, h.outer, h.strings⟩
  · exact ⟨h.nesting, h.run, h.outer, h.strings⟩

theorem header_setNames (d : Desk) (names : Names) : (d.setNames names).header = d.header := by
  unfold Desk.setNames
  split <;> rfl

/-- Code is added between two statements. -/
theorem Ready.added (hh : d.header = none) (hi : d.Idle m) (ho : Open m d.blocks)
    (code : List Asm) : Ready (d.added code) m false :=
  .of_idle (by rw [header_added, hh]) (hi.added code) (Open.added ho code)

theorem Ready.statement {d₁ : Desk} (h : Ready d m chained) (hq : d.nesting.inString = false)
    (ho : d.outer = []) (hr : d.run.rounds = [])
    (hf : d.run.tokens.head? ≠ some (.keyword .otherwise))
    (hd : d₁ = d.clear ∨ ∃ names, d₁ = d.clear.setNames names) (code : List Asm) :
    Ready (d₁.added code) m false := by
  have hn := h.nested
  rw [ho, hr] at hn
  obtain ⟨hm, hs⟩ := hn.of_outermost hq
  obtain rfl : chained = false := by
    rw [← Bool.not_eq_true, ← h.first, firstToken?_of_outer ho]
    exact hf
  have hst : Open m d.blocks := Stacked.eq_opened h.stacked (by rw [ho]; rfl)
  have hi : d.clear.Idle m := ⟨hm, by simp [clear, hr], ho, List.map_eq_nil_iff.1 hs⟩
  rcases hd with rfl | ⟨names, rfl⟩
  · exact Ready.added (d := d.clear) h.header hi hst code
  · exact .added ((header_setNames d.clear names).trans h.header) (hi.setNames names)
      (Open.setNames (d := d.clear) hst names) code

/-- A block begins after its head. -/
theorem Ready.begin {b : Block} {bs : List Block} {labels : LabelSupply} (hi : d.Idle m)
    (ho : Open m bs) (hb : b.isOpen = true) :
    Ready { d with header := none, labels, blocks := b :: bs, nesting := .curly :: d.nesting }
      (m + 1) false :=
  .of_idle rfl
    ⟨by simp only [hi.nesting, List.replicate_succ], hi.run, hi.outer, hi.strings⟩ (.cons hb ho)

theorem Ready.beginLast {chain : Chain} {blocks : List Block} {clause : Clause}
    (h : Ready d m chained) (hq : d.nesting.inString = false)
    (ht : d.run.tokens = [.keyword .otherwise]) (ho : d.outer = [])
    (hb : d.blocks = .chain chain :: blocks) :
    Ready { d.clear with
        blocks := .chain ⟨clause :: chain.clauses, .filling⟩ :: blocks
        nesting := .curly :: d.nesting } (m + 1) false := by
  have hr : d.run.rounds = [] := by
    by_contra hne
    have hm := h.brackets d.run (by simp) hne
    simp [ht] at hm
  have hn := h.nested
  rw [ho, hr] at hn
  obtain ⟨hm, hs⟩ := hn.of_outermost hq
  obtain rfl : chained = true := by
    rw [← h.first, firstToken?_of_outer ho, ht]
    rfl
  obtain ⟨_, _, hb', -, hop⟩ := Stacked.eq_chained h.stacked (by rw [ho]; rfl)
  rw [hb] at hb'
  cases hb'
  have hi : d.clear.Idle m := ⟨hm, by simp [clear, hr], ho, List.map_eq_nil_iff.1 hs⟩
  refine .of_idle h.header ⟨?_, hi.run, hi.outer, hi.strings⟩ (.cons rfl hop)
  rw [List.replicate_succ, ← hm]

/-- What is on a desk when a block ends. -/
theorem Ready.of_end {nesting : Nesting} (h : Ready d m chained)
    (hn : d.nesting = .curly :: nesting) (hi : d.nesting.inHole = false) (ht : d.run.tokens = []) :
    ∃ m', nesting = List.replicate m' .curly ∧ d.run = {} ∧ d.outer = [] ∧ d.strings = [] ∧
      Open (m' + 1) d.blocks := by
  have hs := h.nested
  rw [hn] at hs hi
  obtain ⟨m', rfl, hm, hr, hq⟩ := hs.of_curly hi
  obtain ⟨hr, ho⟩ := List.cons.inj hr
  have ho := List.map_eq_nil_iff.1 ho
  obtain rfl : chained = false := by
    rw [← Bool.not_eq_true, ← h.first, firstToken?_of_outer ho, ht]
    simp
  have hrun : d.run = {} := by
    cases hd : d.run
    simp_all
  exact ⟨m', hm, hrun, ho, List.map_eq_nil_iff.1 hq,
    Stacked.eq_opened h.stacked (by rw [ho]; rfl)⟩

/-- **Moves keep the shape of a desk**, and the token that the new desk waits for comes next. -/
theorem Move.shape {awaited : Option Token} (hm : Move c d awaited d') (hs : Shape d awaited) :
    Standing d' c := by
  cases hs with
  | @ready m chained h =>
    cases hm with
    | stay => exact h.standing
    | collect _ _ _ ho => exact (h.collect ho).standing
    | openRound hq hk => exact (h.openRound hq hk).standing
    | closeRound hn hr hk => exact (h.closeRound hn hr hk).standing
    | closeHeader hn hr hh hs =>
      refine ⟨_, h.closeHeader hn hr hh, fun t ht => ?_⟩
      cases ht
      exact Cursor.next_of_search_openCurly hs
    | statement hq ho hr hf hd => exact (h.statement hq ho hr hf hd _).standing
    | openString q => exact (h.openString q _).standing
    | closeString text hq hs => exact (h.closeString hq hs _).standing
    | openHole text hq hs => exact (h.openHole hq hs _).standing
    | closeHole hn ho hb hs => exact (h.closeHole hn ho hb hs _).standing
    | beginLast hq ht ho hb => exact (h.beginLast hq ht ho hb).standing
    | endFunction hn hi ht hb | endLoop hn hi ht hb | endChain hn hi ht hb =>
      obtain ⟨m', hm, hr, ho, hs, hop⟩ := h.of_end hn hi ht
      rw [hb] at hop
      refine Ready.standing (Ready.added (m := m') ?_ ?_ ?_ _)
      · exact h.header
      · exact ⟨hm, hr, ho, hs⟩
      · exact hop.tail
    | endClause hn hi ht hb hw =>
      obtain ⟨m', hm, hr, ho, hs, hop⟩ := h.of_end hn hi ht
      rw [hb] at hop
      refine ⟨_, .chained h.header ⟨hm, hr, ho, hs⟩ (.chained rfl hop.tail), fun t ht => ?_⟩
      cases ht
      exact Cursor.next_of_nextWordIs_otherwise hw
  | @headed m h hh hi hs =>
    cases hm with
    | collect ht ha => rw [ha _ rfl] at ht; cases ht
    | beginFunction hh' | beginEntry hh' | beginChain hh' | beginLoop hh' =>
      rw [hh] at hh'
      cases hh'
      exact (Ready.begin hi (Stacked.eq_opened hs rfl) rfl).standing
    | beginFurther hh' hb =>
      rw [hh] at hh'
      cases hh'
      obtain ⟨_, _, hb', -, hop⟩ := Stacked.eq_chained hs rfl
      rw [hb] at hb'
      cases hb'
      exact (Ready.begin hi hop rfl).standing
  | @chained m hh hi hs =>
    cases hm with
    | collect ht ha =>
      rw [ha _ rfl]
      suffices h : Ready (d.push (.keyword .otherwise)) m true from h.standing
      refine ⟨hh, ?_, ?_, ?_, ?_⟩
      · simp only [push, hi.nesting, hi.run, hi.outer, hi.strings]
        exact .outermost
      · intro r hr hne
        simp only [push, hi.run, hi.outer, List.mem_singleton] at hr
        subst hr
        exact absurd rfl hne
      · simp only [push, hi.outer]
        exact hs
      · simp [firstToken?, push, hi.outer, hi.run]

end

end Desk

end Naskah
