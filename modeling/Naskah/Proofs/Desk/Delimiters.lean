/-
  Properly nested delimiters.  `WellNested c c'` says of the text from one cursor up to another that
  every bracket and every quote in it is closed, in the order opposite to that in which they were
  opened; it is a grammar of texts, and knows no desk.

  What is taken shifts the open delimiters of a desk (`take_shifts`): a token opens one, closes the
  innermost one or leaves them as they are.  So if the text behind a desk closes what is open then,
  the text from the desk before it closes what was open there (`Takes.closes`), and from the
  beginning of a source there is nothing to be closed but what the source itself opens.
-/
import Naskah.Proofs.Desk.InStep

namespace Naskah

/-- The tokens of a bracket, the one that opens it and the one that closes it. -/
def Delimiter.tokens? : Delimiter → Option (Token × Token)
  | round => some (.bracket .openRound, .bracket .closeRound)
  | curly => some (.bracket .openCurly, .bracket .closeCurly)
  | quote _ => none

/-- Tokens that open or close a delimiter. -/
def Token.delimits : Token → Bool
  | bracket .openRound | bracket .closeRound | bracket .openCurly | bracket .closeCurly => true
  | punctuation (.quote _) => true
  | _ => false

mutual

/-- The text from a cursor up to another one closes what it opens. -/
inductive WellNested : Cursor → Cursor → Prop
  | nil (c : Cursor) : WellNested c c
  | token {c c₁ c₂ : Cursor} {t : Token} (hn : c.next = (.ok (.token t), c₁))
      (ht : t.delimits = false) (h : WellNested c₁ c₂) : WellNested c c₂
  | bracket {c c₁ c₂ c₃ c₄ : Cursor} {δ : Delimiter} {opening closing : Token}
      (hδ : δ.tokens? = some (opening, closing)) (ho : c.next = (.ok (.token opening), c₁))
      (hi : WellNested c₁ c₂) (hc : c₂.next = (.ok (.token closing), c₃))
      (h : WellNested c₃ c₄) : WellNested c c₄
  | string {c c₁ c₂ c₃ : Cursor} {q : Quote}
      (ho : c.next = (.ok (.token (.punctuation (.quote q))), c₁)) (hb : StringBody q c₁ c₂)
      (h : WellNested c₂ c₃) : WellNested c c₃

/-- The text of a string from a cursor up to behind its closing quote.  What stands in its holes
    closes what it opens. -/
inductive StringBody : Quote → Cursor → Cursor → Prop
  | closed {c c₁ : Cursor} {q : Quote} {text : String}
      (hs : c.segment q.char = (.closed text, c₁)) : StringBody q c c₁
  | hole {c c₁ c₂ c₃ c₄ : Cursor} {q : Quote} {text : String}
      (hs : c.segment q.char = (.hole text, c₁)) (hi : WellNested c₁ c₂)
      (hc : c₂.next = (.ok (.token (.bracket .closeCurly)), c₃)) (h : StringBody q c₃ c₄) :
      StringBody q c c₄

end

/-- The text from a cursor up to `e` closes some open delimiters, the innermost first, and all that
    it opens itself. -/
inductive Closes (e : Cursor) : Nesting → Cursor → Prop
  | nil {c : Cursor} (h : WellNested c e) : Closes e [] c
  | bracket {c c₁ c₂ : Cursor} {δ : Delimiter} {n : Nesting} {opening closing : Token}
      (hδ : δ.tokens? = some (opening, closing)) (hi : WellNested c c₁)
      (hc : c₁.next = (.ok (.token closing), c₂)) (h : Closes e n c₂) : Closes e (δ :: n) c
  | quote {c c₁ : Cursor} {q : Quote} {n : Nesting} (hb : StringBody q c c₁) (h : Closes e n c₁) :
      Closes e (.quote q :: n) c

/-- What a token makes of the open delimiters. -/
inductive Shifts : Token → Nesting → Nesting → Prop
  | keeps {t : Token} (n : Nesting) (ht : t.delimits = false) : Shifts t n n
  | opens {δ : Delimiter} {opening closing : Token} (n : Nesting)
      (hδ : δ.tokens? = some (opening, closing)) : Shifts opening n (δ :: n)
  | closes {δ : Delimiter} {opening closing : Token} (n : Nesting)
      (hδ : δ.tokens? = some (opening, closing)) : Shifts closing (δ :: n) n
  | quotes (q : Quote) (n : Nesting) : Shifts (.punctuation (.quote q)) n (.quote q :: n)

namespace Closes

variable {e c c' : Cursor} {n : Nesting}

/-- Text in front that closes what it opens. -/
theorem prepend (h : Closes e n c') (hq : n.inString = false)
    (hp : ∀ {c₂}, WellNested c' c₂ → WellNested c c₂) : Closes e n c := by
  cases h with
  | nil h => exact .nil (hp h)
  | bracket hδ hi hc h => exact .bracket hδ (hp hi) hc h
  | quote => cases hq

theorem of_bracket {δ : Delimiter} {opening closing : Token} (h : Closes e (δ :: n) c)
    (hδ : δ.tokens? = some (opening, closing)) :
    ∃ c₁ c₂, WellNested c c₁ ∧ c₁.next = (.ok (.token closing), c₂) ∧ Closes e n c₂ := by
  cases h with
  | bracket hδ' hi hc h =>
    rw [hδ] at hδ'
    cases hδ'
    exact ⟨_, _, hi, hc, h⟩
  | quote => cases hδ

theorem of_quote {q : Quote} (h : Closes e (.quote q :: n) c) :
    ∃ c₁, StringBody q c c₁ ∧ Closes e n c₁ := by
  cases h with
  | bracket hδ => cases hδ
  | quote hb h => exact ⟨_, hb, h⟩

/-- **What closes the delimiters behind a token closes, with the token, those in front of it.** -/
theorem of_shifts {t : Token} {n' : Nesting} (hs : Shifts t n n') (h : Closes e n' c')
    (hq : n.inString = false) (hn : c.next = (.ok (.token t), c')) : Closes e n c := by
  cases hs with
  | keeps _ ht => exact h.prepend hq (.token hn ht)
  | opens _ hδ =>
    obtain ⟨c₁, c₂, hi, hc, h⟩ := h.of_bracket hδ
    exact h.prepend hq (.bracket hδ hn hi hc)
  | closes _ hδ => exact .bracket hδ (.nil c) hn h
  | quotes q _ =>
    obtain ⟨c₁, hb, h⟩ := h.of_quote
    exact h.prepend hq (.string hn hb)

end Closes

namespace Desk

variable {d d' : Desk} {c c' : Cursor} {line : UInt32}

/-! ## What keeps the open delimiters -/

theorem emit_nesting (code : List Asm) :
    Ensures (d.emit code) fun d' => d'.nesting = d.nesting := by
  unfold emit
  split
  · exact .ok rfl
  · split
    · exact .error _
    · exact .ok rfl
  · exact .ok rfl

theorem setNames_nesting (names : Names) : (d.setNames names).nesting = d.nesting := by
  unfold setNames
  split <;> rfl

theorem statement_nesting (tokens : List Token) :
    Ensures (d.statement line tokens) fun r => r.2.nesting = d.nesting := by
  have hdecl : ∀ kind rest, Ensures (d.declaration kind line rest) fun r =>
      r.2.nesting = d.nesting := by
    intro kind rest
    unfold declaration
    split
    · exact .refuse _ _
    · refine Ensures.after fun _ _ => ?_
      refine Ensures.after fun _ _ => ?_
      refine Ensures.after fun names _ => ?_
      exact .pure (setNames_nesting names)
    · exact .refuse _ _
  unfold statement
  split
  · exact hdecl _ _
  · exact hdecl _ _
  · refine Ensures.after fun _ _ => ?_
    exact .pure rfl

theorem endStatement_nesting : Ensures (d.endStatement line) fun d' => d'.nesting = d.nesting := by
  unfold endStatement
  split
  · exact .refuse _ _
  · split
    · exact .refuse _ _
    · split
      · exact .ok rfl
      · refine (statement_nesting (d := d.clear) d.run.tokens).bind fun r _ hr => ?_
        exact (emit_nesting r.1).mono fun d' hd => hd.trans hr

/-! ## Round brackets -/

theorem openRound_nesting :
    Ensures (d.openRound line) fun d' => d'.nesting = .round :: d.nesting := by
  unfold openRound
  refine Ensures.after fun kind _ => ?_
  refine Ensures.bind (P := fun d₁ => d₁.nesting = d.nesting) (fun d₁ ha => ?_) fun d₁ _ hd => ?_
  · obtain ⟨functions, hasEntry, rfl⟩ := (announce_yields kind).of_ok ha
    rfl
  · exact .pure (congrArg (.round :: ·) hd)

theorem endRound_nesting (round : Round) :
    Ensures (d.endRound round c) fun d' => d'.nesting = d.nesting := by
  unfold endRound
  simp only
  split
  · exact .ok rfl
  · exact .ok rfl
  · refine Ensures.after fun _ _ => ?_
    exact .pure rfl
  · refine Ensures.after fun _ _ => ?_
    refine Ensures.after fun _ _ => ?_
    exact .pure rfl
  · split
    · exact Ensures.bind (P := fun _ => False) (.refuse _ _) fun _ _ h => h.elim
    · refine Ensures.after fun _ _ => ?_
      exact .pure rfl
  · refine Ensures.after fun _ _ => ?_
    refine Ensures.after fun _ _ => ?_
    exact .pure rfl

theorem closeRound_nesting :
    Ensures (d.closeRound c) fun d' => d.nesting = .round :: d'.nesting := by
  unfold closeRound
  split
  · next nesting round rounds hn _ =>
    exact (endRound_nesting round).mono fun d' hd => hn.trans (congrArg _ hd.symm)
  · exact .error _
  · exact .refuse _ _

/-! ## Curly brackets -/

theorem pushClause_nesting (kind : ClauseKind) (guard : Option (List Asm)) :
    Ensures (d.pushClause kind guard line) fun d' => d'.nesting = d.nesting := by
  unfold pushClause
  split
  · exact .refuse _ _
  · refine Ensures.after fun _ _ => ?_
    exact .pure rfl

theorem beginFunction_nesting (kind : FunctionKind) (params : List Param) :
    Ensures (d.beginFunction kind params line) fun d' => d'.nesting = d.nesting := by
  unfold beginFunction
  refine Ensures.after fun _ _ => ?_
  exact .pure rfl

theorem beginBlock_nesting (h : Header) :
    Ensures (d.beginBlock h) fun d' => d'.nesting = d.nesting := by
  unfold beginBlock
  split
  · exact beginFunction_nesting _ _
  · exact beginFunction_nesting _ _
  · exact .ok rfl
  · exact pushClause_nesting _ _
  · exact .ok rfl

theorem beginLastClause_nesting :
    Ensures (d.beginLastClause line) fun d' => d'.nesting = d.nesting := by
  unfold beginLastClause
  split
  · exact pushClause_nesting (d := d.clear) _ _
  · exact .refuse _ _

theorem openCurly_nesting :
    Ensures (d.openCurly line) fun d' => d'.nesting = .curly :: d.nesting := by
  unfold openCurly
  simp only
  split
  · next h _ =>
    refine (beginBlock_nesting (d := { d with header := none }) h).bind fun d₁ _ hd => ?_
    exact .pure (congrArg (.curly :: ·) hd)
  · refine beginLastClause_nesting.bind fun d₁ _ hd => ?_
    exact .pure (congrArg (.curly :: ·) hd)

theorem endBlock_nesting : Ensures (d.endBlock c) fun d' => d'.nesting = d.nesting := by
  unfold endBlock
  split
  · exact .error _
  · next b blocks _ =>
    refine Ensures.after fun r _ => ?_
    exact emit_nesting (d := { d with blocks, chunks := r.2 }) r.1
  · next b blocks _ => exact emit_nesting (d := { d with blocks }) b.finish
  · next chain blocks _ =>
    simp only
    split
    · exact .ok rfl
    · refine Ensures.after fun r _ => ?_
      exact emit_nesting (d := { d with blocks, labels := r.2.2 }) r.1

theorem addPart_nesting (part : StringPart) :
    Ensures (d.addPart part) fun d' => d'.nesting = d.nesting := by
  unfold addPart
  split
  · exact .error _
  · exact .ok rfl

theorem finishHole_nesting (code : List Asm) :
    Ensures (d.finishHole code) fun r => r.2.nesting = d.nesting := by
  unfold finishHole
  split
  · split
    · exact .error _
    · refine Ensures.after fun _ _ => ?_
      exact .pure rfl
  · exact .error _

theorem closeHole_nesting :
    Ensures (d.closeHole line) fun d' => d'.nesting = d.nesting.tail := by
  unfold closeHole
  split
  · exact .error _
  · next run outer _ =>
    refine Ensures.after fun code _ => ?_
    refine (finishHole_nesting (d := { d with run, outer }) code).bind fun r _ hr => ?_
    refine (addPart_nesting (d := r.2) (.hole r.1)).bind fun d₁ _ hd => ?_
    exact .pure (congrArg List.tail (hd.trans hr))

theorem closeCurly_nesting :
    Ensures (d.closeCurly c) fun d' => d.nesting = .curly :: d'.nesting := by
  unfold closeCurly
  split
  · next nesting hn =>
    split
    · refine closeHole_nesting.mono fun d' hd => ?_
      rw [hd, hn, List.tail_cons]
    · split
      · exact .refuse _ _
      · exact (endBlock_nesting (d := { d with nesting })).mono fun d' hd =>
          hn.trans (congrArg _ hd.symm)
  · exact .refuse _ _

/-! ## Tokens and texts -/

/-- **A token opens a delimiter, closes the innermost one, or leaves all as they are.** -/
theorem take_shifts {t : Token} :
    Ensures (d.take t c) fun d' => Shifts t d.nesting d'.nesting := by
  unfold take
  split
  · exact openRound_nesting.mono fun d' hd => hd ▸ .opens _ rfl
  · exact closeRound_nesting.mono fun d' hd => hd ▸ .closes _ rfl
  · exact openCurly_nesting.mono fun d' hd => hd ▸ .opens _ rfl
  · exact closeCurly_nesting.mono fun d' hd => hd ▸ .closes _ rfl
  · exact endStatement_nesting.mono fun d' hd => hd ▸ .keeps _ rfl
  · exact .ok (.quotes _ _)
  · exact .refuse _ _
  · exact .refuse _ _
  · next h₁ h₂ h₃ h₄ _ h₆ _ _ =>
    refine Ensures.after fun _ _ => ?_
    refine .pure (.keeps _ ?_)
    cases t with
    | bracket b => cases b <;> simp_all [Token.delimits]
    | punctuation p => cases p <;> simp_all [Token.delimits]
    | _ => rfl

theorem closeString_nesting (text : String) :
    Ensures (d.closeString text) fun d' => d'.nesting = d.nesting.tail := by
  unfold closeString
  split
  · exact .error _
  · exact .ok rfl

theorem openHole_nesting (text : String) :
    Ensures (d.openHole text line) fun d' => d'.nesting = .curly :: d.nesting := by
  unfold openHole
  refine (addPart_nesting _).bind fun d₁ _ hd => ?_
  refine Ensures.after fun _ _ => ?_
  exact .pure (congrArg (.curly :: ·) hd)

/-- The innermost quote is that of the innermost string. -/
theorem InStep.quote_eq {s : Draft} {strings : List Draft} (h : d.InStep c)
    (hq : d.nesting.inString = true) (hs : d.strings = s :: strings) :
    ∃ n, d.nesting = .quote s.quote :: n := by
  obtain ⟨q, n, hn⟩ := inString_eq hq
  have he : q :: Nesting.quotes n = s.quote :: strings.map Draft.quote := by
    have := h.quotes
    rwa [hn, hs] at this
  exact ⟨n, by rw [hn, (List.cons.inj he).1]⟩

/-- **What closes the delimiters behind a desk closes those of the desk before it**, with what was
    taken between them. -/
theorem Takes.closes {e : Cursor} (ht : Takes d c d' c') (hd : d.InStep c)
    (h : Closes e d'.nesting c') : Closes e d.nesting c := by
  cases ht with
  | token hq hn ht => exact h.of_shifts (take_shifts d' ht) hq hn
  | closed hq hs hn ht =>
    -- the text was read up to the quote of the string, which is the open delimiter
    obtain ⟨n, hd⟩ := hd.quote_eq hq hs
    rw [closeString_nesting _ d' ht, hd] at h
    rw [hd]
    exact .quote (.closed hn) h
  | hole hq hs hn ht =>
    obtain ⟨n, hd⟩ := hd.quote_eq hq hs
    rw [openHole_nesting _ d' ht, hd] at h
    -- behind the hole comes its bracket, and behind that the rest of the string
    obtain ⟨c₁, c₂, hi, hc, h⟩ := h.of_bracket rfl
    obtain ⟨c₃, hb, h⟩ := h.of_quote
    rw [hd]
    exact .quote (.hole hn hi hc hb) h

/-- The text between a desk and a later one of its course closes what is open in between. -/
theorem Leads.closes {e c₀ : Cursor} (hl : Leads {} c₀ d c) (h : Closes e d.nesting c) :
    Closes e [] c₀ := by
  induction hl with
  | refl => exact h
  | take hl ht ih => exact ih (ht.closes hl.sound.1.inStep h)

end Desk

end Naskah
