/-
  The stacks of a desk are in step (`Desk.InStep`): the open round brackets are those of the runs,
  the open quotes are those of the strings, and the curly brackets are those of holes, each with a
  run and a nameless block of its own, and those of the other blocks under construction.  At most
  one chain waits for its next clause, and nothing but nameless blocks stands inside of it.

  All of it can be read off the shape of a desk (`Standing.inStep`).
-/
import Naskah.Proofs.Desk.Course

namespace Naskah

/-- The quote that a delimiter is. -/
def Delimiter.quote? : Delimiter → Option Quote
  | quote q => some q
  | round | curly => none

namespace Nesting

/-- The quotes among some open delimiters. -/
def quotes (n : Nesting) : List Quote :=
  n.filterMap Delimiter.quote?

/-- The number of curly brackets directly inside of a quote. -/
def holes : Nesting → Nat
  | [] => 0
  | δ :: n => holes n + if inHole (δ :: n) then 1 else 0

/-- The number of the other curly brackets. -/
def bodies : Nesting → Nat
  | [] => 0
  | δ :: n => bodies n + if δ = .curly ∧ inHole (δ :: n) = false then 1 else 0

end Nesting

namespace Block

/-- Blocks of holes. -/
def isNameless : Block → Bool
  | function b => b.isAnonymous
  | loop _ | chain _ => false

/-- Chains that wait for their next clause. -/
def isChained : Block → Bool
  | chain c => c.state = .chained
  | function _ | loop _ => false

end Block

namespace Desk

/-- The run of the statement and those of the holes, the innermost first. -/
def runs (d : Desk) : List Run :=
  d.run :: d.outer

/-- The stacks of a desk are in step with each other, and its header with what comes next. -/
structure InStep (d : Desk) (c : Cursor) : Prop where
  rounds : d.nesting.count .round = (d.runs.flatMap Run.rounds).length
  /-- There are as many quotes as strings, and each is the quote of its string. -/
  quotes : d.nesting.quotes = d.strings.map Draft.quote
  holes : d.nesting.holes = d.runs.length - 1
  nameless : d.nesting.holes = d.blocks.countP Block.isNameless
  bodies : d.nesting.bodies = d.blocks.countP Block.isOpen
  one_chained : d.blocks.countP Block.isChained ≤ 1
  chained_topmost : ∀ b ∈ d.blocks, b.isChained = true →
    d.blocks.find? (fun b => !b.isNameless) = some b
  header : d.header.isSome = true → ∃ c', c.next = (.ok (.token (.bracket .openCurly)), c')

end Desk

/-! ## Delimiters -/

namespace Nested

open Nesting

variable {chained : Bool} {m : Nat} {n : Nesting} {rss : List (List Round)} {qs : List Quote}

theorem count_round (h : Nested chained m n rss qs) : n.count .round = rss.flatten.length := by
  have hcurly : ∀ m, (List.replicate m Delimiter.curly).count .round = 0 := fun m => by
    rw [List.count_replicate, if_neg (by decide)]
  induction h with
  | outermost => rw [hcurly]; rfl
  | header => rw [List.count_cons_self, hcurly]; rfl
  | round _ _ ih => rw [List.count_cons_self, ih]; rfl
  | quote q _ ih => rw [List.count_cons_of_ne (by simp), ih]
  | hole _ ih => rw [List.count_cons_of_ne (by simp), ih]; rfl

theorem quotes_eq (h : Nested chained m n rss qs) : quotes n = qs := by
  have hcurly : ∀ m, quotes (List.replicate m .curly) = [] := fun m =>
    List.filterMap_replicate_of_none rfl
  induction h with
  | outermost => exact hcurly m
  | header => exact hcurly m
  | round _ _ ih => exact ih
  | quote q _ ih => exact congrArg (q :: ·) ih
  | hole _ ih => exact ih

theorem inHole_replicate (m : Nat) : inHole (List.replicate m .curly) = false := by
  cases m with
  | zero => rfl
  | succ m => cases m <;> rfl

theorem holes_eq (h : Nested chained m n rss qs) : holes n + 1 = rss.length := by
  have hcurly : ∀ m, holes (List.replicate m .curly) = 0 := by
    intro m
    induction m with
    | zero => rfl
    | succ m ih =>
      have hi := inHole_replicate (m + 1)
      rw [List.replicate_succ] at hi ⊢
      rw [holes, ih, hi]
      rfl
  induction h with
  | outermost => rw [hcurly]; rfl
  | header => rw [holes, hcurly]; rfl
  | round _ _ ih => exact ih
  | quote q _ ih => exact ih
  | hole _ ih => exact congrArg (· + 1) ih

theorem bodies_eq (h : Nested chained m n rss qs) : bodies n = m := by
  have hcurly : ∀ m, bodies (List.replicate m .curly) = m := by
    intro m
    induction m with
    | zero => rfl
    | succ m ih =>
      have hi := inHole_replicate (m + 1)
      rw [List.replicate_succ] at hi ⊢
      rw [bodies, ih, if_pos ⟨rfl, hi⟩]
  induction h with
  | outermost => exact hcurly m
  | header => exact hcurly m
  | round _ _ ih => exact ih
  | quote q _ ih => exact ih
  | hole _ ih => exact ih

end Nested

/-! ## Blocks -/

theorem Block.isNameless_of_isOpen {b : Block} (h : b.isOpen = true) : b.isNameless = false := by
  cases b with
  | function b => simpa [isOpen, isNameless] using h
  | loop b | chain c => rfl

theorem Block.isChained_of_isOpen {b : Block} (h : b.isOpen = true) : b.isChained = false := by
  cases b with
  | function b | loop b => rfl
  | chain c =>
    have hs : c.state = .filling := by simpa [isOpen] using h
    simp [isChained, hs]

namespace Stacked

variable {chained : Bool} {m k : Nat} {bs : List Block}

theorem isNameless_hole {b : FunctionBlock} (h : b.role = .anonymous) :
    (Block.function b).isNameless = true :=
  decide_eq_true h

theorem countP_isNameless (h : Stacked m chained k bs) : bs.countP Block.isNameless = k := by
  have hopen : ∀ {bs}, Open m bs → bs.countP Block.isNameless = 0 := fun ho =>
    List.countP_eq_zero.2 fun b hb => by simp [Block.isNameless_of_isOpen (ho.isOpen b hb)]
  induction h with
  | opened ho => exact hopen ho
  | chained _ ho => rw [List.countP_cons_of_neg Bool.false_ne_true, hopen ho]
  | hole hr _ _ _ ih => rw [List.countP_cons_of_pos (isNameless_hole hr), ih]

theorem countP_isOpen (h : Stacked m chained k bs) : bs.countP Block.isOpen = m := by
  have hopen : ∀ {bs}, Open m bs → bs.countP Block.isOpen = m := fun ho =>
    (List.countP_eq_length.2 ho.isOpen).trans ho.length_eq
  induction h with
  | opened ho => exact hopen ho
  | chained hc ho => rw [List.countP_cons_of_neg (by simp [Block.isOpen, hc]), hopen ho]
  | hole hr _ _ _ ih =>
    rw [List.countP_cons_of_neg (by simp [Block.isOpen, FunctionBlock.isAnonymous, hr]), ih]

theorem countP_isChained (h : Stacked m chained k bs) : bs.countP Block.isChained ≤ 1 := by
  have hopen : ∀ {bs}, Open m bs → bs.countP Block.isChained = 0 := fun ho =>
    List.countP_eq_zero.2 fun b hb => by simp [Block.isChained_of_isOpen (ho.isOpen b hb)]
  induction h with
  | opened ho => exact Nat.le_trans (Nat.le_of_eq (hopen ho)) (Nat.zero_le 1)
  | @chained c bs hc ho =>
    have hone : (Block.chain c :: bs).countP Block.isChained = 1 := by
      rw [List.countP_cons_of_pos (by simp [Block.isChained, hc]), hopen ho]
    exact Nat.le_of_eq hone
  | hole _ _ _ _ ih => rwa [List.countP_cons_of_neg Bool.false_ne_true]

/-- Nothing but nameless blocks stands inside of a chain that waits for its next clause. -/
theorem chained_topmost (h : Stacked m chained k bs) : ∀ b ∈ bs, b.isChained = true →
    bs.find? (fun b => !b.isNameless) = some b := by
  have hopen : ∀ {bs}, Open m bs → ∀ b ∈ bs, b.isChained ≠ true := fun ho b hb => by
    simp [Block.isChained_of_isOpen (ho.isOpen b hb)]
  induction h with
  | opened ho => exact fun b hb hc => absurd hc (hopen ho b hb)
  | chained _ ho =>
    intro b hb hc
    rcases List.mem_cons.1 hb with rfl | hb
    · exact List.find?_cons_of_pos rfl
    · exact absurd hc (hopen ho b hb)
  | hole hr _ _ _ ih =>
    intro b hb hc
    rcases List.mem_cons.1 hb with rfl | hb
    · cases hc
    · rw [List.find?_cons_of_neg (by simp [isNameless_hole hr])]
      exact ih b hb hc

end Stacked

/-! ## Desks -/

namespace Desk

variable {d : Desk} {c : Cursor}

/-- Whatever a desk waits for, its delimiters and its blocks fit to each other. -/
theorem Shape.nested {awaited : Option Token} (h : d.Shape awaited) : ∃ m chained,
    Nested chained m d.nesting (d.runs.map Run.rounds) (d.strings.map Draft.quote) ∧
      Stacked m chained d.outer.length d.blocks := by
  have hidle : ∀ {m chained}, d.Idle m → Stacked m chained 0 d.blocks →
      Nested chained m d.nesting (d.runs.map Run.rounds) (d.strings.map Draft.quote) ∧
        Stacked m chained d.outer.length d.blocks := by
    intro m chained hi hs
    rw [runs, hi.nesting, hi.run, hi.outer, hi.strings]
    exact ⟨.outermost, hs⟩
  cases h with
  | ready h => exact ⟨_, _, h.nested, h.stacked⟩
  | headed _ hi hs => exact ⟨_, _, hidle hi hs⟩
  | chained _ hi hs => exact ⟨_, _, hidle hi hs⟩

/-- **A desk that has its shape is in step.** -/
theorem Standing.inStep (h : d.Standing c) : d.InStep c := by
  obtain ⟨awaited, hs, ha⟩ := h
  obtain ⟨m, chained, hn, hb⟩ := hs.nested
  have hholes : d.nesting.holes = d.outer.length := by
    have he := hn.holes_eq
    rw [List.length_map, runs, List.length_cons] at he
    exact Nat.succ.inj he
  exact {
    rounds := by rw [hn.count_round, List.flatMap_def]
    quotes := hn.quotes_eq
    holes := hholes
    nameless := hholes.trans hb.countP_isNameless.symm
    bodies := hn.bodies_eq.trans hb.countP_isOpen.symm
    one_chained := hb.countP_isChained
    chained_topmost := hb.chained_topmost
    header := fun hh => by
      cases hs with
      | ready h => rw [h.header] at hh; cases hh
      | headed => exact ha _ rfl
      | chained hn => rw [hn] at hh; cases hh }

end Desk

end Naskah
