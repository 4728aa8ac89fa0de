/-
  Gains: what statements add to a compilation, wherever they stand.  Code goes to the innermost
  block and names to the innermost function; functions, chunks and labels are shared by all blocks.

  Gains add up (`gain_gain`), and those made inside a block are split when it ends: its code stays
  with the block and everything else goes to the desk around it (`gain_loop`, `gain_chain`,
  `gain_function`).
-/
import Naskah.Proofs.Desk.Names
import Naskah.Proofs.Desk.Shape
import Naskah.Proofs.Tree.Symbolic

namespace Naskah

/-- What statements add to a compilation; names stand with the latest first. -/
structure Gain where
  code : List Asm := []
  names : List (String × NameInfo) := []
  functions : List String := []
  chunks : List Chunk := []
  labels : Nat := 0

/-- One gain after the other. -/
def Gain.append (a b : Gain) : Gain :=
  ⟨a.code ++ b.code, b.names ++ a.names, a.functions ++ b.functions, a.chunks ++ b.chunks,
    a.labels + b.labels⟩

/-- What goes to the desk around a block without names. -/
def Gain.around (g : Gain) : Gain :=
  { g with code := [] }

/-- What goes to the desk around a function. -/
def Gain.shared (g : Gain) : Gain :=
  { g with code := [], names := [] }

/-- A function after a gain in its body. -/
def FunctionBlock.gained (b : FunctionBlock) (g : Gain) : FunctionBlock :=
  { b with names := ⟨g.names ++ b.names.entries⟩, content := b.content ++ g.code }

namespace Desk

variable {d : Desk}

/-! ## Gains -/

/-- The desk with other functions, chunks and labels. -/
def stocked (d : Desk) (functions : Functions) (chunks : List Chunk) (labels : LabelSupply) : Desk :=
  { d with functions, chunks, labels }

section
variable (functions : Functions) (chunks : List Chunk) (labels : LabelSupply)

theorem names_stocked (d : Desk) : (d.stocked functions chunks labels).names = d.names := rfl

theorem setNames_stocked (d : Desk) (names : Names) :
    (d.stocked functions chunks labels).setNames names =
      (d.setNames names).stocked functions chunks labels := by
  unfold setNames stocked
  simp only
  split <;> rfl

theorem added_stocked (d : Desk) (code : List Asm) :
    (d.stocked functions chunks labels).added code =
      (d.added code).stocked functions chunks labels := by
  unfold added stocked
  simp only
  split <;> rfl

end

/-- The desk after a gain. -/
def gain (d : Desk) (g : Gain) : Desk :=
  ((d.setNames ⟨g.names ++ d.names.entries⟩).added g.code).stocked
    ⟨d.functions.declared ++ g.functions⟩ (d.chunks ++ g.chunks) ⟨d.labels.next + g.labels⟩

theorem names_gain (d : Desk) (g : Gain) : (d.gain g).names = ⟨g.names ++ d.names.entries⟩ := by
  rw [gain, names_stocked, names_added, names_setNames]

/-- **Gains add up.** -/
theorem gain_gain (d : Desk) (a b : Gain) : (d.gain a).gain b = d.gain (a.append b) := by
  rw [gain, names_gain, gain, setNames_stocked, setNames_added, setNames_setNames, added_stocked,
    added_added]
  simp [gain, stocked, Gain.append, Nat.add_assoc]

/-- Code alone is a gain. -/
theorem added_eq_gain (d : Desk) (code : List Asm) : d.added code = d.gain { code } := by
  have hn : (⟨[] ++ d.names.entries⟩ : Names) = d.names := rfl
  simp only [gain, hn, setNames_names, List.append_nil, Nat.add_zero]
  unfold added stocked
  split <;> rfl

/-- Names alone are a gain. -/
theorem setNames_eq_gain (d : Desk) (names : List (String × NameInfo)) :
    d.setNames ⟨names ++ d.names.entries⟩ = d.gain { names } := by
  simp only [gain, added_nil, List.append_nil, Nat.add_zero]
  unfold setNames stocked
  split <;> rfl

/-- Functions, chunks and labels alone. -/
theorem gain_stock (d : Desk) (functions : List String) (chunks : List Chunk) (labels : Nat) :
    d.gain { functions, chunks, labels } = d.stocked ⟨d.functions.declared ++ functions⟩
      (d.chunks ++ chunks) ⟨d.labels.next + labels⟩ := by
  have hself : d.setNames ⟨[] ++ d.names.entries⟩ = d := setNames_names d
  rw [gain, hself, added_nil]

theorem gain_labels (d : Desk) (labels : Nat) :
    d.gain { labels } = { d with labels := ⟨d.labels.next + labels⟩ } := by
  rw [gain_stock, List.append_nil, List.append_nil]
  rfl

theorem context_gain (d : Desk) (g : Gain) :
    (d.gain g).context = d.context.add g.functions (g.names.map fun p => (p.1, p.2.kind)) := by
  rw [context, names_gain]
  simp [Tree.contextOf, context, Tree.Context.add]
  rfl

/-! ## What a gain leaves as it is -/

/-- Where the jumps of the innermost loop go. -/
def exits (d : Desk) : Tree.Exits Label :=
  match loop? d.blocks with
  | some b => ⟨b.start, b.stop⟩
  | none => Tree.noLabels

/-- Whether there is a loop inside of the innermost function. -/
def inLoop (d : Desk) : Bool :=
  (loop? d.blocks).isSome

theorem loop?_append (a b : FunctionBlock) (outer : List Block) : ∀ inner : List Block,
    loop? (inner ++ .function a :: outer) = loop? (inner ++ .function b :: outer)
  | [] | .function _ :: _ | .loop _ :: _ => rfl
  | .chain _ :: inner => loop?_append a b outer inner

theorem loop?_setNames (d : Desk) (names : Names) :
    loop? (d.setNames names).blocks = loop? d.blocks := by
  rcases names_cases d.blocks with h | ⟨inner, b, outer, hd, hb, hi⟩
  · rw [setNames_of_none h]
  · rw [setNames_of_append hd hb hi, hd]
    exact loop?_append _ _ _ _

theorem exits_added (d : Desk) (code : List Asm) : (d.added code).exits = d.exits := by
  unfold exits added
  cases d.blocks with
  | nil => simp
  | cons x bs => cases x <;> rfl

theorem inLoop_added (d : Desk) (code : List Asm) : (d.added code).inLoop = d.inLoop := by
  unfold inLoop added
  cases d.blocks with
  | nil => simp
  | cons x bs => cases x <;> rfl

theorem inFunction_setNames (d : Desk) (names : Names) :
    (d.setNames names).inFunction = d.inFunction := by
  rcases names_cases d.blocks with h | ⟨inner, b, outer, hd, hb, hi⟩
  · rw [setNames_of_none h]
    rfl
  · rw [setNames_of_append hd hb hi, inFunction, inFunction, hd]
    have hb' : ({ b with names } : FunctionBlock).isAnonymous = false := hb
    simp [Block.names?, hb, hb']

theorem inFunction_added (d : Desk) (code : List Asm) :
    (d.added code).inFunction = d.inFunction := by
  unfold inFunction added
  cases d.blocks with
  | nil => simp
  | cons x bs => simp [names?_add]

section
variable {m : Nat} (g : Gain)

theorem exits_gain (d : Desk) : (d.gain g).exits = d.exits := by
  have h : (d.setNames ⟨g.names ++ d.names.entries⟩).exits = d.exits := by
    rw [exits, loop?_setNames, exits]
  exact (exits_added _ _).trans h

theorem inLoop_gain (d : Desk) : (d.gain g).inLoop = d.inLoop := by
  have h : (d.setNames ⟨g.names ++ d.names.entries⟩).inLoop = d.inLoop := by
    rw [inLoop, loop?_setNames, inLoop]
  exact (inLoop_added _ _).trans h

theorem inFunction_gain (d : Desk) : (d.gain g).inFunction = d.inFunction :=
  (inFunction_added _ _).trans (inFunction_setNames _ _)

theorem Idle.gain (h : d.Idle m) : (d.gain g).Idle m := by
  obtain ⟨hn, hr, ho, hs⟩ := (h.setNames ⟨g.names ++ d.names.entries⟩).added g.code
  exact ⟨hn, hr, ho, hs⟩

theorem header_gain (d : Desk) : (d.gain g).header = d.header := by
  rw [Desk.gain]
  exact (header_added _ _).trans (header_setNames _ _)

theorem Open.gain (h : Open m d.blocks) : Open m (d.gain g).blocks :=
  Open.added (Open.setNames h _) _

end

/-- A desk between two statements, inside `m` blocks. -/
structure Between (d : Desk) (m : Nat) : Prop where
  header : d.header = none
  idle : d.Idle m
  opened : Open m d.blocks

theorem Between.gain {m : Nat} (h : d.Between m) (g : Gain) : (d.gain g).Between m :=
  ⟨(header_gain g d).trans h.header, h.idle.gain g, Open.gain g h.opened⟩

/-! ## Blocks -/

/-- The desk inside a block that has just been begun. -/
def inside (d : Desk) (b : Block) : Desk :=
  { d with blocks := b :: d.blocks, nesting := .curly :: d.nesting }

theorem Between.inside {m : Nat} (h : d.Between m) {b : Block} (hb : b.isOpen = true) :
    (d.inside b).Between (m + 1) where
  header := h.header
  idle := ⟨by rw [Desk.inside, h.idle.nesting]; rfl, h.idle.run, h.idle.outer, h.idle.strings⟩
  opened := h.opened.cons hb

/-- Gains inside a block without names: its code stays with it. -/
theorem gain_inside (d : Desk) {b : Block} (hb : b.names? = none) (g : Gain) :
    (d.inside b).gain g = (d.gain g.around).inside (b.add g.code) := by
  have hn : (d.inside b).names = d.names := by
    simp [names, inside, hb]
  have hs : ∀ names, (d.inside b).setNames names = (d.setNames names).inside b := by
    intro names
    rw [setNames, setNames, inside, replaceNames?_cons names hb]
    cases replaceNames? names d.blocks <;> rfl
  rw [gain, gain, hn, hs]
  simp only [Gain.around, added_nil]
  rfl

theorem gain_loop (d : Desk) (b : LoopBlock) (g : Gain) :
    (d.inside (.loop b)).gain g = (d.gain g.around).inside (.loop (b.add g.code)) :=
  gain_inside d rfl g

theorem gain_chain (d : Desk) (c : Clause) (clauses : List Clause) (state : ChainState) (g : Gain) :
    (d.inside (.chain ⟨c :: clauses, state⟩)).gain g = (d.gain g.around).inside
      (.chain ⟨{ c with body := c.body ++ g.code } :: clauses, state⟩) :=
  gain_inside d rfl g

/-- Gains inside a function: its code and its names stay with it. -/
theorem gain_function (d : Desk) {b : FunctionBlock} (hb : b.isAnonymous = false)
    (g : Gain) :
    (d.inside (.function b)).gain g = (d.gain g.shared).inside (.function (b.gained g)) := by
  have hd : (d.inside (.function b)).blocks = [] ++ .function b :: d.blocks := rfl
  have hn : (d.inside (.function b)).names = b.names := names_of_append hd hb (by simp)
  have hs : ∀ names, (d.inside (.function b)).setNames names =
      d.inside (.function { b with names }) := setNames_of_append hd hb (by simp)
  have hself : d.setNames ⟨[] ++ d.names.entries⟩ = d := setNames_names d
  rw [gain, gain, hn, hs]
  simp only [Gain.shared, added_nil, hself]
  rfl

end Desk

end Naskah
