/-
  Where in a source a desk stands: in the body of which function, and in front of which
  declaration or definition.  The entry point is the function that its word names.
-/
import Naskah.Proofs.Desk.Names
import Naskah.Proofs.Desk.Register

namespace Naskah

/-- The function whose body a block is. -/
def Block.host? : Block → Option String
  | function b =>
    match b.role with
    | .named name => some name
    | .entry _ => some entryName
    | .anonymous => none
  | loop _ | chain _ => none

/-- Blocks whose code runs as part of the module: no named function is among them. -/
def Exposed (bs : List Block) : Prop :=
  ∀ b ∈ bs, b.defines = []

instance (bs : List Block) : Decidable (Exposed bs) :=
  inferInstanceAs (Decidable (∀ b ∈ bs, b.defines = []))

section
variable {b b' : Block} {bs : List Block}

theorem exposed_cons : Exposed (b :: bs) ↔ b.defines = [] ∧ Exposed bs :=
  List.forall_mem_cons

/-- Blocks that define no function run where the blocks around them do. -/
theorem exposed_tail (h : b.defines = []) : Exposed bs ↔ Exposed (b :: bs) :=
  (exposed_cons.trans (and_iff_right h)).symm

theorem exposed_congr (h : b'.defines = b.defines) : Exposed (b' :: bs) ↔ Exposed (b :: bs) := by
  rw [exposed_cons, exposed_cons, h]

theorem exposed_names {b : FunctionBlock} {names : Names} {inner outer : List Block} :
    Exposed (inner ++ .function { b with names } :: outer) ↔
      Exposed (inner ++ .function b :: outer) := by
  simp only [Exposed, List.forall_mem_append, List.forall_mem_cons, Block.defines]

/-- A block without names is the body of no function. -/
theorem Block.host?_eq_none (h : b.names? = none) : b.host? = none := by
  cases b with
  | loop b | chain c => rfl
  | function f =>
    have ha : f.isAnonymous = true := by simpa [names?] using h
    have hr : f.role = .anonymous := by simpa [FunctionBlock.isAnonymous] using ha
    simp [host?, hr]

/-- A block without names defines no function. -/
theorem Block.defines_eq_nil (h : b.names? = none) : b.defines = [] := by
  cases b with
  | loop b | chain c => rfl
  | function f =>
    have ha : f.isAnonymous = true := by simpa [names?] using h
    have hr : f.role = .anonymous := by simpa [FunctionBlock.isAnonymous] using ha
    simp [defines, hr]

/-- A block that defines no function has no names, or is the entry point. -/
theorem Block.cases_of_defines (h : b.defines = []) :
    b.names? = none ∧ b.host? = none ∨
      ∃ f exit, b = .function f ∧ f.role = .entry exit ∧ b.names? = some f.names ∧
        b.host? = some entryName := by
  cases b with
  | loop b | chain c => exact .inl ⟨rfl, rfl⟩
  | function f =>
    cases hr : f.role with
    | named name => simp [defines, hr] at h
    | anonymous => left; simp [names?, host?, FunctionBlock.isAnonymous, hr]
    | entry exit =>
      right
      exact ⟨f, exit, rfl, hr, by simp [names?, FunctionBlock.isAnonymous, hr], by simp [host?, hr]⟩

/-- Exposed blocks belong to the module, or to its entry point. -/
theorem Exposed.cases (h : Exposed bs) :
    bs.findSome? Block.names? = none ∧ bs.findSome? Block.host? = none ∨
      ∃ f exit, .function f ∈ bs ∧ f.role = .entry exit ∧
        bs.findSome? Block.names? = some f.names ∧ bs.findSome? Block.host? = some entryName := by
  induction bs with
  | nil => exact .inl ⟨rfl, rfl⟩
  | cons b bs ih =>
    rw [exposed_cons] at h
    simp only [List.findSome?_cons]
    rcases Block.cases_of_defines h.1 with ⟨hn, hh⟩ | ⟨f, exit, rfl, hr, hn, hh⟩
    · rw [hn, hh]
      rcases ih h.2 with ih | ⟨f, exit, hm, hf⟩
      · exact .inl ih
      · exact .inr ⟨f, exit, List.mem_cons_of_mem _ hm, hf⟩
    · rw [hn, hh]
      exact .inr ⟨f, exit, List.mem_cons_self, hr, rfl, rfl⟩

end

namespace Desk

/-- The function whose body is being read.  There is none outside of functions. -/
def host? (d : Desk) : Option String :=
  d.blocks.findSome? Block.host?

/-- The name that the statement declares, if it can end here. -/
def declaredName? (d : Desk) : Option String :=
  match d.run.tokens with
  | .keyword .var :: .identifier name :: _ | .keyword .const :: .identifier name :: _ =>
    if d.atStart && !d.nesting.inString then some name.text else none
  | _ => none

variable {d : Desk}

theorem declaredName?_of_tokens {kind : NameKind} {l : Literal} {rest : List Token}
    (ht : d.run.tokens = .keyword (declarator kind) :: .identifier l :: rest)
    (hq : d.nesting.inString = false) (ho : d.outer = []) (hr : d.run.rounds = []) :
    d.declaredName? = some l.text := by
  have ha : d.atStart = true := atStart_iff.2 ⟨ho, hr⟩
  unfold declaredName?
  cases kind <;> simp [ht, declarator, ha, hq]

/-- Names are replaced in the function whose body is being read, or in the module. -/
theorem setNames_cases (names : Names) :
    (∃ inner b outer, d.blocks = inner ++ .function b :: outer ∧
        d.setNames names = { d with blocks := inner ++ .function { b with names } :: outer } ∧
        b.isAnonymous = false ∧ (∀ i ∈ inner, i.names? = none) ∧ d.names = b.names ∧
        d.host? = (Block.function b).host?) ∨
      d.setNames names = { d with globals := names } ∧ d.names = d.globals ∧ d.host? = none := by
  have host_eq : ∀ {bs : List Block}, (∀ b ∈ bs, b.names? = none) →
      bs.findSome? Block.host? = none := fun h =>
    List.findSome?_eq_none_iff.2 fun b hb => Block.host?_eq_none (h b hb)
  rcases names_cases d.blocks with h | ⟨inner, b, outer, hd, hb, hi⟩
  · exact .inr ⟨setNames_of_none h names, names_of_none h, host_eq h⟩
  · refine .inl ⟨inner, b, outer, hd, setNames_of_append hd hb hi names, hb, hi,
      names_of_append hd hb hi, ?_⟩
    rw [host?, hd, List.findSome?_append, host_eq hi, Option.none_or, List.findSome?_cons]
    cases hrole : b.role with
    | anonymous => simp [FunctionBlock.isAnonymous, hrole] at hb
    | named name | entry exit => simp [Block.host?, hrole]

theorem exposed_setNames (names : Names) : Exposed (d.setNames names).blocks ↔ Exposed d.blocks := by
  rcases setNames_cases (d := d) names with ⟨inner, b, outer, he, hs, -⟩ | ⟨hs, -⟩
  · rw [hs, he]
    exact exposed_names
  · rw [hs]

end Desk

end Naskah
