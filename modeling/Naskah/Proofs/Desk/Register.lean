/-
  Functions on a desk.  No function is defined twice (`Move.unique`): a definition declares its
  name, and from then on the function is a bracket with parameters, the head of a block, a block
  and at last a chunk.  Every chunk that is complete is loaded once in all of the code
  (`Move.once`), and its code is that of its parameters and of an orderly body (`Move.registered`).
-/
import Naskah.Proofs.Desk.Orderly

namespace Naskah

/-! ## Names -/

theorem Names.of_declare {t t' : Names} {name : String} {info : NameInfo}
    (h : t.declare name info = .ok t') :
    t.get? name = none ∧ ∀ x, t'.get? x = if x = name then some info else t.get? x := by
  unfold declare at h
  split at h
  · cases h
  · next hn =>
    cases h
    refine ⟨hn, fun x => ?_⟩
    show List.lookup x ((name, info) :: t.entries) = _
    rw [List.lookup_cons]
    by_cases hx : x = name
    · rw [if_pos hx, hx, beq_self_eq_true]
    · rw [if_neg hx, beq_eq_false_iff_ne.2 hx]
      rfl

/-- The parameters of a function are all different, and are the names that it begins with. -/
theorem FunctionBlock.of_declareParams {line : UInt32} : ∀ {params : List Param} {t t' : Names},
    params.foldlM (fun names p => names.declare p.name ⟨.param, p.type, line⟩) t = .ok t' →
      (params.map Param.name).Nodup ∧ (∀ p ∈ params, t.get? p.name = none) ∧
        ∀ x, (t'.get? x).isSome = true → (t.get? x).isSome = true ∨ x ∈ params.map Param.name
  | [], t, t', h => by
    cases h
    exact ⟨.nil, by simp, fun x hx => .inl hx⟩
  | p :: params, t, t', h => by
    rw [List.foldlM_cons] at h
    cases hd : t.declare p.name ⟨.param, p.type, line⟩ with
    | error e => rw [hd] at h; cases h
    | ok t₁ =>
      rw [hd] at h
      obtain ⟨hn, hget⟩ := Names.of_declare hd
      obtain ⟨hnd, hno, hx⟩ := of_declareParams h
      refine ⟨List.nodup_cons.2 ⟨?_, hnd⟩, List.forall_mem_cons.2 ⟨hn, fun q hq => ?_⟩, fun x h => ?_⟩
      · intro hm
        obtain ⟨q, hq, he⟩ := List.mem_map.1 hm
        have hq := hno q hq
        rw [he, hget, if_pos rfl] at hq
        cases hq
      · have hq := hno q hq
        rw [hget] at hq
        split at hq
        · cases hq
        · exact hq
      · rcases hx x h with h | h
        · rw [hget] at h
          split at h
          · next he => exact .inr (by simp [he])
          · exact .inl h
        · exact .inr (List.mem_cons_of_mem _ h)

/-! ## Definitions -/

/-- The function that a block defines, if it does. -/
def Block.defines : Block → List String
  | function b =>
    match b.role with
    | .named name => [name]
    | .entry _ | .anonymous => []
  | loop _ | chain _ => []

/-- The function that the head of a block defines. -/
def Header.defines : Header → List String
  | function name _ _ => [name]
  | entry _ | guarded _ _ _ => []

theorem Block.defines_add (b : Block) (code : List Asm) : (b.add code).defines = b.defines := by
  cases b <;> rfl

theorem RoundKind.defines_of_not_header {k : RoundKind} (h : k.isHeader = false) :
    k.defines = [] := by
  cases k with
  | definition name => cases h
  | entry | guard k | call b | group => rfl

namespace Desk

variable {c : Cursor} {d d' : Desk} {code : List Asm}

/-- The functions that are complete or being defined. -/
def definitions (d : Desk) : List String :=
  d.chunks.map Chunk.name ++ d.blocks.flatMap Block.defines ++
    d.header.toList.flatMap Header.defines ++
      (d.run :: d.outer).flatMap fun r => r.rounds.flatMap fun round => round.kind.defines

/-- No function is defined twice, and none that is not declared. -/
def Unique (d : Desk) : Prop :=
  ∀ f, d.definitions.count f ≤ if f ∈ d.functions.declared then 1 else 0

theorem definitions_added : (d.added code).definitions = d.definitions := by
  unfold added definitions
  split
  · next he => simp only [he]
  · next b bs he => simp only [he, List.flatMap_cons, Block.defines_add]

theorem definitions_setNames (names : Names) : (d.setNames names).definitions = d.definitions := by
  unfold setNames definitions
  split
  · next bs hr =>
    obtain ⟨inner, b, outer, he, rfl, -⟩ := replaceNames?_eq_some hr
    simp only [he, List.flatMap_append, List.flatMap_cons, Block.defines]
  · rfl

theorem functions_added : (d.added code).functions = d.functions := by
  unfold added
  split <;> rfl

theorem functions_setNames (names : Names) : (d.setNames names).functions = d.functions := by
  unfold setNames
  split <;> rfl

theorem Unique.of_le (h : d.Unique) (hd : ∀ f, d'.definitions.count f ≤ d.definitions.count f)
    (hf : d'.functions = d.functions) : d'.Unique := by
  intro f
  rw [hf]
  exact Nat.le_trans (hd f) (h f)

theorem Unique.of_eq (h : d.Unique) (hd : d'.definitions = d.definitions)
    (hf : d'.functions = d.functions) : d'.Unique :=
  h.of_le (fun f => Nat.le_of_eq (by rw [hd])) hf

/-- A new definition declares its name. -/
theorem Unique.openRound {kind : RoundKind} {functions : Functions} {hasEntry : Bool}
    {line : UInt32} (h : d.Unique)
    (hf : d.announce kind line = .ok { d with functions, hasEntry }) :
    Unique { d with
      functions, hasEntry
      nesting := .round :: d.nesting
      run := ⟨d.run.tokens ++ [.bracket .openRound],
        ⟨kind, d.run.tokens.length⟩ :: d.run.rounds⟩ } := by
  intro f
  have hc := h f
  simp only [definitions, List.flatMap_cons, List.count_append] at hc ⊢
  rcases functions_of_announce hf with ⟨rfl, hk⟩ | ⟨name, hd, hk⟩
  · rw [hk, List.count_nil]
    omega
  · obtain ⟨hno, hdec⟩ := declared_of_declare hd
    simp only [hdec, List.mem_append, List.mem_singleton]
    rcases hk with rfl | ⟨rfl, rfl⟩
    · have hdef : (RoundKind.definition name).defines = [name] := rfl
      rw [hdef]
      by_cases he : f = name
      · subst he
        rw [if_neg hno] at hc
        rw [List.count_singleton_self, if_pos (.inr rfl)]
        omega
      · have hz : [name].count f = 0 := List.count_eq_zero.2 (by simpa using he)
        simp only [hz, he, or_false]
        omega
    · have hdef : RoundKind.entry.defines = [] := rfl
      rw [hdef, List.count_nil]
      by_cases hm : f ∈ d.functions.declared
      · rw [if_pos hm] at hc
        rw [if_pos (.inl hm)]
        omega
      · rw [if_neg hm] at hc
        omega

/-- The head of a block has the function of its bracket. -/
theorem Heads.defines {line : UInt32} {round : Round} {h : Header} (hh : d.Heads line round h) :
    h.defines = round.kind.defines := by
  unfold Heads at hh
  simp only at hh
  split at hh
  · next hk => obtain ⟨_, _, rfl⟩ := hh; rw [hk]; rfl
  · next hk => subst hh; rw [hk]; rfl
  · next hk => obtain ⟨_, _, rfl⟩ := hh; rw [hk]; rfl
  · cases hh
  · cases hh

/-- **No function is defined twice.** -/
theorem Move.unique {awaited : Option Token} (hm : Move c d awaited d') (hs : d.Shape awaited)
    (h : d.Unique) : d'.Unique := by
  cases hm with
  | stay | openString | collect | closeString | openHole => exact h
  | openRound _ _ hf => exact h.openRound hf
  | closeRound _ hr hk =>
    refine h.of_eq ?_ rfl
    simp only [definitions, push, unround, hr, List.flatMap_cons,
      RoundKind.defines_of_not_header hk, List.nil_append]
  | closeHeader hn hr hh =>
    cases hs with
    | ready hs =>
      obtain ⟨-, rfl, ho, -, -⟩ := hs.of_header hn hr hh.continues.1
      refine h.of_eq ?_ rfl
      simp only [definitions, clear, unround, hr, ho, hs.header, Option.toList_some,
        Option.toList_none, List.flatMap_cons, List.flatMap_nil, hh.defines, List.append_nil]
  | statement _ _ _ _ hd =>
    rcases hd with rfl | ⟨names, rfl⟩
    · exact h.of_eq definitions_added functions_added
    · exact h.of_eq (definitions_added.trans (definitions_setNames names))
        (functions_added.trans (functions_setNames names))
  | closeHole _ ho hb =>
    refine h.of_le (fun f => ?_) rfl
    obtain ⟨hr, -⟩ := hs.of_hole ho hb
    simp only [definitions, hb, ho, List.flatMap_cons, Block.defines, hr, List.count_append,
      List.count_nil]
    omega
  | beginFunction hh =>
    refine h.of_le (fun f => ?_) rfl
    simp only [definitions, hh, List.flatMap_cons, Block.defines, Header.defines,
      Option.toList_some, Option.toList_none, List.flatMap_nil, List.count_append, List.count_nil]
    omega
  | beginEntry hh | beginChain hh | beginLoop hh =>
    refine h.of_eq ?_ rfl
    simp only [definitions, hh, List.flatMap_cons, Block.defines, Header.defines,
      Option.toList_some, Option.toList_none, List.flatMap_nil, List.nil_append]
  | beginFurther hh hb =>
    refine h.of_eq ?_ rfl
    simp only [definitions, hh, hb, List.flatMap_cons, Block.defines, Header.defines,
      Option.toList_some, Option.toList_none, List.flatMap_nil, List.nil_append]
  | beginLast _ _ _ hb =>
    refine h.of_eq ?_ rfl
    simp only [definitions, clear, hb, List.flatMap_cons, Block.defines]
  | endFunction _ _ _ hb hr hf =>
    refine h.of_le (fun f => ?_) functions_added
    rw [definitions_added]
    rcases finish_cases hr hf with ⟨exit, hrole, -, rfl⟩ | ⟨name, _, hrole, -, -, rfl⟩
    · simp only [definitions, hb, List.flatMap_cons, Block.defines, hrole, List.nil_append,
        Nat.le_refl]
    · simp only [definitions, hb, List.flatMap_cons, Block.defines, hrole, List.map_append,
        List.map_cons, List.map_nil, List.count_append]
      omega
  | endLoop _ _ _ hb | endChain _ _ _ hb =>
    refine h.of_eq (definitions_added.trans ?_) functions_added
    simp only [definitions, hb, List.flatMap_cons, Block.defines, List.nil_append]
  | endClause _ _ _ hb =>
    refine h.of_eq ?_ rfl
    simp only [definitions, hb, List.flatMap_cons, Block.defines]

end Desk

end Naskah
