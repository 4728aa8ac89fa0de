/-
  The states of a chain.  Whatever is done with a chain, and in whatever order, until its code is
  taken: its first clause has a condition, every further one has one too, and nothing follows the
  clause without one (`Chain.Ordered`).  For a clause may be closed at any time and as often as one
  likes, but a chain never waits for another clause after the last.

  Then every label that is handed out for the code of a chain is marked once and jumped to
  (`Chain.Ordered.new_label`).
-/
import Naskah.Proofs.Block.Interleaved

namespace Naskah

/-! ## Clauses in order -/

/-- The clauses of a chain are in order; they stand with the latest first. -/
structure Chain.Ordered (c : Chain) : Prop where
  first : ∃ cl, c.clauses.getLast? = some cl ∧ cl.kind = .first ∧ cl.guard.isSome = true
  later : ∀ cl ∈ c.clauses.dropLast,
    cl.kind = .further ∧ cl.guard.isSome = true ∨ cl.kind = .last ∧ cl.guard = none
  /-- Only the latest clause can be the last. -/
  final : ∀ cl ∈ c.clauses.tail, cl.kind ≠ .last
  /-- No clause is waited for after the last. -/
  chained : c.state = .chained → ∀ cl ∈ c.clauses.head?, cl.kind ≠ .last

namespace Chain.Ordered

variable {c c' : Chain}

theorem start (guard : List Asm) (line : UInt32) : (Chain.start guard line).Ordered where
  first := ⟨_, rfl, rfl, rfl⟩
  later := by simp [Chain.start]
  final := by simp [Chain.start]
  chained := nofun

/-- There is a latest clause. -/
theorem clauses_ne_nil (h : c.Ordered) : c.clauses ≠ [] := by
  obtain ⟨cl, hl, -⟩ := h.first
  rintro he
  rw [he] at hl
  cases hl

theorem add (h : c.Ordered) (code : List Asm) : (c.add code).Ordered := by
  obtain ⟨clauses, state⟩ := c
  cases clauses with
  | nil => exact h
  | cons cl clauses =>
    obtain ⟨first, later, final, chained⟩ := h
    refine ⟨?_, ?_, final, ?_⟩
    · cases clauses with
      | nil =>
        obtain ⟨_, ⟨⟩, hk, hg⟩ := first
        exact ⟨_, rfl, hk, hg⟩
      | cons cl' clauses => exact first
    · cases clauses with
      | nil => exact nofun
      | cons cl' clauses =>
        exact List.forall_mem_cons.2
          ⟨(List.forall_mem_cons.1 later).1, (List.forall_mem_cons.1 later).2⟩
    · intro hs _ hcl
      cases hcl
      exact chained hs cl rfl

theorem closeClause (h : c.Ordered) (follows : Bool) : (c.closeClause follows).Ordered := by
  rcases c.closeClause_cases follows with ⟨-, hk, he⟩ | he
  · rw [he]
    exact ⟨h.first, h.later, h.final, fun _ => hk⟩
  · rw [he]
    exact ⟨h.first, h.later, h.final, nofun⟩

end Chain.Ordered

/-- **When a clause can be added**: the chain waits for one, and the clause has a condition or is
    the last one. -/
theorem Chain.pushClause_eq_ok_iff {c c' : Chain} {kind : ClauseKind} {guard : Option (List Asm)}
    {line : UInt32} : c.pushClause kind guard line = .ok c' ↔ c.state = .chained ∧
      (kind = .further ∧ guard.isSome = true ∨ kind = .last ∧ guard = none) ∧
        c' = ⟨⟨kind, guard, [], line⟩ :: c.clauses, .filling⟩ := by
  by_cases hs : c.state = .chained
  · cases kind <;> cases guard <;> simp [pushClause, hs, broken, eq_comm]
  · simp [pushClause, hs, refuse]

theorem Chain.Ordered.pushClause {c c' : Chain} {kind : ClauseKind} {guard : Option (List Asm)}
    {line : UInt32} (h : c.Ordered) (hp : c.pushClause kind guard line = .ok c') : c'.Ordered := by
  obtain ⟨hs, hk, rfl⟩ := Chain.pushClause_eq_ok_iff.1 hp
  have hlatest := h.chained hs
  obtain ⟨first, later, final, -⟩ := h
  cases hc : c.clauses with
  | nil =>
    rw [hc] at first
    obtain ⟨_, ⟨⟩, -⟩ := first
  | cons cl clauses =>
    rw [hc] at first later final hlatest
    refine ⟨first, ?_, ?_, nofun⟩
    · exact List.forall_mem_cons.2 ⟨hk, later⟩
    · exact List.forall_mem_cons.2 ⟨hlatest cl rfl, final⟩

/-! ## The labels of the code -/

namespace Chain

open Asm

variable {exit l : Label}

theorem index_ne_next {labels : LabelSupply} (h : l ≠ labels.fresh.1) : l.index ≠ labels.next :=
  fun hi => h (by cases l; cases hi; rfl)

/-- The labels that are handed out for clauses with conditions are marked and jumped to. -/
theorem mem_emitClauses : ∀ {cls : List Clause} {rest : List Asm} {labels : LabelSupply},
    (∀ cl ∈ cls, cl.guard.isSome = true) →
    (l ∈ marks rest ∧ l ∈ targets rest ∨
      labels.next ≤ l.index ∧ l.index < (emitClauses exit cls rest labels).2.next) →
    l ∈ marks (emitClauses exit cls rest labels).1 ∧
      l ∈ targets (emitClauses exit cls rest labels).1
  | [], rest, labels, _, hl => by
    rcases hl with hl | ⟨hge, hlt⟩
    · exact hl
    · exact absurd hlt (Nat.not_lt.2 hge)
  | cl :: cls, rest, labels, hg, hl => by
    rw [List.forall_mem_cons] at hg
    obtain ⟨g, hcl⟩ := Option.isSome_iff_exists.1 hg.1
    rw [emitClauses_cons] at hl ⊢
    refine mem_emitClauses hg.2 ?_
    rcases hl with ⟨hm, ht⟩ | ⟨hge, hlt⟩
    · exact .inl (by simp [emitClause, hcl, hm, ht])
    · -- the label of this clause, or one of those after it
      by_cases he : l = labels.fresh.1
      · exact .inl (by simp [emitClause, hcl, he, Instr.target?])
      · refine .inr ⟨?_, hlt⟩
        have hne := index_ne_next he
        simp only [emitClause, hcl, LabelSupply.fresh]
        omega

/-- Only the last clause has no condition. -/
theorem Ordered.guarded {c : Chain} (h : c.Ordered) {cl : Clause} (hcl : cl ∈ c.clauses)
    (hk : cl.kind ≠ .last) : cl.guard.isSome = true := by
  obtain ⟨cl₀, hlast, -, hg⟩ := h.first
  rw [← List.dropLast_append_getLast? cl₀ hlast, List.mem_append, List.mem_singleton] at hcl
  rcases hcl with hcl | rfl
  · rcases h.later cl hcl with ⟨-, hg⟩ | ⟨hk', -⟩
    · exact hg
    · exact absurd hk' hk
  · exact hg

theorem Ordered.mem_code {c : Chain} (h : c.Ordered) {labels : LabelSupply}
    (hge : labels.next ≤ l.index) (hlt : l.index < (c.supplyAfter labels).next) :
    l ∈ marks (c.code labels) ∧ l ∈ targets (c.code labels) := by
  obtain ⟨cl₀, hlast, -, hg₀⟩ := h.first
  rw [code, marks_append, targets_append, List.mem_append, List.mem_append]
  by_cases he : l = labels.fresh.1
  · subst he
    exact ⟨.inr (by simp), .inl (exit_mem_targets _ [] labels.fresh.2 hlast hg₀)⟩
  · have hne := index_ne_next he
    have hge' : labels.fresh.2.next ≤ l.index := by
      rw [fresh_next]
      omega
    rw [supplyAfter] at hlt
    have htail : ∀ cl ∈ c.clauses.tail, cl.guard.isSome = true := fun cl hcl =>
      h.guarded (List.mem_of_mem_tail hcl) (h.final cl hcl)
    suffices hmem : l ∈ marks (emitClauses labels.fresh.1 c.clauses [] labels.fresh.2).1 ∧
        l ∈ targets (emitClauses labels.fresh.1 c.clauses [] labels.fresh.2).1 from
      ⟨.inl hmem.1, .inl hmem.2⟩
    cases hc : c.clauses with
    | nil => exact absurd hc h.clauses_ne_nil
    | cons cl cls =>
      rw [hc] at hlt htail
      cases hcl : cl.guard with
      | some g =>
        exact mem_emitClauses (List.forall_mem_cons.2 ⟨by rw [hcl]; rfl, htail⟩)
          (.inr ⟨hge', hlt⟩)
      | none =>
        -- the last clause gets no label
        have hcl' : ∀ rest supply,
            emitClause labels.fresh.1 cl rest supply = (cl.body, supply) := by
          simp [emitClause, hcl]
        rw [emitClauses_cons, hcl'] at hlt ⊢
        exact mem_emitClauses htail (.inr ⟨hge', hlt⟩)

/-- **The labels of the code of a chain** are marked once and jumped to, if they are new to the
    clauses. -/
theorem Ordered.new_label {c : Chain} (h : c.Ordered) {labels : LabelSupply}
    (hold : ∀ l ∈ c.clauses.flatMap Clause.marks, l.index < labels.next)
    (hge : labels.next ≤ l.index) (hlt : l.index < (c.supplyAfter labels).next) :
    (marks (c.code labels)).count l = 1 ∧ l ∈ targets (c.code labels) := by
  obtain ⟨hm, ht⟩ := h.mem_code hge hlt
  refine ⟨?_, ht⟩
  have hcount := (c.count_marks_code labels l).2
  have hnew : l ∉ c.clauses.flatMap Clause.marks := fun hl => absurd (hold l hl) (Nat.not_lt.2 hge)
  rw [List.count_eq_zero.2 hnew, handedOut, if_pos ⟨hge, hlt⟩] at hcount
  have hpos := List.count_pos_iff.2 hm
  omega

end Chain

/-! ## Chains in a workshop -/

theorem ChainBuilder.of_pushClause_error {c : ChainBuilder} {kind : ClauseKind}
    {guard : Option (List Asm)} {line : UInt32} {a : Arena} {e : Diagnostic}
    {p : ChainBuilder × Arena} (h : c.pushClause kind guard line a = .error e p) : p = (c, a) := by
  by_cases hs : c.state = .chained
  · cases kind <;> cases guard <;> simp_all [pushClause]
  · unfold pushClause at h
    rw [if_pos hs] at h
    cases h
    rfl

theorem ChainBuilder.of_emit_error {c : ChainBuilder} {labels : LabelSupply} {a : Arena}
    {e : Diagnostic} {p : ChainBuilder × LabelSupply × Arena}
    (h : c.emit labels a = .error e p) : p = (c, labels, a) := by
  by_cases hs : c.state = .resolved
  · simp [emit, hs] at h
  · rw [emit, if_pos hs] at h
    cases h
    rfl

namespace Workshop

open Asm

variable {w : Workshop} {slot : String} {c : Chain}

/-- Whether a chain stays in its slot: an act begins no other block there, and does not take the
    code of the chain. -/
def keeps (w : Workshop) (slot : String) : Act → Bool
  | .beginFunction s .. | .beginLoop s .. | .beginChain s .. => s ≠ slot
  | .emit s => s ≠ slot || !w.succeeds (.emit s)
  | _ => true

/-- Whether a chain stays in its slot during some acts. -/
def keepsAll (slot : String) : Workshop → List Act → Bool
  | _, [] => true
  | w, x :: xs => w.keeps slot x && keepsAll slot (w.perform x) xs

theorem get?_perform (h : w.Owned) (x : Act) :
    (w.perform x).get? slot = (w.bench.act x).2.blocks slot :=
  congrArg (Bench.blocks · slot) (perform_bench h x).2.1

theorem Owned.run (h : w.Owned) (xs : List Act) : (w.run xs).Owned := by
  induction xs generalizing w with
  | nil => exact h
  | cons x xs ih => exact ih (perform_bench h x).1

/-- An act keeps the clauses of a chain in order. -/
theorem perform_ordered (h : w.Owned) (hb : w.get? slot = some (.chain c)) (hc : c.Ordered)
    {x : Act} (hx : w.keeps slot x = true) :
    ∃ c', (w.perform x).get? slot = some (.chain c') ∧ c'.Ordered := by
  have hB : w.bench.blocks slot = some (.chain c) := hb
  rw [get?_perform h]
  by_cases hslot : x.slot? = some slot
  case neg => exact ⟨c, by rw [Bench.blocks_of_ne hslot, hB], hc⟩
  cases x with
  | fresh => cases hslot
  | beginFunction | beginLoop | beginChain =>
    cases hslot
    simp [keeps] at hx
  | add s code =>
    cases hslot
    refine ⟨c.add code, ?_, hc.add code⟩
    simp only [Bench.act, hB, Bench.blocks_put, Block.add]
  | addLast s =>
    cases hslot
    refine ⟨c.add w.bench.last, ?_, hc.add _⟩
    simp [Bench.act, hB, Bench.put, Block.add]
  | closeClause s follows =>
    cases hslot
    refine ⟨c.closeClause follows, ?_, hc.closeClause follows⟩
    simp only [Bench.act, hB, Bench.blocks_put]
  | pushClause s kind guard line =>
    cases hslot
    cases hp : c.pushClause kind guard line with
    | error e => exact ⟨c, by simp only [Bench.act, hB, hp], hc⟩
    | ok c' => exact ⟨c', by simp only [Bench.act, hB, hp, Bench.blocks_put], hc.pushClause hp⟩
  | emit s =>
    cases hslot
    have hs : w.succeeds (.emit slot) = false := by simpa [keeps] using hx
    rw [(perform_bench h (.emit slot)).2.2] at hs
    cases he : c.emit w.bench.labels with
    | error e => exact ⟨c, by simp only [Bench.act, hB, he], hc⟩
    | ok p => simp [Bench.act, hB, he, Except.isOk, Except.toBool] at hs
  | finish s =>
    cases hslot
    exact ⟨c, by rw [Bench.blocks_finish, hB]; rfl, hc⟩

/-- **Any acts keep the clauses of a chain in order.** -/
theorem run_ordered (h : w.Owned) (hb : w.get? slot = some (.chain c)) (hc : c.Ordered) :
    ∀ {xs : List Act}, keepsAll slot w xs = true →
      (w.run xs).Owned ∧ ∃ c', (w.run xs).get? slot = some (.chain c') ∧ c'.Ordered := by
  intro xs hxs
  induction xs generalizing w c with
  | nil => exact ⟨h, c, hb, hc⟩
  | cons x xs ih =>
    rw [keepsAll, Bool.and_eq_true] at hxs
    obtain ⟨c', hb', hc'⟩ := perform_ordered h hb hc hxs.1
    exact ih (perform_bench h x).1 hb' hc' hxs.2

/-- An act on a chain that fails changes nothing: neither the chain, nor the buffers and labels. -/
theorem perform_of_fails {x : Act} (hb : w.get? slot = some (.chain c)) (hx : x.slot? = some slot)
    (hf : w.succeeds x = false) : w.perform x = w := by
  obtain ⟨b, hfind, hblock⟩ := Option.map_eq_some_iff.1 hb
  cases b with
  | function | loop => cases hblock
  | chain cb =>
    have hact : ∀ w', act x w ≠ .ok () w' := fun w' hw => by simp [succeeds, hw] at hf
    cases x with
    | fresh => cases hx
    | beginLoop | beginChain => exact absurd rfl (hact _)
    | beginFunction s kind params line =>
      cases hp : FunctionBuilder.begin kind params line w.labels w.arena with
      | error e => simp only [perform, act, hp]
      | ok p => exact absurd (by simp only [act, hp]; rfl) (hact _)
    | pushClause s kind guard line =>
      cases hx
      cases hp : cb.pushClause kind guard line w.arena with
      | error e p =>
        rw [ChainBuilder.of_pushClause_error hp] at hp
        simp only [perform, act, hfind, hp, store_self hfind]
      | ok _ p => exact absurd (by simp only [act, hfind, hp]; rfl) (hact _)
    | emit s =>
      cases hx
      cases hp : cb.emit w.labels w.arena with
      | error e p =>
        rw [ChainBuilder.of_emit_error hp] at hp
        simp only [perform, act, hfind, hp, store_self hfind]
      | ok code p => exact absurd (by simp only [act, hfind, hp]; rfl) (hact _)
    | add | addLast | closeClause | finish =>
      cases hx
      exact absurd (by simp only [act, hfind]; rfl) (hact _)

/-- When a clause can be added to the chain in a slot. -/
theorem succeeds_pushClause_iff (h : w.Owned) (hb : w.get? slot = some (.chain c))
    {kind : ClauseKind} {guard : Option (List Asm)} {line : UInt32} :
    w.succeeds (.pushClause slot kind guard line) = true ↔ c.state = .chained ∧
      (kind = .further ∧ guard.isSome = true ∨ kind = .last ∧ guard = none) := by
  have hB : w.bench.blocks slot = some (.chain c) := hb
  rw [(perform_bench h _).2.2]
  cases hp : c.pushClause kind guard line with
  | error e =>
    simp only [Bench.act, hB, hp]
    refine iff_of_false (by simp [Except.isOk, Except.toBool]) fun hk => ?_
    rw [Chain.pushClause_eq_ok_iff.2 ⟨hk.1, hk.2, rfl⟩] at hp
    cases hp
  | ok c' =>
    obtain ⟨hs, hk, -⟩ := Chain.pushClause_eq_ok_iff.1 hp
    simp only [Bench.act, hB, hp]
    exact iff_of_true rfl ⟨hs, hk⟩

/-- When the code of the chain in a slot can be taken, and what is taken. -/
theorem emit_chain (h : w.Owned) (hb : w.get? slot = some (.chain c)) :
    (w.succeeds (.emit slot) = true ↔ c.state = .resolved) ∧
      (c.state = .resolved → (w.perform (.emit slot)).last = c.code w.labels ∧
        (w.perform (.emit slot)).labels = c.supplyAfter w.labels) := by
  have hB : w.bench.blocks slot = some (.chain c) := hb
  obtain ⟨-, hbench, hsucc⟩ := perform_bench h (.emit slot)
  by_cases hs : c.state = .resolved
  · have he : c.emit w.bench.labels = _ := Chain.emit_eq w.labels hs
    simp only [Bench.act, hB, he] at hbench hsucc
    exact ⟨iff_of_true hsucc hs,
      fun _ => ⟨congrArg Bench.last hbench, congrArg Bench.labels hbench⟩⟩
  · have he : c.emit w.bench.labels = .error (.broken (.chainEmitted c.state)) := by
      rw [Chain.emit, if_pos hs]
      rfl
    simp only [Bench.act, hB, he] at hsucc
    exact ⟨iff_of_false (by rw [hsucc]; simp [Except.isOk, Except.toBool]) hs, fun h => absurd h hs⟩

/-- **The states of a chain.**  Begin a chain after any acts, and do anything with it, as long as
    its code is not taken: then its clauses are in order.  A further clause can be added if and only
    if the chain waits for one, with a condition or as the last; its code can be taken if and only
    if no clause follows; and acts that fail change nothing.  If the conditions and bodies mark only
    labels that were handed out before, then each label that is handed out for the code is marked
    once in it and jumped to. -/
theorem chain_states (before xs : List Act) (slot : String) (guard : List Asm) (line : UInt32)
    {w₀ w : Workshop} (hw₀ : w₀ = (run {} before).perform (.beginChain slot guard line))
    (hxs : keepsAll slot w₀ xs = true) (hw : w = w₀.run xs) :
    ∃ c, w.get? slot = some (.chain c) ∧ c.Ordered ∧
      (∀ kind guard line, w.succeeds (.pushClause slot kind guard line) = true ↔
        c.state = .chained ∧
          (kind = .further ∧ guard.isSome = true ∨ kind = .last ∧ guard = none)) ∧
      (w.succeeds (.emit slot) = true ↔ c.state = .resolved) ∧
      (∀ x : Act, x.slot? = some slot → w.succeeds x = false → w.perform x = w) ∧
      ((∀ l ∈ c.clauses.flatMap Clause.marks, l.index < w.labels.next) → c.state = .resolved →
        ∀ l : Label, w.labels.next ≤ l.index → l.index < (w.perform (.emit slot)).labels.next →
          (marks (w.perform (.emit slot)).last).count l = 1 ∧
            l ∈ targets (w.perform (.emit slot)).last) := by
  have hbefore : (run {} before).Owned := owned_empty.run before
  have hstart : w₀.get? slot = some (.chain (.start guard line)) := by
    rw [hw₀, get?_perform hbefore]
    simp only [Bench.act, Bench.blocks_put]
  have ho₀ : w₀.Owned := hw₀ ▸ (perform_bench hbefore _).1
  obtain ⟨ho, c, hb, hc⟩ := run_ordered ho₀ hstart (.start guard line) hxs
  rw [← hw] at ho hb
  obtain ⟨hemit, htaken⟩ := emit_chain ho hb
  refine ⟨c, hb, hc, fun _ _ _ => succeeds_pushClause_iff ho hb, hemit,
    fun _ hx hf => perform_of_fails hb hx hf, fun hold hs l hge hlt => ?_⟩
  rw [(htaken hs).2] at hlt
  rw [(htaken hs).1]
  exact hc.new_label hold hge hlt

/-- A chain with a condition. -/
def guarded : Workshop :=
  (run {} [.fresh]).perform (.beginChain "k" [.op .pop] 1)

/-- Two more clauses, with acts between them that come too early or too late. -/
def twoMore : List Act :=
  [.emit "k", .add "k" [.op .pop], .closeClause "k" true, .emit "k",
    .pushClause "k" .last (some []) 2, .pushClause "k" .further (some [.op .pop]) 2,
    .pushClause "k" .last none 3, .closeClause "k" true, .pushClause "k" .last none 3,
    .add "k" [.op .ret], .closeClause "k" true, .pushClause "k" .further (some []) 4]

theorem chain_states_twoMore : keepsAll "k" guarded twoMore = true ∧
    (guarded.run twoMore).succeeds (.pushClause "k" .further (some []) 4) = false ∧
      ∀ l : Label, 1 ≤ l.index → l.index < 4 →
        (marks ((guarded.run twoMore).perform (.emit "k")).last).count l = 1 ∧
          l ∈ targets ((guarded.run twoMore).perform (.emit "k")).last := by
  have hkeeps : keepsAll "k" guarded twoMore = true := by decide +kernel
  obtain ⟨c, hb, -, hpush, hemit, -, hlabels⟩ :=
    chain_states [.fresh] twoMore "k" [.op .pop] 1 (show guarded = _ from rfl) hkeeps
      (show guarded.run twoMore = _ from rfl)
  have hs : c.state = .resolved := hemit.1 (by decide +kernel)
  refine ⟨hkeeps, ?_, ?_⟩
  · rw [← Bool.not_eq_true, hpush, hs]
    exact fun h => absurd h.1 (by decide)
  · cases hb
    exact hlabels (by decide +kernel) hs

end Workshop

end Naskah
