/-
  Blocks side by side.  Whatever is done in a workshop, and in whatever order: a block contributes
  exactly what was given to it since it was begun, each clause of a chain on its own, and all
  labels that are handed out are different (`Workshop.interleaved`).
-/
import Naskah.Proofs.Block.History

namespace Naskah

/-! ## Labels -/

/-- The labels that a block was begun with. -/
def Block.ownLabels : Block → List Label
  | function b =>
    match b.role with
    | .entry exit => [exit]
    | .named _ | .anonymous => []
  | loop b => [b.start, b.stop]
  | chain _ => []

/-- The next labels of a supply. -/
def LabelSupply.upcoming (supply : LabelSupply) (n : Nat) : List Label :=
  (List.range n).map fun i => ⟨supply.next + i⟩

/-- The labels of the code of a chain: its exit, and the ends of the clauses with a guard. -/
def Chain.labels (c : Chain) (supply : LabelSupply) : List Label :=
  supply.upcoming (c.clauses.countP (·.guard.isSome) + 1)

namespace Workshop

/-! ## Runs -/

/-- Whether an act succeeds. -/
def succeeds (w : Workshop) (x : Act) : Bool :=
  match act x w with
  | .ok _ _ => true
  | .error _ _ => false

/-- The workshop after an act, whether it succeeds or not. -/
def perform (w : Workshop) (x : Act) : Workshop :=
  match act x w with
  | .ok _ w | .error _ w => w

/-- The workshop after some acts. -/
def run (w : Workshop) (xs : List Act) : Workshop :=
  xs.foldl perform w

/-- The history of a slot after some acts. -/
def historyFrom (slot : String) : Workshop → Option History → List Act → Option History
  | _, h, [] => h
  | w, h, x :: xs => historyFrom slot (w.perform x) (History.note slot (w.succeeds x) w.last h x) xs

/-- What was given to the block in a slot of a workshop that was empty. -/
def history (slot : String) (xs : List Act) : Option History :=
  historyFrom slot {} none xs

/-- The labels that an act hands out, as the blocks and their code have them. -/
def issues (w : Workshop) : Act → List Label
  | .fresh => [w.labels.fresh.1]
  | .beginFunction slot kind params line =>
    if w.succeeds (.beginFunction slot kind params line) then
      ((w.perform (.beginFunction slot kind params line)).get? slot).elim [] Block.ownLabels
    else []
  | .beginLoop slot guard line =>
    ((w.perform (.beginLoop slot guard line)).get? slot).elim [] Block.ownLabels
  | .emit slot =>
    match w.get? slot with
    | some (.chain c) => if w.succeeds (.emit slot) then c.labels w.labels else []
    | _ => []
  | _ => []

/-- All labels that are handed out. -/
def issued : Workshop → List Act → List Label
  | _, [] => []
  | w, x :: xs => w.issues x ++ issued (w.perform x) xs

/-! ## Contributions -/

/-- The code of clauses, the latest first, with the labels of those that have a guard. -/
def clausesCode (exit : Label) : List Label → List Part → List Asm
  | nexts, ⟨none, added⟩ :: ps => clausesCode exit nexts ps ++ added.flatten
  | next :: nexts, ⟨some guard, added⟩ :: ps =>
    clausesCode exit nexts ps ++ guard ++ [.op (.jumpIfFalse next)] ++ added.flatten ++
      [.op (.jump exit), .mark next]
  | _, _ => []

/-- What a block contributes when it is finished, or a chain when its code is taken: it is made of
    what was given to it. -/
def Contributes (w : Workshop) (slot : String) : History → Block → Prop
  | .function kind params line added, .function b =>
    b.params = params ∧ b.line = line ∧
    match kind, b.role with
    | .entry, .entry exit => ∃ w', act (.finish slot) w = .ok () w' ∧
        w'.last = b.header ++ [.op (.jumpIfFalse exit)] ++ added.flatten ++ [.mark exit]
    | .anonymous, .anonymous => ∃ w', act (.finish slot) w = .ok () w' ∧
        w'.last = b.header ++ added.flatten
    | .named name, .named name' => name = name' ∧
      match Asm.assemble (b.header ++ added.flatten ++ FunctionBlock.returnNull) with
      | .ok code => ∃ w', act (.finish slot) w = .ok () w' ∧
          w'.chunks = w.chunks ++ [⟨name, params, code, line⟩] ∧
          w'.last = FunctionBlock.bindCode w.chunks.length name
      | .error e => ∃ w', act (.finish slot) w = .error (.broken (.assembly e)) w' ∧
          w'.chunks = w.chunks
    | _, _ => False
  | .loop guard added, .loop b => ∃ w', act (.finish slot) w = .ok () w' ∧
      w'.last = [.mark b.start] ++ guard ++ [.op (.jumpIfFalse b.stop)] ++ added.flatten ++
        [.op (.jump b.start), .mark b.stop]
  | .chain parts, .chain c =>
    if c.state = .resolved then
      ∃ w' exit nexts, act (.emit slot) w = .ok () w' ∧ w.issues (.emit slot) = exit :: nexts ∧
        w'.last = clausesCode exit nexts parts ++ [.mark exit]
    else ∃ e, act (.emit slot) w = .error e w
  | _, _ => False

end Workshop

/-! ## Labels that are handed out -/

/-- Different labels with numbers from `n` to `m`. -/
structure IssuedBetween (n m : Nat) (ls : List Label) : Prop where
  le : n ≤ m
  nodup : ls.Nodup
  bounds : ∀ l ∈ ls, n ≤ l.index ∧ l.index < m

theorem IssuedBetween.nil (n : Nat) : IssuedBetween n n [] :=
  ⟨Nat.le_refl n, .nil, nofun⟩

theorem LabelSupply.upcoming_succ (supply : LabelSupply) (n : Nat) :
    supply.upcoming (n + 1) = supply.fresh.1 :: supply.fresh.2.upcoming n := by
  simp [upcoming, List.range_succ_eq_map, fresh, Nat.add_assoc, Nat.add_comm 1]

theorem LabelSupply.upcoming_between (supply : LabelSupply) (n : Nat) :
    IssuedBetween supply.next (supply.next + n) (supply.upcoming n) := by
  refine ⟨Nat.le_add_right _ _, ?_, ?_⟩
  · rw [upcoming, List.Nodup, List.pairwise_map]
    exact List.nodup_range.imp fun hne he => hne (Nat.add_left_cancel (congrArg Label.index he))
  · simp only [upcoming, List.forall_mem_map, List.mem_range]
    intro i hi
    constructor <;> omega

theorem FunctionBlock.ownLabels_between {kind : FunctionKind} {params : List Param} {line : UInt32}
    {labels labels' : LabelSupply} {f : FunctionBlock}
    (h : begin kind params line labels = .ok (f, labels')) :
    IssuedBetween labels.next labels'.next (Block.function f).ownLabels := by
  obtain ⟨-, -, -, hk⟩ := of_begin h
  cases kind with
  | entry =>
    obtain ⟨hr, rfl⟩ := hk
    simp only [Block.ownLabels, hr]
    exact labels.upcoming_between 1
  | named | anonymous =>
    obtain ⟨hr, rfl⟩ := hk
    simp only [Block.ownLabels, hr]
    exact .nil _

theorem LoopBlock.ownLabels_between (guard : List Asm) (line : UInt32) (labels : LabelSupply) :
    IssuedBetween labels.next (begin guard line labels).2.next
      (Block.loop (begin guard line labels).1).ownLabels :=
  labels.upcoming_between 2

theorem Chain.labels_between (c : Chain) (supply : LabelSupply) :
    IssuedBetween supply.next (c.supplyAfter supply).next (c.labels supply) := by
  have hnext : (c.supplyAfter supply).next =
      supply.next + (c.clauses.countP (·.guard.isSome) + 1) := by
    rw [supplyAfter, next_emitClauses, fresh_next, Nat.add_assoc, Nat.add_comm 1]
  rw [hnext]
  exact supply.upcoming_between _

namespace Workshop

variable {w : Workshop} {slot : String}

theorem perform_bench (h : w.Owned) (x : Act) :
    (w.perform x).Owned ∧ (w.perform x).bench = (w.bench.act x).2 ∧
      w.succeeds x = (w.bench.act x).1.isOk := by
  have hr := act_refines h x
  unfold perform succeeds
  cases hx : act x w with
  | ok u w' =>
    rw [hx] at hr
    exact ⟨hr.1, by rw [hr.2], by rw [hr.2]; rfl⟩
  | error e w' =>
    rw [hx] at hr
    exact ⟨hr.1, by rw [hr.2], by rw [hr.2]; rfl⟩

theorem issues_nil (h : w.Owned) {x : Act} (hl : (w.bench.act x).2.labels = w.labels)
    (hx : w.issues x = []) :
    IssuedBetween w.labels.next (w.perform x).labels.next (w.issues x) := by
  have hw : (w.perform x).labels = (w.bench.act x).2.labels :=
    congrArg Bench.labels (perform_bench h x).2.1
  rw [hw, hl, hx]
  exact .nil _

theorem issues_beginFunction (h : w.Owned) (kind : FunctionKind) (params : List Param)
    (line : UInt32) :
    IssuedBetween w.labels.next (w.perform (.beginFunction slot kind params line)).labels.next
      (w.issues (.beginFunction slot kind params line)) := by
  obtain ⟨-, hb, hs⟩ := perform_bench h (.beginFunction slot kind params line)
  cases hf : FunctionBlock.begin kind params line w.bench.labels with
  | error e =>
    simp only [Bench.act, hf] at hs
    refine issues_nil h (by simp only [Bench.act, hf]; rfl) ?_
    rw [issues, hs]
    rfl
  | ok p =>
    simp only [Bench.act, hf] at hs hb
    have hl : (w.perform (.beginFunction slot kind params line)).labels = p.2 :=
      congrArg Bench.labels hb
    have hg : (w.perform (.beginFunction slot kind params line)).get? slot =
        some (.function p.1) := (congrArg (Bench.blocks · slot) hb).trans (Bench.blocks_put ..)
    rw [hl, issues, hs, hg]
    exact FunctionBlock.ownLabels_between hf

theorem issues_beginLoop (h : w.Owned) (guard : List Asm) (line : UInt32) :
    IssuedBetween w.labels.next (w.perform (.beginLoop slot guard line)).labels.next
      (w.issues (.beginLoop slot guard line)) := by
  obtain ⟨-, hb, -⟩ := perform_bench h (.beginLoop slot guard line)
  have hl : (w.perform (.beginLoop slot guard line)).labels =
      (LoopBlock.begin guard line w.labels).2 := congrArg Bench.labels hb
  have hg : (w.perform (.beginLoop slot guard line)).get? slot =
      some (.loop (LoopBlock.begin guard line w.labels).1) :=
    (congrArg (Bench.blocks · slot) hb).trans (Bench.blocks_put ..)
  rw [hl, issues, hg]
  exact LoopBlock.ownLabels_between guard line w.labels

theorem issues_emit (h : w.Owned) (slot : String) :
    IssuedBetween w.labels.next (w.perform (.emit slot)).labels.next (w.issues (.emit slot)) := by
  obtain ⟨-, hb, hs⟩ := perform_bench h (.emit slot)
  cases hget : w.bench.blocks slot with
  | none =>
    refine issues_nil h (by simp only [Bench.act, hget]; rfl) ?_
    rw [issues, show w.get? slot = none from hget]
  | some b =>
    have hget' : w.get? slot = some b := hget
    cases b with
    | function | loop =>
      refine issues_nil h (by simp only [Bench.act, hget]; rfl) ?_
      rw [issues, hget']
    | chain c =>
      cases he : c.emit w.bench.labels with
      | error e =>
        simp only [Bench.act, hget, he] at hs
        refine issues_nil h (by simp only [Bench.act, hget, he]; rfl) ?_
        simp only [issues, hget', hs]
        rfl
      | ok p =>
        obtain ⟨code, c', labels⟩ := p
        obtain ⟨-, -, -, rfl⟩ := Chain.of_emit he
        simp only [Bench.act, hget, he] at hs hb
        have hl : (w.perform (.emit slot)).labels = c.supplyAfter w.labels :=
          congrArg Bench.labels hb
        simp only [hl, issues, hget', hs]
        exact c.labels_between w.labels

/-- An act hands out labels that come after those handed out before. -/
theorem issues_between (h : w.Owned) (x : Act) :
    IssuedBetween w.labels.next (w.perform x).labels.next (w.issues x) := by
  cases x with
  | fresh => exact w.labels.upcoming_between 1
  | beginFunction slot kind params line => exact issues_beginFunction h kind params line
  | beginLoop slot guard line => exact issues_beginLoop h guard line
  | emit slot => exact issues_emit h slot
  | beginChain slot => exact issues_nil h rfl rfl
  | add slot | addLast slot | closeClause slot | pushClause slot | finish slot =>
    exact issues_nil h (by grind [Bench.act, Bench.put, bench]) rfl

/-- All labels that are handed out are different. -/
theorem issued_between (h : w.Owned) (xs : List Act) :
    (issued w xs).Nodup ∧ ∀ l ∈ issued w xs, w.labels.next ≤ l.index := by
  induction xs generalizing w with
  | nil => exact ⟨.nil, nofun⟩
  | cons x xs ih =>
    have hb := issues_between h x
    obtain ⟨hn, hge⟩ := ih (perform_bench h x).1
    refine ⟨List.nodup_append.2 ⟨hb.nodup, hn, fun l hl l' hl' he => ?_⟩,
      List.forall_mem_append.2 ⟨fun l hl => (hb.bounds l hl).1, fun l hl => ?_⟩⟩
    · have hlt := (hb.bounds l hl).2
      have hge := hge l' hl'
      rw [he] at hlt
      omega
    · exact Nat.le_trans hb.le (hge l hl)

/-! ## Histories of slots -/

/-- The history of a slot tells what stands in it after any acts. -/
theorem historyFrom_tells (slot : String) {h : Option History} (hw : w.Owned)
    (ht : Option.Rel History.Tells h (w.get? slot)) (xs : List Act) :
    (w.run xs).Owned ∧
      Option.Rel History.Tells (historyFrom slot w h xs) ((w.run xs).get? slot) := by
  induction xs generalizing w h with
  | nil => exact ⟨hw, ht⟩
  | cons x xs ih =>
    obtain ⟨ho, hb, hs⟩ := perform_bench hw x
    refine ih ho ?_
    have hstep := Bench.note_tells (B := w.bench) ht x
    rw [← hb, ← hs] at hstep
    exact hstep

/-- The code of clauses with guards, in front of other code. -/
theorem emitClauses_guarded (exit : Label) : ∀ {cls : List Clause} {ps : List Part}
    (rest : List Asm) (supply : LabelSupply), (∀ cl ∈ cls, cl.guard.isSome = true) →
    cls.map (fun cl => (cl.guard, cl.body)) = ps.map (fun p => (p.guard, p.added.flatten)) →
      (Chain.emitClauses exit cls rest supply).1 =
        clausesCode exit (supply.upcoming (cls.countP (·.guard.isSome))) ps ++ rest
  | [], [], rest, supply, _, _ => by simp [Chain.emitClauses, clausesCode]
  | cl :: cls, p :: ps, rest, supply, hg, hm => by
    rw [List.forall_mem_cons] at hg
    obtain ⟨g, hcl⟩ := Option.isSome_iff_exists.1 hg.1
    simp only [List.map_cons, List.cons.injEq, Prod.mk.injEq, hcl] at hm
    obtain ⟨⟨hpg, hbody⟩, hm⟩ := hm
    obtain ⟨guard, added⟩ := p
    cases hpg
    rw [List.countP_cons_of_pos (by simp [hcl]), LabelSupply.upcoming_succ, Chain.emitClauses_cons,
      Chain.emitClause, hcl]
    simp only [clausesCode]
    rw [emitClauses_guarded exit _ _ hg.2 hm, hbody]
    simp

/-- The code of a chain is that of its clauses. -/
theorem code_linked {c : Chain} {ps : List Part} (h : c.Linked)
    (hm : c.clauses.map (fun cl => (cl.guard, cl.body)) =
      ps.map fun p => (p.guard, p.added.flatten)) (supply : LabelSupply) :
    c.code supply = clausesCode supply.fresh.1
      (supply.fresh.2.upcoming (c.clauses.countP (·.guard.isSome))) ps ++
        [.mark supply.fresh.1] := by
  rw [Chain.code]
  congr 1
  have htail := h.tail
  cases hc : c.clauses with
  | nil => exact (emitClauses_guarded _ [] _ (by simp) (hc ▸ hm)).trans (List.append_nil _)
  | cons cl cls =>
    rw [hc] at htail hm
    cases hg : cl.guard with
    | some g =>
      have hall : ∀ cl' ∈ cl :: cls, cl'.guard.isSome = true :=
        List.forall_mem_cons.2 ⟨by rw [hg]; rfl, htail⟩
      exact (emitClauses_guarded _ [] _ hall hm).trans (List.append_nil _)
    | none =>
      -- the last clause is its body alone
      cases ps with
      | nil => cases hm
      | cons p ps =>
        obtain ⟨guard, added⟩ := p
        simp only [List.map_cons, List.cons.injEq, Prod.mk.injEq, hg] at hm
        obtain ⟨⟨rfl, hbody⟩, hm⟩ := hm
        rw [List.countP_cons_of_neg (by simp [hg]), Chain.emitClauses_cons, Chain.emitClause, hg]
        simp only [clausesCode, ← hbody]
        exact emitClauses_guarded _ cl.body _ htail hm

theorem of_refines_ok {r : EStateM.Result Diagnostic Workshop Unit} {B : Bench}
    (h : Refines r (.ok (), B)) : ∃ w', r = .ok () w' ∧ w'.bench = B := by
  cases r with
  | ok u w' => exact ⟨w', rfl, (Prod.mk.inj h.2).2.symm⟩
  | error e w' => cases h.2

theorem of_refines_error {r : EStateM.Result Diagnostic Workshop Unit} {e : Diagnostic} {B : Bench}
    (h : Refines r (.error e, B)) : ∃ w', r = .error e w' ∧ w'.bench = B := by
  cases r with
  | ok u w' => cases h.2
  | error e' w' =>
    cases (Prod.mk.inj h.2).1
    exact ⟨w', rfl, (Prod.mk.inj h.2).2.symm⟩

/-- What a function contributes. -/
theorem finish_function (h : w.Owned) {f : FunctionBlock} (hb : w.get? slot = some (.function f)) :
    match f.finish w.chunks with
    | .ok (code, chunks) => ∃ w', act (.finish slot) w = .ok () w' ∧ w'.last = code ∧
        w'.chunks = chunks
    | .error e => ∃ w', act (.finish slot) w = .error e w' ∧ w'.chunks = w.chunks := by
  have hr := act_refines h (.finish slot)
  have hget : w.bench.blocks slot = some (.function f) := hb
  cases hf : f.finish w.chunks with
  | error e =>
    simp only [Bench.act, hget, show f.finish w.bench.chunks = _ from hf] at hr
    obtain ⟨w', hw', hb'⟩ := of_refines_error hr
    exact ⟨w', hw', congrArg Bench.chunks hb'⟩
  | ok p =>
    simp only [Bench.act, hget, show f.finish w.bench.chunks = _ from hf] at hr
    obtain ⟨w', hw', hb'⟩ := of_refines_ok hr
    exact ⟨w', hw', congrArg Bench.last hb', congrArg Bench.chunks hb'⟩

/-- The code of a chain that is not complete cannot be taken, and nothing changes. -/
theorem emit_unresolved (h : w.Owned) {c : Chain} (hb : w.get? slot = some (.chain c))
    (hs : c.state ≠ .resolved) : ∃ e, act (.emit slot) w = .error e w := by
  obtain ⟨b, hf, hblock⟩ := Option.map_eq_some_iff.1 hb
  match b, hblock with
  | .chain cb, hblock =>
    cases hblock
    have hc := ChainBuilder.emit_eq (h.placed slot _ hf) w.labels
    rw [Chain.emit, if_pos hs] at hc
    refine ⟨.broken (.chainEmitted (cb.block w.arena).state), ?_⟩
    simp only [act, hf, show cb.emit w.labels w.arena = _ from hc, store_self hf]

/-- A block contributes what its history tells. -/
theorem contributes (hw : w.Owned) {h : History} {b : Block} (hb : w.get? slot = some b)
    (ht : h.Tells b) : w.Contributes slot h b := by
  match h, b, ht with
  | .function kind params line added, .function f, ⟨hk, hp, hl, hc⟩ =>
    have hf := finish_function hw hb
    refine ⟨hp, hl, ?_⟩
    cases hr : f.role with
    | entry exit =>
      simp only [FunctionBlock.finish, FunctionBlock.close, hr, hc] at hf
      obtain ⟨w', hw', hlast, -⟩ := hf
      simp only [← hk, hr, FunctionRole.kind]
      exact ⟨w', hw', hlast⟩
    | anonymous =>
      simp only [FunctionBlock.finish, FunctionBlock.close, hr, hc] at hf
      obtain ⟨w', hw', hlast, -⟩ := hf
      simp only [← hk, hr, FunctionRole.kind]
      exact ⟨w', hw', hlast⟩
    | named name =>
      simp only [FunctionBlock.finish, FunctionBlock.close, hr, hc, hp, hl] at hf
      simp only [← hk, hr, FunctionRole.kind]
      refine ⟨trivial, ?_⟩
      cases ha : Asm.assemble (f.header ++ added.flatten ++ FunctionBlock.returnNull) with
      | error e =>
        rw [ha] at hf
        exact hf
      | ok code =>
        rw [ha] at hf
        obtain ⟨w', hw', hlast, hchunks⟩ := hf
        exact ⟨w', hw', hchunks, hlast⟩
  | .loop guard added, .loop l, ⟨hg, hbody⟩ =>
    have hr := act_refines hw (.finish slot)
    simp only [Bench.act, show w.bench.blocks slot = _ from hb] at hr
    obtain ⟨w', hw', hb'⟩ := of_refines_ok hr
    refine ⟨w', hw', ?_⟩
    rw [← hg, ← hbody]
    exact congrArg Bench.last hb'
  | .chain ps, .chain c, ⟨hl, hm⟩ =>
    have hr := act_refines hw (.emit slot)
    have hget : w.bench.blocks slot = some (.chain c) := hb
    show if c.state = .resolved then _ else _
    split
    · next hs =>
      have he : c.emit w.bench.labels = _ := Chain.emit_eq w.labels hs
      simp only [Bench.act, hget, he] at hr
      obtain ⟨w', hw', hb'⟩ := of_refines_ok hr
      have hissues : w.issues (.emit slot) = c.labels w.labels := by
        simp only [issues, hb, succeeds, hw', if_true]
      rw [Chain.labels, LabelSupply.upcoming_succ] at hissues
      refine ⟨w', _, _, hw', hissues, ?_⟩
      rw [← code_linked hl hm]
      exact congrArg Bench.last hb'
    · next hs => exact emit_unresolved hw hb hs

/-- **Blocks side by side.**  After any acts on an empty workshop, failing ones included, what
    stands in a slot contributes exactly what was given to it since it was begun, whatever was done
    in other slots; and all labels that were handed out are different, in 32 bits up to `2 ^ 32` of
    them. -/
theorem interleaved (xs : List Act) :
    (∀ slot, Option.Rel ((run {} xs).Contributes slot) (history slot xs) ((run {} xs).get? slot)) ∧
      (issued {} xs).Nodup := by
  refine ⟨fun slot => ?_, (issued_between owned_empty xs).1⟩
  obtain ⟨ho, ht⟩ := historyFrom_tells slot owned_empty .none xs
  rw [history]
  generalize hb : (run {} xs).get? slot = b at ht ⊢
  generalize historyFrom slot {} none xs = h at ht ⊢
  cases ht with
  | none => exact .none
  | some ht => exact .some (contributes ho hb ht)

/-- Two loops at a time, the second within the first. -/
example : (run {} [.beginLoop "a" [] 1, .add "a" [.op .pop], .beginLoop "b" [] 2,
      .add "a" [.op .ret], .add "b" [.op .pop], .finish "b", .addLast "a", .finish "a"]).last =
    [.mark ⟨0⟩, .op (.jumpIfFalse ⟨1⟩), .op .pop, .op .ret,
      .mark ⟨2⟩, .op (.jumpIfFalse ⟨3⟩), .op .pop, .op (.jump ⟨2⟩), .mark ⟨3⟩,
      .op (.jump ⟨0⟩), .mark ⟨1⟩] := by
  decide +kernel

end Workshop

end Naskah
