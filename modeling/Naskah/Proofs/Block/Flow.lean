/-
  Code that blocks leave, and what is in sight where it runs.  A loop, a chain and the entry point
  flow from the sight around them back to the same sight, since all of their labels stand where
  that sight is given; the binding of a function adds its name.
-/
import Naskah.Proofs.Block.Pieces
import Naskah.Proofs.Flow

namespace Naskah

/-- A ledger with some labels more. -/
def Ledger.mark (L : Ledger) (n : Nat) (t : Sight) : Ledger :=
  { L with labels := L.labels ++ List.replicate n t }

/-- A ledger with one chunk more. -/
def Ledger.enter (L : Ledger) (e : Sight) : Ledger :=
  { L with entries := L.entries ++ [e] }

section
variable {L : Ledger} {inModule : Bool} {s t : Sight}

theorem Ledger.le_mark {n : Nat} : L ≤ L.mark n t :=
  ⟨List.prefix_rfl, List.prefix_append _ _⟩

theorem Ledger.le_enter {e : Sight} : L ≤ L.enter e :=
  ⟨List.prefix_append _ _, List.prefix_rfl⟩

theorem Ledger.getElem?_mark {n i : Nat} (h₁ : L.labels.length ≤ i) (h₂ : i < L.labels.length + n) :
    (L.mark n t).labels[i]? = some t := by
  show (L.labels ++ List.replicate n t)[i]? = some t
  rw [List.getElem?_append_right h₁, List.getElem?_replicate_of_lt (by omega)]

theorem Flows.jump {l : Label} (h : L.Meets l s) : Flows L inModule s [.op (.jump l)] s :=
  ⟨trivial, by rintro _ ⟨⟩; exact h, le_refl s⟩

theorem Flows.returnNull : Flows L inModule s FunctionBlock.returnNull s :=
  ⟨trivial, nofun, trivial, nofun, le_refl s⟩

theorem Flows.jumpIfFalse {l : Label} (h : L.Meets l s) :
    Flows L inModule s [.op (.jumpIfFalse l)] s :=
  ⟨trivial, by rintro _ ⟨⟩; exact h, le_refl s⟩

theorem Flows.store {x : String} : Flows L inModule s [.op (.storeName x)] (s.bind inModule x) :=
  .single trivial nofun

/-- Code that stores parameters. -/
theorem Flows.params (params : List Param) (ho : t.own ⊆ s.own ++ params.map Param.name)
    (hs : t.shared ⊆ s.shared) :
    Flows L false s (params.map fun p => .op (.storeName p.name)) t := by
  induction params generalizing s with
  | nil => exact ⟨by simpa using ho, hs⟩
  | cons p params ih =>
    refine ⟨trivial, nofun, ih (fun x hx => ?_) hs⟩
    have hx := ho hx
    simp only [List.map_cons, List.mem_append, List.mem_cons] at hx
    simp only [Sight.after, Sight.bind, List.mem_append, List.mem_cons]
    tauto

theorem LoopBlock.finish_flows {b : LoopBlock} (h₁ : L.labels[b.start.index]? = some t)
    (h₂ : L.labels[b.stop.index]? = some t) (hs : t ≤ s) (hg : Flows L inModule t b.guard t)
    (hb : Flows L inModule t b.body s) : Flows L inModule t b.finish t := by
  have hstart : Flows L inModule t [.mark b.start] t := .mark h₁ (le_refl t)
  have hstop : Flows L inModule t [.op (.jumpIfFalse b.stop)] t := .jumpIfFalse ⟨t, h₂, le_refl t⟩
  have hagain : Flows L inModule s [.op (.jump b.start)] s := .jump ⟨t, h₁, hs⟩
  exact (((hstart.append hg).append hstop).append hb).append (hagain.append (.mark h₂ hs))

theorem FunctionBlock.entryCode_flows {exit : Label} {content : List Asm}
    (hn : "__name__" ∈ t.shared) (hx : L.labels[exit.index]? = some t) (hs : t ≤ s)
    (hc : Flows L inModule t content s) : Flows L inModule t (entryCode exit content) t := by
  have hguard : Flows L inModule t [.op (.loadName "__name__"),
      .op (.loadConst (.string "__main__")), .op (.compare .eq)] t :=
    ⟨.inl (.inr hn), nofun, trivial, nofun, trivial, nofun, le_refl t⟩
  have hexit : Flows L inModule t [.op (.jumpIfFalse exit)] t := .jumpIfFalse ⟨t, hx, le_refl t⟩
  exact ((hguard.append hexit).append hc).append (.mark hx hs)

theorem FunctionBlock.bindCode_flows {k : Nat} {name : String}
    (hk : L.entries[k]? = some (t.entry inModule name)) :
    Flows L inModule t (bindCode k name) (t.bind inModule name) := by
  refine ⟨⟨_, hk, fun x hx => ?_⟩, nofun, trivial, nofun, trivial, nofun, le_refl _⟩
  cases inModule with
  | false => exact .inl hx
  | true => exact (List.mem_cons.1 hx).symm.imp_right fun hx => ⟨rfl, List.mem_singleton.2 hx⟩

namespace Chain

theorem next_le_emitClauses (exit : Label) : ∀ (cls : List Clause) (rest : List Asm)
    (labels : LabelSupply), labels.next ≤ (emitClauses exit cls rest labels).2.next
  | [], _, _ => Nat.le_refl _
  | cl :: cls, rest, labels => by
    refine Nat.le_trans ?_ (next_le_emitClauses exit cls _ _)
    split
    · exact Nat.le_refl _
    · exact Nat.le_succ _

/-- The clauses of a chain, one behind the other.  All labels stand where the sight around the
    chain is given. -/
theorem emitClauses_flows {exit : Label} (hx : L.labels[exit.index]? = some t) :
    ∀ {cls : List Clause} {rest : List Asm} {labels : LabelSupply},
      (∀ i, labels.next ≤ i → i < (emitClauses exit cls rest labels).2.next →
        L.labels[i]? = some t) →
      (∀ cl ∈ cls, (∀ g ∈ cl.guard, Flows L inModule t g t) ∧ Flows L inModule t cl.body t) →
      Flows L inModule t rest t → Flows L inModule t (emitClauses exit cls rest labels).1 t
  | [], _, _, _, _, hr => hr
  | cl :: cls, rest, labels, hl, hcl, hr => by
    rw [List.forall_mem_cons] at hcl
    obtain ⟨⟨hguard, hbody⟩, hcl⟩ := hcl
    rw [emitClauses_cons] at hl ⊢
    cases hg : cl.guard with
    | none =>
      simp only [emitClause, hg] at hl ⊢
      exact emitClauses_flows hx hl hcl hbody
    | some g =>
      simp only [emitClause, hg] at hl ⊢
      have hle := next_le_emitClauses exit cls (g ++ [.op (.jumpIfFalse labels.fresh.1)] ++
        cl.body ++ [.op (.jump exit), .mark labels.fresh.1] ++ rest) labels.fresh.2
      have hnext : L.labels[labels.fresh.1.index]? = some t := hl _ (Nat.le_refl _) hle
      refine emitClauses_flows hx (fun i hi => hl i (Nat.le_of_succ_le hi)) hcl ?_
      have hskip : Flows L inModule t [.op (.jumpIfFalse labels.fresh.1)] t :=
        .jumpIfFalse ⟨t, hnext, le_refl t⟩
      have hleave : Flows L inModule t [.op (.jump exit)] t := .jump ⟨t, hx, le_refl t⟩
      exact ((((hguard g hg).append hskip).append hbody).append
        (hleave.append (.mark hnext (le_refl t)))).append hr

theorem code_flows {c : Chain} {labels : LabelSupply}
    (hl : ∀ i, labels.next ≤ i → i < (c.supplyAfter labels).next → L.labels[i]? = some t)
    (hcl : ∀ cl ∈ c.clauses,
      (∀ g ∈ cl.guard, Flows L inModule t g t) ∧ Flows L inModule t cl.body t) :
    Flows L inModule t (c.code labels) t := by
  have hle := next_le_emitClauses labels.fresh.1 c.clauses [] labels.fresh.2
  have hx : L.labels[labels.fresh.1.index]? = some t := hl _ (Nat.le_refl _) hle
  exact (emitClauses_flows hx (fun i hi => hl i (Nat.le_of_succ_le hi)) hcl (le_refl t)).append
    (.mark hx (le_refl t))

end Chain

end

end Naskah
