/-
  Blocks and their sights.  All code of a block runs where the sight of the block around it is
  given, and ends where the sight of the block itself is (`Block.Framed`).  Code is added where it
  flows on (`framed_added`).
-/
import Naskah.Proofs.Desk.Hosts
import Naskah.Proofs.Flow

namespace Naskah

/-- What a block holds flows from the sight around it, `t`, to the one inside of it, `s`; the block
    may stand in the module.  In a function the code begins with the name of the function alone, and
    stores the parameters. -/
def Block.Framed (L : Ledger) (inModule : Bool) (t s : Sight) : Block → Prop
  | function b =>
    match b.role with
    | .named name =>
      Flows L false (t.entry inModule name)
        (b.params.map (fun p => .op (.storeName p.name)) ++ b.content) s
    | .entry exit => L.labels[exit.index]? = some t ∧ t ≤ s ∧ Flows L inModule t b.content s
    | .anonymous => s = t
  | loop b => L.labels[b.start.index]? = some t ∧ L.labels[b.stop.index]? = some t ∧ t ≤ s ∧
      Flows L inModule t b.guard t ∧ Flows L inModule t b.body s
  | chain c => (c.state = .chained → s = t) ∧ t ≤ s ∧
      (∀ cl ∈ c.clauses, (∀ g ∈ cl.guard, Flows L inModule t g t) ∧ Flows L inModule t cl.body t) ∧
      ∀ cl ∈ c.clauses.head?, Flows L inModule t cl.body s

/-- The same for all blocks, the innermost first, and for the code of the module around them. -/
def Framed (L : Ledger) (code : List Asm) : List Block → List Sight → Prop
  | [], [s] => Flows L true .initial code s
  | b :: bs, s :: t :: ss => b.Framed L (Exposed bs) t s ∧ Framed L code bs (t :: ss)
  | _, _ => False

section
variable {L L' : Ledger} {inModule : Bool} {s s' t : Sight} {b : Block} {bs : List Block}
  {ss : List Sight} {base code : List Asm}

theorem Block.Framed.mono (h : b.Framed L inModule t s) (hL : L ≤ L') :
    b.Framed L' inModule t s := by
  cases b with
  | function b =>
    obtain ⟨role, params, names, line, content⟩ := b
    cases role with
    | named name => exact Flows.mono h hL
    | entry exit => exact ⟨getElem?_of_extends hL.2 h.1, h.2.1, h.2.2.mono hL⟩
    | anonymous => exact h
  | loop b =>
    obtain ⟨h₁, h₂, hs, hg, hb⟩ := h
    exact ⟨getElem?_of_extends hL.2 h₁, getElem?_of_extends hL.2 h₂, hs, hg.mono hL, hb.mono hL⟩
  | chain c =>
    obtain ⟨hc, hs, hcl, hh⟩ := h
    exact ⟨hc, hs, fun cl hm => ⟨fun g hg => ((hcl cl hm).1 g hg).mono hL, (hcl cl hm).2.mono hL⟩,
      fun cl hm => (hh cl hm).mono hL⟩

theorem Block.Framed.congr {bs' : List Block} (h : b.Framed L (Exposed bs) t s)
    (he : Exposed bs' ↔ Exposed bs) : b.Framed L (Exposed bs') t s := by
  rw [decide_eq_decide.2 he]
  exact h

theorem Framed.mono (h : Framed L base bs ss) (hL : L ≤ L') : Framed L' base bs ss := by
  induction bs generalizing ss with
  | nil =>
    match ss, h with
    | [s], h => exact Flows.mono h hL
  | cons b bs ih =>
    match ss, h with
    | s :: t :: ss, h => exact ⟨h.1.mono hL, ih h.2⟩

theorem Framed.of_cons (h : Framed L base (b :: bs) (s :: ss)) : ∃ t rest, ss = t :: rest ∧
    b.Framed L (Exposed bs) t s ∧ Framed L base bs (t :: rest) := by
  match ss, h with
  | t :: rest, h => exact ⟨t, rest, rfl, h⟩

/-- The labels of the loop around are met. -/
theorem Framed.meets {l : Label} (h : Framed L base bs (s :: ss)) (hl : l ∈ exits bs) :
    L.Meets l s := by
  induction bs generalizing s ss with
  | nil => cases hl
  | cons b bs ih =>
    obtain ⟨t, rest, rfl, hb, hbs⟩ := h.of_cons
    cases b with
    | function b => cases hl
    | loop b =>
      obtain ⟨h₁, h₂, hs, -, -⟩ := hb
      rw [exits_loop, List.mem_cons, List.mem_singleton] at hl
      rcases hl with rfl | rfl
      · exact ⟨t, h₁, hs⟩
      · exact ⟨t, h₂, hs⟩
    | chain c => exact (ih hbs hl).trans hb.2.1

/-- Code can be added to an open block. -/
theorem Block.Framed.add (h : b.Framed L (Exposed bs) t s) (ho : b.isOpen = true)
    (hc : Flows L (Exposed (b :: bs)) s code s') (hs : s ≤ s') :
    (b.add code).Framed L (Exposed bs) t s' := by
  cases b with
  | function b =>
    obtain ⟨role, params, names, line, content⟩ := b
    cases role with
    | named name =>
      have he : ¬ Exposed (.function ⟨.named name, params, names, line, content⟩ :: bs) := by
        intro hex
        cases hex _ List.mem_cons_self
      rw [decide_eq_false he] at hc
      have hb := Flows.append h hc
      rw [List.append_assoc] at hb
      exact hb
    | entry exit =>
      rw [← decide_eq_decide.2 (exposed_tail rfl)] at hc
      exact ⟨h.1, h.2.1.trans hs, h.2.2.append hc⟩
    | anonymous => cases ho
  | loop b =>
    rw [← decide_eq_decide.2 (exposed_tail rfl)] at hc
    obtain ⟨h₁, h₂, hts, hg, hb⟩ := h
    exact ⟨h₁, h₂, hts.trans hs, hg, hb.append hc⟩
  | chain c =>
    rw [← decide_eq_decide.2 (exposed_tail rfl)] at hc
    obtain ⟨hch, hts, hcl, hh⟩ := h
    obtain ⟨clauses, state⟩ := c
    have hst : state ≠ .chained := by
      rintro rfl
      cases ho
    cases clauses with
    | nil => exact ⟨fun hch => absurd hch hst, hts.trans hs, hcl, nofun⟩
    | cons cl cls =>
      rw [List.forall_mem_cons] at hcl
      have hbody := (hh cl rfl).append hc
      refine ⟨fun hch => absurd hch hst, hts.trans hs, List.forall_mem_cons.2 ⟨⟨hcl.1.1, ?_⟩, hcl.2⟩,
        ?_⟩
      · exact hbody.to_le (hts.trans hs)
      · rintro _ ⟨⟩
        exact hbody

/-- Names that are declared make no difference. -/
theorem Framed.names {b : FunctionBlock} (names : Names) : ∀ {inner : List Block}
    {ss : List Sight}, Framed L base (inner ++ .function b :: bs) ss →
      Framed L base (inner ++ .function { b with names } :: bs) ss
  | [], _ :: _ :: _, h => h
  | _ :: _, _ :: _ :: _, h => ⟨h.1.congr exposed_names, Framed.names names h.2⟩

end

namespace Desk

variable {L : Ledger} {d : Desk} {s s' : Sight} {ss : List Sight} {code : List Asm}

theorem framed_setNames (h : Framed L d.code d.blocks ss) (names : Names) :
    Framed L (d.setNames names).code (d.setNames names).blocks ss := by
  unfold setNames
  split
  · next bs hr =>
    obtain ⟨inner, b, outer, he, rfl, -⟩ := replaceNames?_eq_some hr
    rw [he] at h
    exact h.names names
  · exact h

/-- Code is added where it flows on. -/
theorem framed_added (h : Framed L d.code d.blocks (s :: ss))
    (ho : ∀ b ∈ d.blocks, b.isOpen = true) (hc : Flows L (Exposed d.blocks) s code s')
    (hs : s ≤ s') : Framed L (d.added code).code (d.added code).blocks (s' :: ss) := by
  unfold added
  split
  · next he =>
    rw [he] at h hc
    match ss, h with
    | [], h =>
      simp only [he]
      exact Flows.append h hc
  · next b bs he =>
    rw [he] at h hc ho
    obtain ⟨t, rest, rfl, hb, hbs⟩ := h.of_cons
    exact ⟨hb.add (ho b List.mem_cons_self) hc hs, hbs⟩

end Desk

end Naskah
