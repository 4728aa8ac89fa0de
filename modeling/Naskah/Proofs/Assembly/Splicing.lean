/-
  Assembly of code that is put together.  Code can be put behind or into other code if they have no
  labels in common: it stays as it is but for its targets, which move on with it, and of the code
  around it only those jumps change whose labels are marked behind it (`assemble_splice`).  Labels
  have no meaning of their own: if they are renamed, the code stays the same (`assemble_rename`).
-/
import Naskah.Proofs.Assembly
import Mathlib.Data.List.Nodup

namespace Naskah

namespace Instr

theorem relabel_relabel {τ σ υ : Type} (f : τ → σ) (g : σ → υ) (i : Instr τ) :
    (i.relabel f).relabel g = i.relabel fun t => g (f t) := by
  cases i <;> rfl

end Instr

namespace Asm

/-! ## Places in code that is put together -/

section
variable {a b : List Asm} {l : Label}

theorem place_append_left (h : l ∈ marks a) : place (a ++ b) l = place a l := by
  obtain ⟨a₁, a₂, rfl, hl⟩ := exists_mark h
  rw [place_eq hl, List.append_assoc, List.cons_append, place_eq hl]

theorem place_append_right (ha : l ∉ marks a) (hb : l ∈ marks b) :
    place (a ++ b) l = (instrs a).length + place b l := by
  obtain ⟨b₁, b₂, rfl, hl⟩ := exists_mark hb
  have hm : l ∉ marks (a ++ b₁) := by
    rw [marks_append, List.mem_append]
    exact not_or.2 ⟨ha, hl⟩
  rw [place_eq hl, ← List.append_assoc, place_eq hm, instrs_append, List.length_append]

end

/-! ## Splicing -/

/-- The labels that code mentions. -/
def labels (c : List Asm) : List Label :=
  marks c ++ targets c

/-- Assembled code in which the jumps to some labels go `n` instructions further. -/
def moveOn (ls : List Label) (n : Nat) (is : List (Instr Label)) (x : List Instruction) :
    List Instruction :=
  List.zipWith (fun s i => if s.target?.any (· ∈ ls) then i.relabel (· + n) else i) is x

theorem moveOn_map (ls : List Label) (n : Nat) (is : List (Instr Label)) (ρ : Label → Nat) :
    moveOn ls n is (is.map (Instr.relabel ρ)) =
      is.map (Instr.relabel fun l => if l ∈ ls then ρ l + n else ρ l) := by
  rw [moveOn, List.zipWith_map_right, List.zipWith_self]
  refine List.map_congr_left fun i _ => ?_
  split
  · next h =>
    rw [Instr.relabel_relabel]
    refine Instr.relabel_congr fun l hl => ?_
    rw [if_pos (by simpa [Option.mem_def.1 hl] using h)]
  · next h =>
    refine Instr.relabel_congr fun l hl => ?_
    rw [if_neg (by simpa [Option.mem_def.1 hl] using h)]

section
variable {a₁ a₂ b : List Asm} {x y : List Instruction} {l : Label}

/-- The labels of the inner code move on with it. -/
theorem place_inner (hd : ∀ l ∈ marks (a₁ ++ a₂), l ∉ marks b) (hl : l ∈ marks b) :
    place (a₁ ++ b ++ a₂) l = place b l + (instrs a₁).length := by
  have h₁ : l ∉ marks a₁ := fun h => hd l (by simp [h]) hl
  rw [place_append_left (by simp [hl]), place_append_right h₁ hl, Nat.add_comm]

/-- The labels of the outer code move on if they are marked behind the inner code. -/
theorem place_outer (hn : (marks (a₁ ++ a₂)).Nodup) (hl : l ∈ marks (a₁ ++ a₂))
    (hb : l ∉ marks b) : place (a₁ ++ b ++ a₂) l =
      if l ∈ marks a₂ then place (a₁ ++ a₂) l + (instrs b).length else place (a₁ ++ a₂) l := by
  split
  · next h₂ =>
    rw [marks_append, List.nodup_append] at hn
    have h₁ : l ∉ marks a₁ := fun h₁ => hn.2.2 l h₁ l h₂ rfl
    rw [place_append_right (by simp [h₁, hb]) h₂, place_append_right h₁ h₂, instrs_append,
      List.length_append]
    omega
  · next h₂ =>
    have h₁ : l ∈ marks a₁ := by simpa [h₂] using hl
    rw [List.append_assoc, place_append_left h₁, place_append_left h₁]

/-- **Code can be put into other code** with which it has no labels in common. -/
theorem assemble_splice (hd : (labels (a₁ ++ a₂)).Disjoint (labels b))
    (hx : assemble (a₁ ++ a₂) = .ok x) (hy : assemble b = .ok y) :
    assemble (a₁ ++ b ++ a₂) =
      .ok ((moveOn (marks a₂) y.length (instrs (a₁ ++ a₂)) x).take (instrs a₁).length ++
        y.map (Instr.relabel (· + (instrs a₁).length)) ++
          (moveOn (marks a₂) y.length (instrs (a₁ ++ a₂)) x).drop (instrs a₁).length) := by
  obtain ⟨hna, hua, hta, rfl⟩ := assemble_eq_ok_iff.1 hx
  obtain ⟨hnb, hub, htb, rfl⟩ := assemble_eq_ok_iff.1 hy
  have hm : ∀ l ∈ marks (a₁ ++ a₂), l ∉ marks b := fun l hl hb =>
    hd (List.mem_append_left _ hl) (List.mem_append_left _ hb)
  have hmarks : ∀ l, l ∈ marks (a₁ ++ b ++ a₂) ↔ l ∈ marks (a₁ ++ a₂) ∨ l ∈ marks b := by
    intro l
    simp only [marks_append, List.mem_append]
    tauto
  have htargets : ∀ l, l ∈ targets (a₁ ++ b ++ a₂) ↔ l ∈ targets (a₁ ++ a₂) ∨ l ∈ targets b := by
    intro l
    simp only [targets_append, List.mem_append]
    tauto
  have houter : ∀ is : List (Instr Label), (∀ i ∈ is, i ∈ instrs (a₁ ++ a₂)) →
      is.map (Instr.relabel fun l => if l ∈ marks a₂ then place (a₁ ++ a₂) l + (instrs b).length
        else place (a₁ ++ a₂) l) = is.map (Instr.relabel (place (a₁ ++ b ++ a₂))) := by
    refine fun is his => List.map_congr_left fun i hi => Instr.relabel_congr fun l hl => ?_
    have hl := hta l (mem_targets.2 ⟨i, his i hi, hl⟩)
    rw [place_outer hna hl (hm l hl)]
  have hinner : (instrs b).map (Instr.relabel fun l => place b l + (instrs a₁).length) =
      (instrs b).map (Instr.relabel (place (a₁ ++ b ++ a₂))) := by
    refine List.map_congr_left fun i hi => Instr.relabel_congr fun l hl => ?_
    rw [place_inner hm (htb l (mem_targets.2 ⟨i, hi, hl⟩))]
  refine assemble_eq_ok_iff.2 ⟨?_, fun l hl => ?_, fun l hl => ?_, ?_⟩
  · have hp : (marks (a₁ ++ b ++ a₂)).Perm (marks (a₁ ++ a₂) ++ marks b) := by
      simp only [marks_append, List.append_assoc]
      exact List.perm_append_comm.append_left _
    rw [hp.nodup_iff, List.nodup_append]
    exact ⟨hna, hnb, fun l hl l' hl' he => hm l hl (he ▸ hl')⟩
  · exact (htargets l).2 (((hmarks l).1 hl).imp (hua l) (hub l))
  · exact (hmarks l).2 (((htargets l).1 hl).imp (hta l) (htb l))
  · rw [moveOn_map, List.length_map, instrs_append a₁ a₂, List.map_append,
      houter _ (by simp +contextual), houter _ (by simp +contextual),
      List.take_left' (List.length_map _), List.drop_left' (List.length_map _), List.map_map]
    have hcomp : (Instr.relabel (· + (instrs a₁).length)) ∘ Instr.relabel (place b) =
        Instr.relabel fun l => place b l + (instrs a₁).length :=
      funext fun i => Instr.relabel_relabel _ _ i
    rw [hcomp, hinner, instrs_append, instrs_append, List.map_append, List.map_append]

/-- **Code can be put behind other code** with which it has no labels in common. -/
theorem assemble_behind {a : List Asm} (hd : (labels a).Disjoint (labels b))
    (hx : assemble a = .ok x) (hy : assemble b = .ok y) :
    assemble (a ++ b) = .ok (x ++ y.map (Instr.relabel (· + x.length))) := by
  rw [← List.append_nil a] at hd hx
  have h := assemble_splice hd hx hy
  obtain ⟨-, -, -, rfl⟩ := assemble_eq_ok_iff.1 hx
  simpa [moveOn_map, List.take_of_length_le, List.drop_of_length_le] using h

end

/-! ## Renaming -/

/-- The entry with another label. -/
def rename (f : Label → Label) : Asm → Asm
  | op i => op (i.relabel f)
  | mark l => mark (f l)

section
variable {f : Label → Label} {c : List Asm}

theorem instrs_rename (f : Label → Label) (c : List Asm) :
    instrs (c.map (rename f)) = (instrs c).map (Instr.relabel f) := by
  induction c with
  | nil => rfl
  | cons e c ih => cases e <;> simp [rename, ih]

theorem marks_rename (f : Label → Label) (c : List Asm) :
    marks (c.map (rename f)) = (marks c).map f := by
  induction c with
  | nil => rfl
  | cons e c ih => cases e <;> simp [rename, ih]

theorem targets_rename (f : Label → Label) (c : List Asm) :
    targets (c.map (rename f)) = (targets c).map f := by
  simp [targets, instrs_rename, List.filterMap_map, List.map_filterMap,
    Instr.target?_relabel]

theorem mem_map_iff (hf : Function.Injective f) {ls : List Label} {l : Label} :
    f l ∈ ls.map f ↔ l ∈ ls :=
  List.mem_map_of_injective hf

theorem marks_used_rename (hf : Function.Injective f) (c : List Asm) :
    (∀ l ∈ marks (c.map (rename f)), l ∈ targets (c.map (rename f))) ↔
      ∀ l ∈ marks c, l ∈ targets c := by
  simp only [marks_rename, targets_rename, List.forall_mem_map, mem_map_iff hf]

theorem targets_marked_rename (hf : Function.Injective f) (c : List Asm) :
    (∀ l ∈ targets (c.map (rename f)), l ∈ marks (c.map (rename f))) ↔
      ∀ l ∈ targets c, l ∈ marks c := by
  simp only [marks_rename, targets_rename, List.forall_mem_map, mem_map_iff hf]

/-- What is returned after the labels of `c` were renamed, against what was returned before. -/
inductive Renamed (f : Label → Label) (c : List Asm) :
    Except AssemblyError (List Instruction) → Except AssemblyError (List Instruction) → Prop
  /-- Code stays the same. -/
  | code (x : List Instruction) : Renamed f c (.ok x) (.ok x)
  | duplicate (l : Label) :
      Renamed f c (.error (.duplicateLabel l)) (.error (.duplicateLabel (f l)))
  | unknown (l : Label) : Renamed f c (.error (.unknownLabel l)) (.error (.unknownLabel (f l)))
  /-- Of the labels that are not jumped to, the one is named whose new number is the least. -/
  | unused {l l' : Label} : l' ∈ marks c → l' ∉ targets c →
      (∀ l'' ∈ marks c, l'' ∉ targets c → (f l').index ≤ (f l'').index) →
      Renamed f c (.error (.unusedLabel l)) (.error (.unusedLabel (f l')))

theorem Links.renamed (hf : Function.Injective f) {r r' : Except AssemblyError (List Instruction)}
    (h : Links c r) (h' : Links (c.map (rename f)) r') : Renamed f c r r' := by
  cases h with
  | unknown hfind =>
    cases h' with
    | unknown hfind' =>
      rw [targets_rename, marks_rename, List.find?_map] at hfind'
      simp only [Function.comp_def, mem_map_iff hf, hfind, Option.map_some] at hfind'
      cases hfind'
      exact .unknown _
    | unused hall' | resolved hall' =>
      exact absurd ((targets_marked_rename hf c).1 hall') (not_marked_of_find? hfind)
  | unused hall hm ht =>
    cases h' with
    | unknown hfind' =>
      exact absurd ((targets_marked_rename hf c).2 hall) (not_marked_of_find? hfind')
    | unused _ hm' ht' hle' =>
      rw [marks_rename] at hm'
      obtain ⟨l', hl', rfl⟩ := List.mem_map.1 hm'
      simp only [marks_rename, targets_rename, List.forall_mem_map, mem_map_iff hf] at ht' hle'
      exact .unused hl' ht' hle'
    | resolved _ hused' => exact absurd ((marks_used_rename hf c).1 hused' _ hm) ht
  | @resolved ρ hall hused hρ =>
    cases h' with
    | unknown hfind' =>
      exact absurd ((targets_marked_rename hf c).2 hall) (not_marked_of_find? hfind')
    | unused _ hm' ht' => exact absurd ((marks_used_rename hf c).2 hused _ hm') ht'
    | @resolved ρ' _ _ hρ' =>
      have hcode : (instrs (c.map (rename f))).map (Instr.relabel ρ') =
          (instrs c).map (Instr.relabel ρ) := by
        rw [instrs_rename, List.map_map]
        refine List.map_congr_left fun i hi => ?_
        rw [Function.comp_apply, Instr.relabel_relabel]
        refine Instr.relabel_congr fun l hl => ?_
        obtain ⟨before, after, hc, -⟩ := exists_mark (hall l (mem_targets.2 ⟨i, hi, hl⟩))
        rw [hρ before l after hc, hρ' (before.map (rename f)) (f l) (after.map (rename f))
          (by rw [hc, List.map_append, List.map_cons, rename]), instrs_rename, List.length_map]
      rw [hcode]
      exact .code _

/-- **Labels can be renamed.**  Code stays the same, and errors name the new labels. -/
theorem assemble_rename (hf : Function.Injective f) (c : List Asm) :
    Renamed f c (assemble c) (assemble (c.map (rename f))) := by
  have h := assembles c
  generalize assemble c = r at h
  cases h with
  | @duplicate before after l hc hn hl =>
    have hr : assemble (c.map (rename f)) = .error (.duplicateLabel (f l)) := by
      refine assemble_iff.2 (@Assembles.duplicate _ (before.map (rename f)) (after.map (rename f))
        _ ?_ ?_ ?_)
      · rw [hc, List.map_append, List.map_cons, rename]
      · rw [marks_rename]
        exact List.Nodup.map hf hn
      · rw [marks_rename, mem_map_iff hf]
        exact hl
    rw [hr]
    exact .duplicate l
  | linked hn hlinks =>
    have hn' : (marks (c.map (rename f))).Nodup := by
      rw [marks_rename]
      exact List.Nodup.map hf hn
    exact hlinks.renamed hf (links_assemble hn')

end

/-! ## Code that is put together -/

/-- **Assembly does not look beyond the code.**  Code can be put behind other code with which it has
    no labels in common: its targets increase by the length of what comes before.  It can be put
    into other code: its targets increase by the number of instructions in front of it, and those
    jumps around it increase by its length whose labels are marked behind it.  And if the labels
    are renamed, the same code comes out; errors name the new labels.  With fewer than `2 ^ 32`
    instructions in all, the targets are numbers of 32 bits. -/
theorem assemble_compositional :
    (∀ (a b : List Asm) (x y : List Instruction), (labels a).Disjoint (labels b) →
        assemble a = .ok x → assemble b = .ok y →
          assemble (a ++ b) = .ok (x ++ y.map (Instr.relabel (· + x.length)))) ∧
      (∀ (a₁ a₂ b : List Asm) (x y : List Instruction), (labels (a₁ ++ a₂)).Disjoint (labels b) →
        assemble (a₁ ++ a₂) = .ok x → assemble b = .ok y →
          assemble (a₁ ++ b ++ a₂) =
            .ok ((moveOn (marks a₂) y.length (instrs (a₁ ++ a₂)) x).take (instrs a₁).length ++
              y.map (Instr.relabel (· + (instrs a₁).length)) ++
                (moveOn (marks a₂) y.length (instrs (a₁ ++ a₂)) x).drop (instrs a₁).length)) ∧
        ∀ f : Label → Label, Function.Injective f → ∀ c : List Asm,
          Renamed f c (assemble c) (assemble (c.map (rename f))) :=
  ⟨fun _ _ _ _ => assemble_behind, fun _ _ _ _ _ => assemble_splice,
    fun _ hf c => assemble_rename hf c⟩

/-- What stands in front of the body of a loop. -/
def loopHead : List Asm := [.mark ⟨0⟩, .op (.jumpIfFalse ⟨1⟩)]

/-- What stands behind the body of a loop. -/
def loopTail : List Asm := [.op (.jump ⟨0⟩), .mark ⟨1⟩]

/-- A loop without an exit. -/
def endless : List Asm := [.mark ⟨5⟩, .op .pop, .op (.jump ⟨5⟩)]

/-- The label with the next number. -/
def following (l : Label) : Label := ⟨l.index + 1⟩

theorem following_injective : Function.Injective following := by
  rintro ⟨m⟩ ⟨n⟩ h
  have hi : m + 1 = n + 1 := congrArg Label.index h
  rw [Nat.succ.inj hi]

/-- A loop with another one behind it and in it, and with other labels. -/
theorem assemble_loops : (labels (loopHead ++ loopTail)).Disjoint (labels endless) ∧
    assemble (loopHead ++ loopTail) = .ok [.jumpIfFalse 2, .jump 0] ∧
    assemble endless = .ok [.pop, .jump 0] ∧
    assemble (loopHead ++ loopTail ++ endless) = .ok [.jumpIfFalse 2, .jump 0, .pop, .jump 2] ∧
    assemble (loopHead ++ endless ++ loopTail) = .ok [.jumpIfFalse 4, .pop, .jump 1, .jump 0] ∧
    Renamed following (loopHead ++ loopTail) (.ok [.jumpIfFalse 2, .jump 0])
      (assemble ((loopHead ++ loopTail).map (rename following))) := by
  have hapart : ∀ l ∈ labels (loopHead ++ loopTail), l ∉ labels endless := by decide
  have hd : (labels (loopHead ++ loopTail)).Disjoint (labels endless) := fun l h h' =>
    hapart l h h'
  have hx : assemble (loopHead ++ loopTail) = .ok [.jumpIfFalse 2, .jump 0] := by decide
  have hy : assemble endless = .ok [.pop, .jump 0] := by decide
  obtain ⟨hbehind, hsplice, hrename⟩ := assemble_compositional
  refine ⟨hd, hx, hy, (hbehind _ _ _ _ hd hx hy).trans (by decide),
    (hsplice _ _ _ _ _ hd hx hy).trans (by decide), ?_⟩
  rw [← hx]
  exact hrename following following_injective (loopHead ++ loopTail)

/-- Errors name labels, so they do not stay the same when labels are renamed. -/
theorem assemble_rename_error : ¬ ∀ f : Label → Label, Function.Injective f → ∀ c : List Asm,
    assemble (c.map (rename f)) = assemble c := by
  intro h
  exact absurd (h following following_injective [.op (.jump ⟨0⟩)]) (by decide)

end Asm

end Naskah
