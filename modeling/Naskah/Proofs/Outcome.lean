/-
  Outcomes of the compiler.  A step of the compiler gives a result, refuses the source, or breaks
  because one of its own assumptions does not hold.  `Yields x P` says that `x` gives a result with
  the property `P`, or refuses, or breaks in the one way that a source can bring about: a call with
  more than 255 arguments.

  Statements of this kind are put together along the steps of a computation (`Yields.bind`,
  `Yields.mapM`), so that every function of the compiler has one of them.  `Ensures x P` says less:
  whatever `x` gives has the property.
-/
import Naskah.Diagnostic
import Mathlib.Tactic.Common

namespace Naskah

theorem toOption_eq_some_iff {ε α : Type} {x : Except ε α} {a : α} :
    x.toOption = some a ↔ x = .ok a := by
  cases x <;> simp [Except.toOption]

/-- The breach that a source can bring about. -/
def Breach.Tolerated : Breach → Prop
  | tooManyArguments count => 255 < count
  | _ => False

/-- A result with a property, a refusal, or the tolerated breach. -/
def Yields {α : Type} (x : Except Diagnostic α) (P : α → Prop) : Prop :=
  match x with
  | .ok a => P a
  | .error (.refused _ _) => True
  | .error (.broken b) => b.Tolerated

namespace Yields

variable {α β : Type} {P : α → Prop} {Q : β → Prop}

theorem ok {a : α} (h : P a) : Yields (.ok a) P := h

theorem pure {a : α} (h : P a) : Yields (Pure.pure a) P := h

theorem refuse (why : Refusal) (line : UInt32) : Yields (Naskah.refuse why line) P := trivial

theorem refuseAtEnd (why : Refusal) : Yields (Naskah.refuseAtEnd why) P := trivial

theorem of_ok {x : Except Diagnostic α} {a : α} (h : Yields x P) (hx : x = .ok a) : P a := by
  subst hx; exact h

theorem of_broken {x : Except Diagnostic α} {b : Breach} (h : Yields x P)
    (hx : x = .error (.broken b)) : b.Tolerated := by
  subst hx; exact h

theorem mono {P' : α → Prop} {x : Except Diagnostic α} (h : Yields x P) (hP : ∀ a, P a → P' a) :
    Yields x P' := by
  match x, h with
  | .ok a, h => exact hP a h
  | .error (.refused _ _), _ => trivial
  | .error (.broken _), h => exact h

theorem bind {x : Except Diagnostic α} {f : α → Except Diagnostic β} (h : Yields x P)
    (hf : ∀ a, x = .ok a → P a → Yields (f a) Q) : Yields (x >>= f) Q := by
  match x, h with
  | .ok a, h => exact hf a rfl h
  | .error (.refused _ _), _ => trivial
  | .error (.broken _), h => exact h

theorem map {x : Except Diagnostic α} {f : α → β} (h : Yields x P) (hf : ∀ a, P a → Q (f a)) :
    Yields (x.map f) Q := by
  match x, h with
  | .ok a, h => exact hf a h
  | .error (.refused _ _), _ => trivial
  | .error (.broken _), h => exact h

/-- The results of a list of computations. -/
theorem mapM {f : α → Except Diagnostic β} :
    ∀ {xs : List α}, (∀ a ∈ xs, Yields (f a) Q) →
      Yields (xs.mapM f) fun ys => ys.length = xs.length ∧ ∀ b ∈ ys, Q b
  | [], _ => ⟨rfl, by simp⟩
  | a :: xs, h => by
    rw [List.mapM_cons]
    refine (h a (by simp)).bind fun b _ hb => ?_
    refine (mapM fun a ha => h a (by simp [ha])).bind fun ys _ hys => ?_
    refine Yields.pure ⟨by simp [hys.1], fun c hc => ?_⟩
    rcases List.mem_cons.1 hc with rfl | hc
    · exact hb
    · exact hys.2 c hc

/-- A computation that carries a result through a list. -/
theorem foldlM {f : β → α → Except Diagnostic β} :
    ∀ {xs : List α} {b : β}, Q b → (∀ b, Q b → ∀ a ∈ xs, Yields (f b a) Q) →
      Yields (xs.foldlM f b) Q
  | [], _, hb, _ => Yields.pure hb
  | a :: xs, b, hb, h => by
    rw [List.foldlM_cons]
    exact (h b hb a (by simp)).bind fun b' _ hb' =>
      foldlM hb' fun b hb a ha => h b hb a (by simp [ha])

end Yields

/-- Any result has a property. -/
def Ensures {α : Type} (x : Except Diagnostic α) (P : α → Prop) : Prop :=
  ∀ a, x = .ok a → P a

namespace Ensures

variable {α β : Type} {P : α → Prop} {Q : β → Prop}

theorem ok {a : α} (h : P a) : Ensures (.ok a) P := by
  rintro _ ⟨⟩
  exact h

theorem pure {a : α} (h : P a) : Ensures (Pure.pure a) P := ok h

theorem error (e : Diagnostic) : Ensures (.error e) P := by
  rintro _ ⟨⟩

theorem refuse (why : Refusal) (line : UInt32) : Ensures (Naskah.refuse why line) P := error _

theorem mono {P' : α → Prop} {x : Except Diagnostic α} (h : Ensures x P) (hP : ∀ a, P a → P' a) :
    Ensures x P' :=
  fun a ha => hP a (h a ha)

theorem bind {x : Except Diagnostic α} {f : α → Except Diagnostic β} (h : Ensures x P)
    (hf : ∀ a, x = .ok a → P a → Ensures (f a) Q) : Ensures (x >>= f) Q := by
  cases x with
  | error e => exact error e
  | ok a => exact hf a rfl (h a rfl)

/-- What comes first may give anything. -/
theorem after {x : Except Diagnostic α} {f : α → Except Diagnostic β}
    (hf : ∀ a, x = .ok a → Ensures (f a) Q) : Ensures (x >>= f) Q :=
  bind (P := fun _ => True) (fun _ _ => trivial) fun a ha _ => hf a ha

theorem map {x : Except Diagnostic α} {f : α → β} (h : Ensures x P) (hf : ∀ a, P a → Q (f a)) :
    Ensures (x.map f) Q := by
  cases x with
  | error e => exact error e
  | ok a => exact ok (hf a (h a rfl))

theorem mapM {f : α → Except Diagnostic β} :
    ∀ {xs : List α}, (∀ a ∈ xs, Ensures (f a) Q) → Ensures (xs.mapM f) fun ys => ∀ b ∈ ys, Q b
  | [], _ => pure (by simp)
  | a :: xs, h => by
    rw [List.mapM_cons]
    refine (h a (by simp)).bind fun b _ hb => ?_
    refine (mapM fun a ha => h a (by simp [ha])).bind fun ys _ hys => ?_
    exact pure (List.forall_mem_cons.2 ⟨hb, hys⟩)

/-- What each success shows of the element that it belongs to. -/
theorem mapM_mem {f : α → Except Diagnostic β} :
    ∀ {xs : List α}, (∀ a ∈ xs, Ensures (f a) fun _ => P a) →
      Ensures (xs.mapM f) fun ys => ys.length = xs.length ∧ ∀ a ∈ xs, P a
  | [], _ => pure ⟨rfl, by simp⟩
  | a :: xs, h => by
    rw [List.mapM_cons]
    refine (h a (by simp)).bind fun b _ ha => ?_
    refine (mapM_mem fun a ha => h a (by simp [ha])).bind fun ys _ hys => ?_
    exact pure ⟨by simp [hys.1], List.forall_mem_cons.2 ⟨ha, hys.2⟩⟩

theorem foldlM {f : β → α → Except Diagnostic β} :
    ∀ {xs : List α} {b : β}, Q b → (∀ b, Q b → ∀ a ∈ xs, Ensures (f b a) Q) →
      Ensures (xs.foldlM f b) Q
  | [], _, hb, _ => pure hb
  | a :: xs, b, hb, h => by
    rw [List.foldlM_cons]
    exact (h b hb a (by simp)).bind fun b' _ hb' =>
      foldlM hb' fun b hb a ha => h b hb a (by simp [ha])

end Ensures

end Naskah
