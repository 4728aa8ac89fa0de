/-
  The lines that diagnostics name.  `Blames L x P` says that `x` gives a result with the property
  `P`, or a diagnostic that names a line from `L` or none.

  A function of the compiler names a line that it was given: the one up to which the source has been
  read, or the one of a name among the tokens.  All such lines on a desk are from `L`
  (`Desk.Within`), and taking a token keeps it so (`take_blames`).
-/
import Naskah.Compile
import Naskah.Proofs.Expression.Code
import Naskah.Proofs.Token.Lines

namespace Naskah

/-- A result with a property, or a diagnostic that names a line from `L` or none. -/
def Blames {α : Type} (L : UInt32 → Prop) (x : Except Diagnostic α) (P : α → Prop) : Prop :=
  match x with
  | .ok a => P a
  | .error e => ∀ line ∈ e.report.line?, L line

namespace Blames

variable {α β : Type} {L : UInt32 → Prop} {P : α → Prop} {Q : β → Prop}

theorem ok {a : α} (h : P a) : Blames L (.ok a) P := h

theorem pure {a : α} (h : P a) : Blames L (Pure.pure a) P := h

theorem refuse {line : UInt32} (h : L line) (why : Refusal) :
    Blames L (Naskah.refuse why line) P := by
  rintro _ ⟨⟩
  exact h

theorem refuseAtEnd (why : Refusal) : Blames L (Naskah.refuseAtEnd why) P := by
  rintro _ ⟨⟩

theorem broken (what : Breach) : Blames L (Naskah.broken what) P := by
  rintro _ ⟨⟩

theorem illegal {line : UInt32} (h : L line) (t : Token) :
    Blames L (Expression.illegal t line) P :=
  refuse h _

theorem mono {P' : α → Prop} {x : Except Diagnostic α} (h : Blames L x P) (hP : ∀ a, P a → P' a) :
    Blames L x P' := by
  cases x with
  | ok a => exact hP a h
  | error e => exact h

theorem bind {x : Except Diagnostic α} {f : α → Except Diagnostic β} (h : Blames L x P)
    (hf : ∀ a, P a → Blames L (f a) Q) : Blames L (x >>= f) Q := by
  cases x with
  | ok a => exact hf a h
  | error e => exact h

theorem map {x : Except Diagnostic α} {f : α → β} (h : Blames L x P) (hf : ∀ a, P a → Q (f a)) :
    Blames L (x.map f) Q := by
  cases x with
  | ok a => exact hf a h
  | error e => exact h

theorem mapM {f : α → Except Diagnostic β} :
    ∀ {xs : List α}, (∀ a ∈ xs, Blames L (f a) fun _ => True) →
      Blames L (xs.mapM f) fun _ => True
  | [], _ => trivial
  | a :: xs, h => by
    rw [List.forall_mem_cons] at h
    rw [List.mapM_cons]
    exact h.1.bind fun _ _ => (mapM h.2).bind fun _ _ => trivial

theorem foldlM {f : β → α → Except Diagnostic β}
    (hf : ∀ b a, Blames L (f b a) fun _ => True) :
    ∀ (xs : List α) (b : β), Blames L (xs.foldlM f b) fun _ => True
  | [], _ => trivial
  | a :: xs, b => by
    rw [List.foldlM_cons]
    exact (hf b a).bind fun b' _ => foldlM hf xs b'

end Blames

/-- The line of a literal is from `L`. -/
def Token.Within (L : UInt32 → Prop) (t : Token) : Prop :=
  ∀ l ∈ t.literal?, L l.line

/-- The line that a header ends on. -/
def Header.line : Header → UInt32
  | function _ _ line | entry line | guarded _ _ line => line

variable {L : UInt32 → Prop} {line : UInt32}

namespace Expression

variable {scope : Scope}

end Expression

/-! ## Statements -/

namespace Desk

variable {d : Desk} {c : Cursor} {tokens : List Token}

/-- The lines on a desk that diagnostics can name are from `L`. -/
structure Within (L : UInt32 → Prop) (d : Desk) : Prop where
  run : ∀ t ∈ d.run.tokens, t.Within L
  outer : ∀ r ∈ d.outer, ∀ t ∈ r.tokens, t.Within L
  header : ∀ h ∈ d.header, L h.line

theorem Within.push (h : d.Within L) {t : Token} (ht : t.Within L) : (d.push t).Within L :=
  ⟨fun _ ht' => (List.mem_append.1 ht').elim (h.run _) fun hs => List.mem_singleton.1 hs ▸ ht,
    h.outer, h.header⟩

theorem Within.clear (h : d.Within L) : d.clear.Within L :=
  ⟨fun _ ht => absurd ht List.not_mem_nil, h.outer, h.header⟩

theorem Within.setNames (h : d.Within L) (names : Names) : (d.setNames names).Within L := by
  unfold Desk.setNames
  split
  · exact ⟨h.run, h.outer, h.header⟩
  · exact ⟨h.run, h.outer, h.header⟩

end Desk

end Naskah
