/-
  Texts from which what they show can be read off.  A way to show things is unambiguous if two
  texts that begin with what it shows and are equal show the same thing, and go on in the same way.
  Words are unambiguous before a character that is not in them, and lists if their elements are and
  begin with characters that cannot stand behind the list (`unambiguous_mapIdx`).

  Numerals are words, and quoted texts show every text (`quote_injective`).
-/
import Naskah.Proofs.Json.Numerals
import Naskah.Text.Quoted

namespace Naskah.Text

/-- What may stand behind a word with characters of a class. -/
def Breaks (P : Char → Bool) (cs : List Char) : Prop :=
  ∀ c ∈ cs.head?, P c = false

theorem breaks_nil (P : Char → Bool) : Breaks P [] := by
  rintro c ⟨⟩

theorem breaks_cons {P : Char → Bool} {c : Char} (h : P c = false) (cs : List Char) :
    Breaks P (c :: cs) := by
  rintro d ⟨⟩
  exact h

theorem not_breaks_cons {P : Char → Bool} {c : Char} (h : P c = true) (cs : List Char) :
    ¬ Breaks P (c :: cs) := by
  intro hb
  rw [hb c rfl] at h
  cases h

/-- Things that can be read off the text that shows them, as long as it goes on in certain ways. -/
def Unambiguous {α : Type} (D : α → Prop) (F : List Char → Prop) (f : α → List Char) : Prop :=
  ∀ ⦃a b : α⦄ ⦃x y : List Char⦄, D a → D b → F x → F y → f a ++ x = f b ++ y → a = b ∧ x = y

/-! ## Words -/

section
variable {P : Char → Bool}

/-- A word ends where its characters do. -/
theorem append_inj_of_breaks {u v x y : List Char} (hu : ∀ c ∈ u, P c = true)
    (hv : ∀ c ∈ v, P c = true) (hx : Breaks P x) (hy : Breaks P y) (h : u ++ x = v ++ y) :
    u = v ∧ x = y := by
  induction u generalizing v with
  | nil =>
    cases v with
    | nil => exact ⟨rfl, h⟩
    | cons c v =>
      have h : x = c :: (v ++ y) := h
      exact absurd (h ▸ hx) (not_breaks_cons (hv c List.mem_cons_self) _)
  | cons c u ih =>
    cases v with
    | nil =>
      have h : c :: (u ++ x) = y := h
      exact absurd (h ▸ hy) (not_breaks_cons (hu c List.mem_cons_self) _)
    | cons d v =>
      obtain ⟨rfl, htail⟩ := List.cons.inj h
      rw [List.forall_mem_cons] at hu hv
      obtain ⟨rfl, hxy⟩ := ih hu.2 hv.2 htail
      exact ⟨rfl, hxy⟩

variable {α : Type} {D : α → Prop}

theorem unambiguous_word {f : α → List Char} (hf : ∀ a b, D a → D b → f a = f b → a = b)
    (hP : ∀ a, D a → ∀ c ∈ f a, P c = true) : Unambiguous D (Breaks P) f := by
  intro a b x y ha hb hx hy h
  obtain ⟨hab, hxy⟩ := append_inj_of_breaks (hP a ha) (hP b hb) hx hy h
  exact ⟨hf a b ha hb hab, hxy⟩

/-! ## Lists -/

/-- **Lists are unambiguous** if their elements are.  Every element begins with a character of a
    class, and what may stand behind the list does not. -/
theorem unambiguous_mapIdx {F : List Char → Prop} {f : Nat → α → List Char}
    (hf : ∀ n, Unambiguous D F (f n)) (hP : ∀ n a, D a → ∃ c cs, f n a = c :: cs ∧ P c = true)
    (hF : ∀ c cs, P c = true → F (c :: cs)) :
    Unambiguous (fun as : List α => ∀ a ∈ as, D a) (fun x => Breaks P x ∧ F x)
      fun as => (as.mapIdx f).flatten := by
  intro as bs x y has hbs hx hy h
  simp only at h
  -- the places are counted on while the lists are taken apart
  induction as generalizing bs f with
  | nil =>
    cases bs with
    | nil => exact ⟨rfl, h⟩
    | cons b bs =>
      obtain ⟨c, cs, hc, hPc⟩ := hP 0 b (hbs b List.mem_cons_self)
      rw [List.mapIdx_cons, List.flatten_cons, hc] at h
      have h : x = c :: _ := h
      exact absurd (h ▸ hx.1) (not_breaks_cons hPc _)
  | cons a as ih =>
    rw [List.forall_mem_cons] at has
    cases bs with
    | nil =>
      obtain ⟨c, cs, hc, hPc⟩ := hP 0 a has.1
      rw [List.mapIdx_cons, List.flatten_cons, hc] at h
      have h : c :: _ = y := h
      exact absurd (h ▸ hy.1) (not_breaks_cons hPc _)
    | cons b bs =>
      rw [List.forall_mem_cons] at hbs
      have hnext : ∀ {as : List α} {x : List Char}, (∀ a ∈ as, D a) → F x →
          F ((as.mapIdx fun i => f (i + 1)).flatten ++ x) := by
        intro as x has hx
        cases as with
        | nil => exact hx
        | cons a as =>
          obtain ⟨c, cs, hc, hPc⟩ := hP (0 + 1) a (has a List.mem_cons_self)
          rw [List.mapIdx_cons, List.flatten_cons, hc]
          exact hF c _ hPc
      simp only [List.mapIdx_cons, List.flatten_cons, List.append_assoc] at h
      obtain ⟨rfl, htail⟩ := hf 0 has.1 hbs.1 (hnext has.2 hx.2) (hnext hbs.2 hy.2) h
      obtain ⟨rfl, hxy⟩ := ih (fun n => hf (n + 1)) (fun n => hP (n + 1)) has.2 hbs.2 htail
      exact ⟨rfl, hxy⟩

end

/-! ## Numerals -/

theorem digitChar_injective : ∀ m < 16, ∀ n < 16, Nat.digitChar m = Nat.digitChar n → m = n := by
  decide

/-- A numeral with more than one digit is not one with a single digit. -/
theorem toDigits_ne_singleton {base m : Nat} (hb : 1 < base) (hm : base ≤ m) (c : Char) :
    Nat.toDigits base m ≠ [c] := by
  intro h
  rw [Nat.toDigits_of_base_le hb hm] at h
  have hlen := congrArg List.length h
  have hpos : 0 < (Nat.toDigits base (m / base)).length := List.length_pos_iff.2 Nat.toDigits_ne_nil
  simp only [List.length_append, List.length_singleton] at hlen
  omega

theorem toDigits_injective {base : Nat} (hb : 1 < base) (hb' : base ≤ 16) {m n : Nat}
    (h : Nat.toDigits base m = Nat.toDigits base n) : m = n := by
  induction m using Nat.strongRecOn generalizing n with
  | ind m ih =>
    have hpos : 0 < base := Nat.lt_of_succ_lt hb
    rcases Nat.lt_or_ge m base with hm | hm <;> rcases Nat.lt_or_ge n base with hn | hn
    · rw [Nat.toDigits_of_lt_base hm, Nat.toDigits_of_lt_base hn] at h
      exact digitChar_injective m (by omega) n (by omega) (List.cons.inj h).1
    · rw [Nat.toDigits_of_lt_base hm] at h
      exact absurd h.symm (toDigits_ne_singleton hb hn _)
    · rw [Nat.toDigits_of_lt_base hn] at h
      exact absurd h (toDigits_ne_singleton hb hm _)
    · rw [Nat.toDigits_of_base_le hb hm, Nat.toDigits_of_base_le hb hn] at h
      obtain ⟨hquot, hdigit⟩ := List.append_inj' h rfl
      have hq : m / base = n / base :=
        ih (m / base) (Nat.div_lt_self (Nat.lt_of_lt_of_le hpos hm) hb) hquot
      have hlt := Nat.mod_lt m hpos
      have hlt' := Nat.mod_lt n hpos
      have hr : m % base = n % base :=
        digitChar_injective _ (by omega) _ (by omega) (List.cons.inj hdigit).1
      rw [← Nat.div_add_mod m base, ← Nat.div_add_mod n base, hq, hr]

/-- A decimal numeral is unambiguous before what is no digit. -/
theorem unambiguous_toDigits :
    Unambiguous (fun _ => True) (Breaks Char.isDigit) (Nat.toDigits 10) :=
  unambiguous_word (fun _ _ _ _ => toDigits_injective (by decide) (by decide))
    fun n _ => isDigit_toDigits n

theorem mem_toDigits {base n : Nat} (hb : 1 < base) {c : Char} (hc : c ∈ Nat.toDigits base n) :
    ∃ k < base, c = Nat.digitChar k := by
  induction n using Nat.strongRecOn with
  | ind n ih =>
    rcases Nat.lt_or_ge n base with hn | hn
    · rw [Nat.toDigits_of_lt_base hn, List.mem_singleton] at hc
      exact ⟨n, hn, hc⟩
    · have hpos : 0 < base := Nat.lt_of_succ_lt hb
      rw [Nat.toDigits_of_base_le hb hn, List.mem_append, List.mem_singleton] at hc
      rcases hc with hc | hc
      · exact ih (n / base) (Nat.div_lt_self (Nat.lt_of_lt_of_le hpos hn) hb) hc
      · exact ⟨n % base, Nat.mod_lt n hpos, hc⟩

theorem isAlphanum_digitChar : ∀ k < 16, (Nat.digitChar k).isAlphanum = true := by
  decide

theorem isAlphanum_hexDigits (n : Nat) : ∀ c ∈ Nat.toDigits 16 n, c.isAlphanum = true := by
  intro c hc
  obtain ⟨k, hk, rfl⟩ := mem_toDigits (by decide) hc
  exact isAlphanum_digitChar k hk

/-! ## Quoted texts -/

/-- The characters that have an escape of one letter, and the letter. -/
def namedEscapes : List (Char × Char) :=
  [('\x00', '0'), ('\t', 't'), ('\r', 'r'), ('\n', 'n'), ('"', '"'), ('\\', '\\')]

/-- A character stands for itself, or has an escape of one letter, or one by its code point. -/
theorem quoteChar_cases (c : Char) :
    (quoteChar c = [c] ∧ c ≠ '"' ∧ c ≠ '\\' ∧ c ≠ '\n') ∨
      (∃ e, (c, e) ∈ namedEscapes ∧ quoteChar c = ['\\', e]) ∨ quoteChar c = escapeCode c := by
  unfold quoteChar
  split
  · exact .inr (.inl ⟨'0', by decide, rfl⟩)
  · exact .inr (.inl ⟨'t', by decide, rfl⟩)
  · exact .inr (.inl ⟨'r', by decide, rfl⟩)
  · exact .inr (.inl ⟨'n', by decide, rfl⟩)
  · exact .inr (.inl ⟨'"', by decide, rfl⟩)
  · exact .inr (.inl ⟨'\\', by decide, rfl⟩)
  · next hn hq hb =>
    split
    · exact .inl ⟨rfl, hq, hb, hn⟩
    · exact .inr (.inr rfl)

theorem namedEscapes_injective : ∀ p ∈ namedEscapes, ∀ q ∈ namedEscapes, p.2 = q.2 → p = q := by
  decide

theorem namedEscapes_ne : ∀ p ∈ namedEscapes, p.2 ≠ 'u' ∧ p.2 ≠ '\n' := by
  decide

/-- Escapes by code points end with their bracket. -/
theorem escapeCode_append_inj {c d : Char} {x y : List Char}
    (h : escapeCode c ++ x = escapeCode d ++ y) : c = d ∧ x = y := by
  have hunfold : ∀ (c : Char) (x : List Char), escapeCode c ++ x =
      '\\' :: 'u' :: '\x7b' :: (Nat.toDigits 16 c.toNat ++ '\x7d' :: x) := by
    intro c x
    simp [escapeCode]
  rw [hunfold, hunfold] at h
  simp only [List.cons.injEq, true_and] at h
  obtain ⟨hdigits, hrest⟩ := append_inj_of_breaks (isAlphanum_hexDigits _) (isAlphanum_hexDigits _)
    (breaks_cons rfl x) (breaks_cons rfl y) h
  exact ⟨Char.toNat_inj.1 (toDigits_injective (by decide) (by decide) hdigits),
    (List.cons.inj hrest).2⟩

/-- **What stands for a character** in a quoted text stands for no other one, and its end can be
    found. -/
theorem unambiguous_quoteChar : Unambiguous (fun _ => True) (fun _ => True) quoteChar := by
  intro c d x y _ _ _ _ h
  rcases quoteChar_cases c with ⟨hc, -, hcb, -⟩ | ⟨e, he, hc⟩ | hc <;>
    rcases quoteChar_cases d with ⟨hd, -, hdb, -⟩ | ⟨e', he', hd⟩ | hd <;> rw [hc, hd] at h
  · exact List.cons.inj h
  · exact absurd (List.cons.inj h).1 hcb
  · exact absurd (List.cons.inj h).1 hcb
  · exact absurd (List.cons.inj h).1.symm hdb
  · obtain ⟨-, h⟩ := List.cons.inj h
    obtain ⟨hee', hxy⟩ := List.cons.inj h
    exact ⟨congrArg Prod.fst (namedEscapes_injective _ he _ he' hee'), hxy⟩
  · obtain ⟨-, h⟩ := List.cons.inj h
    exact absurd (List.cons.inj h).1 (namedEscapes_ne _ he).1
  · exact absurd (List.cons.inj h).1.symm hdb
  · obtain ⟨-, h⟩ := List.cons.inj h
    exact absurd (List.cons.inj h).1.symm (namedEscapes_ne _ he').1
  · exact escapeCode_append_inj h

theorem quoteChar_head (c : Char) : ∃ d ds, quoteChar c = d :: ds ∧ (d != '"') = true := by
  rcases quoteChar_cases c with ⟨hc, hq, -⟩ | ⟨e, -, hc⟩ | hc
  · exact ⟨c, [], hc, bne_iff_ne.2 hq⟩
  · exact ⟨_, _, hc, rfl⟩
  · exact ⟨_, _, hc, rfl⟩

/-- No line ends inside of a quoted text. -/
theorem quoteChar_ne_newline {c d : Char} (h : d ∈ quoteChar c) : d ≠ '\n' := by
  rintro rfl
  rcases quoteChar_cases c with ⟨hc, -, -, hn⟩ | ⟨e, he, hc⟩ | hc <;> rw [hc] at h
  · exact hn (List.mem_singleton.1 h).symm
  · have : '\n' = e := by simpa using h
    exact (namedEscapes_ne _ he).2 this.symm
  · have : '\n' ∈ Nat.toDigits 16 c.toNat := by simpa [escapeCode] using h
    cases isAlphanum_hexDigits _ _ this

theorem flatMap_eq_mapIdx {α : Type} (f : α → List Char) (as : List α) :
    as.flatMap f = (as.mapIdx fun _ => f).flatten := by
  induction as with
  | nil => rfl
  | cons a as ih => rw [List.flatMap_cons, List.mapIdx_cons, List.flatten_cons, ih]

theorem toList_quote (s : String) :
    (quote s).toList = '"' :: (s.toList.flatMap quoteChar ++ ['"']) := by
  rw [quote, String.toList_ofList]
  rfl

/-- **A quoted text shows one text only.** -/
theorem quote_injective {s t : String} (h : quote s = quote t) : s = t := by
  have h := congrArg String.toList h
  rw [toList_quote, toList_quote, flatMap_eq_mapIdx, flatMap_eq_mapIdx] at h
  have hend : Breaks (· != '"') ['"'] ∧ True := ⟨breaks_cons rfl [], trivial⟩
  have hall := unambiguous_mapIdx (fun _ => unambiguous_quoteChar)
    (fun _ c _ => quoteChar_head c) (fun _ _ _ => trivial)
  exact String.toList_inj.1
    (hall (fun _ _ => trivial) (fun _ _ => trivial) hend hend (List.cons.inj h).2).1

theorem quote_ne_newline {s : String} {c : Char} (h : c ∈ (quote s).toList) : c ≠ '\n' := by
  rw [toList_quote, List.mem_cons, List.mem_append, List.mem_flatMap, List.mem_singleton] at h
  rcases h with rfl | ⟨d, -, hd⟩ | rfl
  · decide
  · exact quoteChar_ne_newline hd
  · decide

end Naskah.Text
