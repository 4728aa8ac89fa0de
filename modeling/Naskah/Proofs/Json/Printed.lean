/-
  Printed JSON is read back.  Every character of a printed value is taken as it was meant, so that
  the text is read as the tokens of the value (`spells_renderAt`); and the tokens of a value are
  taken as the value (`foldlM_tokens`).  So reading undoes printing (`parse?_render`), for all
  values whose strings denote texts and whose numbers consist of digits (`Written`).
-/
import Naskah.Json.Parser
import Naskah.Proofs.Json.Numerals

namespace Naskah

namespace Json

/-! ## Tokens of printed text -/

/-- A text that is read as the given tokens. -/
def Closed (cs : List Char) (ts : List Tok) : Prop :=
  ∀ before, cs.foldlM Reader.step? ⟨before, .between⟩ = some ⟨ts.reverse ++ before, .between⟩

/-- A text that is read as the given tokens, once it is clear that the last one has ended. -/
def Spells (cs : List Char) (ts : List Tok) : Prop :=
  ∀ before, ∃ r, cs.foldlM Reader.step? ⟨before, .between⟩ = some r ∧
    r.close? = some (ts.reverse ++ before)

variable {a b cs : List Char} {s t ts : List Tok} {c : Char}

theorem Closed.spells (h : Closed cs ts) : Spells cs ts :=
  fun before => ⟨_, h before, rfl⟩

theorem Closed.append (ha : Closed a s) (hb : Closed b t) : Closed (a ++ b) (s ++ t) := by
  intro before
  rw [List.foldlM_append, ha before, List.reverse_append, List.append_assoc]
  exact hb _

/-- A character that ends words and numbers. -/
def isSeparator (c : Char) : Bool :=
  !c.isAlpha && !isNumeric c

theorem step?_of_close? {r : Reader} (h : r.close? = some ts) (hc : isSeparator c = true) :
    r.step? c = Reader.start? ts c := by
  simp only [isSeparator, Bool.and_eq_true, Bool.not_eq_true'] at hc
  obtain ⟨tokens, mode⟩ := r
  cases mode with
  | between => cases h; rfl
  | word read => simp [Reader.step?, hc.1, h]
  | number read => simp [Reader.step?, hc.2, h]
  | string read | escape read => cases h

/-- A separator ends what stands before it. -/
theorem Spells.append (ha : Spells a s) (hb : Closed (c :: b) t) (hc : isSeparator c = true) :
    Closed (a ++ c :: b) (s ++ t) := by
  intro before
  obtain ⟨r, hr, hclose⟩ := ha before
  have h := hb (s.reverse ++ before)
  rw [List.foldlM_append, hr, List.reverse_append, List.append_assoc, ← h]
  show List.foldlM _ _ _ = _
  rw [List.foldlM_cons, List.foldlM_cons, step?_of_close? hclose hc]
  rfl

theorem closed_nil : Closed [] [] := fun _ => rfl

theorem closed_newline (level : Nat) : Closed (newline level) [] := by
  have h : ∀ n, Closed (List.replicate n ' ') [] := by
    intro n
    induction n with
    | zero => exact closed_nil
    | succ n ih => exact Closed.append (a := [' ']) (s := []) (fun _ => rfl) ih
  exact Closed.append (a := ['\n']) (s := []) (fun _ => rfl) (h _)

/-! ## Numbers and words -/

theorem foldlM_number {read : List Char} {before : List Tok} (h : ∀ c ∈ cs, isNumeric c = true) :
    cs.foldlM Reader.step? ⟨before, .number read⟩ = some ⟨before, .number (cs.reverse ++ read)⟩ := by
  induction cs generalizing read with
  | nil => rfl
  | cons c cs ih =>
    have hc : Reader.step? ⟨before, .number read⟩ c = some ⟨before, .number (c :: read)⟩ := by
      simp [Reader.step?, h c (by simp)]
    rw [List.foldlM_cons, hc, List.reverse_cons, List.append_assoc]
    exact ih fun c' hc' => h c' (by simp [hc'])

theorem isNumeric_of_isDigit (h : c.isDigit = true) : isNumeric c = true := by
  simp [isNumeric, h]

theorem isNumeric_render {n : Numeral} (h : n.Regular) : ∀ c ∈ n.render, isNumeric c = true := by
  have hd : ∀ k : Nat, ∀ c ∈ Nat.toDigits 10 k, isNumeric c = true :=
    fun k c hc => isNumeric_of_isDigit (isDigit_toDigits k c hc)
  intro c hc
  unfold Numeral.render at hc
  simp only [List.mem_append] at hc
  rcases hc with ((hc | hc) | hc) | hc
  · split at hc
    · cases List.mem_singleton.1 hc; rfl
    · cases hc
  · exact hd _ c hc
  · split at hc
    · cases hc
    · rcases List.mem_cons.1 hc with rfl | hc
      · rfl
      · exact isNumeric_of_isDigit (h c hc)
  · split at hc
    · cases hc
    · rcases List.mem_cons.1 hc with rfl | hc
      · rfl
      · rcases List.mem_cons.1 hc with rfl | hc
        · split <;> rfl
        · exact hd _ c hc

/-- A literal begins with a digit or a minus. -/
theorem start?_number (before : List Tok) (h : c.isDigit = true ∨ c = '-') :
    Reader.start? before c = some ⟨before, .number [c]⟩ := by
  rcases h with h | rfl
  · have hb : isBlank c = false := by
      simp only [isBlank, Bool.or_eq_false_iff, beq_eq_false_iff_ne]
      refine ⟨⟨⟨?_, ?_⟩, ?_⟩, ?_⟩ <;> rintro rfl <;> cases h
    unfold Reader.start?
    split
    · cases h
    · cases h
    · cases h
    · cases h
    · cases h
    · cases h
    · cases h
    · simp [hb, h]
  · rfl

theorem head?_render (n : Numeral) : ∃ c cs, n.render = c :: cs ∧ (c.isDigit = true ∨ c = '-') := by
  obtain ⟨c, cs, hc⟩ := List.exists_cons_of_ne_nil (Nat.toDigits_ne_nil (n := n.whole) (b := 10))
  have hd : c.isDigit = true := isDigit_toDigits n.whole c (by rw [hc]; exact List.mem_cons_self)
  unfold Numeral.render
  rw [hc]
  split
  · exact ⟨'-', _, rfl, .inr rfl⟩
  · exact ⟨c, _, rfl, .inl hd⟩

theorem spells_num {n : Numeral} (h : n.Regular) : Spells n.render [.num n] := by
  intro before
  obtain ⟨c, cs, hc, hd⟩ := head?_render n
  have hn := isNumeric_render h
  have hr := Numeral.ofChars?_render h
  rw [hc] at hn hr ⊢
  have hs : Reader.step? ⟨before, .between⟩ c = some ⟨before, .number [c]⟩ := start?_number before hd
  refine ⟨⟨before, .number (cs.reverse ++ [c])⟩, ?_, ?_⟩
  · rw [List.foldlM_cons, hs]
    exact foldlM_number fun c' hc' => hn c' (List.mem_cons_of_mem _ hc')
  · simp [Reader.close?, hr]

theorem spells_null : Spells "null".toList [.null] := fun _ => ⟨_, rfl, rfl⟩

theorem spells_bool (b : Bool) :
    Spells (if b then "true".toList else "false".toList) [.bool b] := by
  cases b <;> exact fun _ => ⟨_, rfl, rfl⟩

/-! ## Strings -/

/-- A character that stands for itself in a string literal. -/
def isPlain (c : Char) : Bool :=
  c ≠ '"' && c ≠ '\\' && 0x20 ≤ c.toNat

/-- What stands for a character in a string literal: itself, a letter behind a backslash, or its
    number in hexadecimal digits. -/
inductive Escaped : Char → List Char → Prop
  | plain {c : Char} (h : isPlain c = true) : Escaped c [c]
  | letter {c e : Char} (hu : e ≠ 'u') (h : escaped? e = some c) : Escaped c ['\\', e]
  | unit {c x y : Char} (hx : isPlain x = true) (hy : isPlain y = true)
      (hc : hexUnit? '0' '0' x y = some c.toNat) (h : c.toNat < 0x20) :
      Escaped c ['\\', 'u', '0', '0', x, y]

theorem isPlain_hexDigit : ∀ n < 16, isPlain (hexDigit n) = true := by decide

theorem hexUnit?_hexDigit : ∀ n < 0x20,
    hexUnit? '0' '0' (hexDigit (n / 16)) (hexDigit (n % 16)) = some n := by decide

theorem escaped_escapeChar (c : Char) : Escaped c (escapeChar c) := by
  unfold escapeChar
  split
  · exact .letter (by decide) rfl
  · exact .letter (by decide) rfl
  · exact .letter (by decide) rfl
  · exact .letter (by decide) rfl
  · exact .letter (by decide) rfl
  · exact .letter (by decide) rfl
  · exact .letter (by decide) rfl
  · next hq hb _ _ _ _ _ =>
    split
    · next h =>
      exact .unit (isPlain_hexDigit _ (by omega)) (isPlain_hexDigit _ (by omega))
        (hexUnit?_hexDigit _ h) h
    · next h =>
      refine .plain ?_
      simp only [isPlain, Bool.and_eq_true, decide_eq_true_eq]
      exact ⟨⟨hq, hb⟩, Nat.not_lt.1 h⟩

section
variable {e : List Char} {read : List Char} {before : List Tok}

theorem step?_plain (h : isPlain c = true) :
    Reader.step? ⟨before, .string read⟩ c = some ⟨before, .string (c :: read)⟩ := by
  simp only [isPlain, Bool.and_eq_true, decide_eq_true_eq] at h
  simp [Reader.step?, h.1.1, h.1.2, Nat.not_lt.2 h.2]

/-- No part of what stands for a character ends the literal. -/
theorem Escaped.foldlM (h : Escaped c e) : e.foldlM Reader.step? ⟨before, .string read⟩ =
    some ⟨before, .string (e.reverse ++ read)⟩ := by
  cases h with
  | plain h => simp [step?_plain h]
  | letter _ h => rfl
  | unit hx hy =>
    show List.foldlM _ (⟨before, .string ('0' :: '0' :: 'u' :: '\\' :: read)⟩ : Reader) _ = _
    simp [step?_plain hx, step?_plain hy]

/-- The piece that is read for a character. -/
def Escaped.piece (c : Char) : List Char → Char ⊕ Nat
  | [_] | [_, _] => .inl c
  | _ => .inr c.toNat

theorem Escaped.pieces? (h : Escaped c e) (cs : List Char) :
    Json.pieces? (e ++ cs) = (Json.pieces? cs).map (Escaped.piece c e :: ·) := by
  cases h with
  | plain h =>
    simp only [isPlain, Bool.and_eq_true, decide_eq_true_eq] at h
    rw [List.singleton_append, Json.pieces?.eq_def]
    split
    · next he => cases he
    · next he => cases he; exact absurd rfl h.1.2
    · next he => cases he; exact absurd rfl h.1.2
    · next he =>
      cases he
      rw [if_neg h.1.2]
      cases Json.pieces? cs <;> rfl
  | letter hu h =>
    rw [List.cons_append, List.singleton_append, Json.pieces?.eq_def]
    split
    · next he => cases he
    · next he => cases he; exact absurd rfl hu
    · next he =>
      cases he
      rw [h]
      cases Json.pieces? cs <;> rfl
    · next hc he =>
      cases he
      exact (hc _ _ rfl rfl).elim
  | unit hx hy hc h =>
    simp only [List.cons_append, List.nil_append]
    rw [Json.pieces?, hc]
    cases Json.pieces? cs <;> rfl

theorem Escaped.joinPieces? (h : Escaped c e) (ps : List (Char ⊕ Nat)) :
    Json.joinPieces? (Escaped.piece c e :: ps) = (Json.joinPieces? ps).map (c :: ·) := by
  cases h with
  | plain | letter => rfl
  | unit _ _ _ h =>
    have hn : c.toNat < 0xd800 := Nat.lt_trans h (by decide)
    cases ps with
    | nil => simp [Escaped.piece, Json.joinPieces?, hn]
    | cons p ps => simp [Escaped.piece, Json.joinPieces?, hn]

end

/-- **A string literal is read back.** -/
theorem closed_renderString (s : String) : Closed (renderString s) [.str (some s)] := by
  have hread : ∀ (cs read : List Char) (before : List Tok),
      (cs.flatMap escapeChar).foldlM Reader.step? ⟨before, .string read⟩ =
        some ⟨before, .string ((cs.flatMap escapeChar).reverse ++ read)⟩ := by
    intro cs
    induction cs with
    | nil => exact fun _ _ => rfl
    | cons c cs ih =>
      intro read before
      rw [List.flatMap_cons, List.foldlM_append, (escaped_escapeChar c).foldlM]
      show List.foldlM _ _ _ = _
      rw [ih, List.reverse_append, List.append_assoc]
  have hpieces : ∀ cs : List Char,
      (pieces? (cs.flatMap escapeChar)).bind joinPieces? = some cs := by
    intro cs
    induction cs with
    | nil => rfl
    | cons c cs ih =>
      obtain ⟨ps, hps, hjoin⟩ := Option.bind_eq_some_iff.1 ih
      rw [List.flatMap_cons, (escaped_escapeChar c).pieces?, hps]
      show joinPieces? _ = _
      rw [(escaped_escapeChar c).joinPieces?, hjoin]
      rfl
  intro before
  obtain ⟨ps, hps, hjoin⟩ := Option.bind_eq_some_iff.1 (hpieces s.toList)
  rw [renderString, List.foldlM_append]
  show (List.foldlM Reader.step? (⟨before, .string []⟩ : Reader) _ >>= _) = _
  rw [hread]
  simp [Reader.step?, hps, hjoin]

/-! ## Values -/

mutual

/-- The tokens of a value. -/
def tokens : Json → List Tok
  | null => [.null]
  | bool b => [.bool b]
  | num n => [.num n]
  | str s => [.str s]
  | arr [] => [.openArr, .closeArr]
  | arr (j :: js) => .openArr :: (tokens j ++ (itemTokens js ++ [Tok.closeArr]))
  | obj [] => [.openObj, .closeObj]
  | obj ((k, j) :: fs) =>
    .openObj :: .str k :: .colon :: (tokens j ++ (fieldTokens fs ++ [.closeObj]))

/-- The tokens of the items after the first. -/
def itemTokens : List Json → List Tok
  | [] => []
  | j :: js => .comma :: (tokens j ++ itemTokens js)

/-- The tokens of the fields after the first. -/
def fieldTokens : List (Option String × Json) → List Tok
  | [] => []
  | (k, j) :: fs => .comma :: .str k :: .colon :: (tokens j ++ fieldTokens fs)

end

mutual

/-- Values of which all strings denote texts and all numbers consist of digits. -/
def Written : Json → Prop
  | null | bool _ => True
  | num n => n.Regular
  | str s => s.isSome = true
  | arr js => AllWritten js
  | obj fs => FieldsWritten fs

def AllWritten : List Json → Prop
  | [] => True
  | j :: js => j.Written ∧ AllWritten js

def FieldsWritten : List (Option String × Json) → Prop
  | [] => True
  | (k, j) :: fs => k.isSome = true ∧ j.Written ∧ FieldsWritten fs

end

theorem closed_str {s : Option String} (h : s.isSome = true) :
    Closed (renderString (s.getD "")) [.str s] := by
  obtain ⟨s, rfl⟩ := Option.isSome_iff_exists.1 h
  exact closed_renderString s

theorem separated_renderItems (level : Nat) (js : List Json) (cs : List Char) :
    ∃ c b, renderItems level js ++ '\n' :: cs = c :: b ∧ isSeparator c = true := by
  cases js with
  | nil => exact ⟨_, _, rfl, rfl⟩
  | cons j js => exact ⟨',', _, rfl, rfl⟩

theorem separated_renderFields (level : Nat) (fs : List (Option String × Json)) (cs : List Char) :
    ∃ c b, renderFields level fs ++ '\n' :: cs = c :: b ∧ isSeparator c = true := by
  cases fs with
  | nil => exact ⟨_, _, rfl, rfl⟩
  | cons f fs => exact ⟨',', _, rfl, rfl⟩

/-- The name of a field. -/
theorem closed_name {k : Option String} (h : k.isSome = true) :
    Closed (renderString (k.getD "") ++ [':', ' ']) [.str k, .colon] :=
  (closed_str h).append (b := [':', ' ']) (t := [.colon]) fun _ => rfl

mutual

/-- **A printed value is read as its tokens.** -/
theorem spells_renderAt : ∀ (level : Nat) (j : Json), j.Written → Spells (renderAt level j) j.tokens
  | _, null, _ => spells_null
  | _, bool true, _ => spells_bool true
  | _, bool false, _ => spells_bool false
  | _, num _, h => spells_num h
  | _, str _, h => (closed_str h).spells
  | _, arr [], _ => Closed.spells fun _ => rfl
  | level, arr (j :: js), h => by
    have hopen : Closed ('[' :: newline (level + 1)) [.openArr] :=
      Closed.append (a := ['[']) (s := [.openArr]) (fun _ => rfl) (closed_newline _)
    have hend : Closed (newline level ++ [']']) [.closeArr] :=
      (closed_newline level).append (s := []) fun _ => rfl
    have hrest := closed_renderItems (level + 1) js h.2 hend
    obtain ⟨c, b, hb, hc⟩ := separated_renderItems (level + 1) js _
    rw [hb] at hrest
    have hall := hopen.append ((spells_renderAt (level + 1) j h.1).append hrest hc)
    rw [← hb] at hall
    simpa [renderAt, tokens, newline] using hall.spells
  | _, obj [], _ => Closed.spells fun _ => rfl
  | level, obj ((k, j) :: fs), h => by
    have hopen : Closed ('{' :: newline (level + 1)) [.openObj] :=
      Closed.append (a := ['{']) (s := [.openObj]) (fun _ => rfl) (closed_newline _)
    have hend : Closed (newline level ++ ['}']) [.closeObj] :=
      (closed_newline level).append (s := []) fun _ => rfl
    have hrest := closed_renderFields (level + 1) fs h.2.2 hend
    obtain ⟨c, b, hb, hc⟩ := separated_renderFields (level + 1) fs _
    rw [hb] at hrest
    have hall := hopen.append ((closed_name h.1).append
      ((spells_renderAt (level + 1) j h.2.1).append hrest hc))
    rw [← hb] at hall
    simpa [renderAt, tokens, newline] using hall.spells

/-- Items are read up to the line behind them. -/
theorem closed_renderItems : ∀ (level : Nat) (js : List Json), AllWritten js →
    ∀ {cs : List Char} {ts : List Tok}, Closed ('\n' :: cs) ts →
      Closed (renderItems level js ++ '\n' :: cs) (itemTokens js ++ ts)
  | _, [], _, _, _, h => h
  | level, j :: js, hj, cs, ts, h => by
    have hopen : Closed (',' :: newline level) [.comma] :=
      Closed.append (a := [',']) (s := [.comma]) (fun _ => rfl) (closed_newline _)
    have hrest := closed_renderItems level js hj.2 h
    obtain ⟨c, b, hb, hc⟩ := separated_renderItems level js cs
    rw [hb] at hrest
    have hall := hopen.append ((spells_renderAt level j hj.1).append hrest hc)
    rw [← hb] at hall
    simpa [renderItems, itemTokens] using hall

/-- Fields are read up to the line behind them. -/
theorem closed_renderFields : ∀ (level : Nat) (fs : List (Option String × Json)),
    FieldsWritten fs → ∀ {cs : List Char} {ts : List Tok}, Closed ('\n' :: cs) ts →
      Closed (renderFields level fs ++ '\n' :: cs) (fieldTokens fs ++ ts)
  | _, [], _, _, _, h => h
  | level, (k, j) :: fs, hf, cs, ts, h => by
    have hopen : Closed (',' :: newline level) [.comma] :=
      Closed.append (a := [',']) (s := [.comma]) (fun _ => rfl) (closed_newline _)
    have hrest := closed_renderFields level fs hf.2.2 h
    obtain ⟨c, b, hb, hc⟩ := separated_renderFields level fs cs
    rw [hb] at hrest
    have hall := hopen.append ((closed_name hf.1).append
      ((spells_renderAt level j hf.2.1).append hrest hc))
    rw [← hb] at hall
    simpa [renderFields, fieldTokens] using hall

end

/-! ## From tokens to values -/

section
variable {p q : Parser} {x : Tok} {xs ys : List Tok} {stack : List Open} {next : Next}

theorem foldlM_cons (h : p.step? x = some q) :
    (x :: xs).foldlM Parser.step? p = xs.foldlM Parser.step? q := by
  rw [List.foldlM_cons, h]
  rfl

theorem foldlM_append (h : xs.foldlM Parser.step? p = some q) :
    (xs ++ ys).foldlM Parser.step? p = ys.foldlM Parser.step? q := by
  rw [List.foldlM_append, h]
  rfl

theorem foldlM_singleton : [x].foldlM Parser.step? p = p.step? x := by
  rw [List.foldlM_cons]
  cases p.step? x <;> rfl

/-- A place where a value may begin. -/
def Next.IsValue (next : Next) : Prop :=
  next = .value ∨ next = .item

/-- Tokens that a value may begin with. -/
def Tok.opens : Tok → Bool
  | null | bool _ | num _ | str _ | openArr | openObj => true
  | _ => false

theorem step?_begin (hn : next.IsValue) (x : Tok) (hx : x.opens = true) :
    Parser.step? ⟨stack, next⟩ x = Parser.begin? stack x := by
  rcases hn with rfl | rfl
  · rfl
  · have he : Parser.end? stack x = none := by
      unfold Parser.end?
      split
      · cases hx
      · cases hx
      · rfl
    show (Parser.end? stack x).orElse _ = _
    rw [he]
    rfl

end

mutual

/-- **The tokens of a value are taken as the value.** -/
theorem foldlM_tokens : ∀ (j : Json) {stack : List Open} {next : Next}, next.IsValue →
    j.tokens.foldlM Parser.step? ⟨stack, next⟩ = Parser.give? stack j
  | null, _, _, hn | bool _, _, _, hn | num _, _, _, hn | str _, _, _, hn => by
    rw [tokens, foldlM_singleton, step?_begin hn _ rfl]
    rfl
  | arr [], stack, _, hn => by
    rw [tokens, foldlM_cons (step?_begin hn .openArr rfl), foldlM_singleton]
    show (Parser.give? stack (arr [])).orElse (fun _ => none) = _
    cases Parser.give? stack (arr []) <;> rfl
  | arr (j :: js), stack, _, hn => by
    rw [tokens, foldlM_cons (step?_begin hn .openArr rfl),
      foldlM_append (foldlM_tokens j (.inr rfl))]
    exact foldlM_itemTokens js [j]
  | obj [], stack, _, hn => by
    rw [tokens, foldlM_cons (step?_begin hn .openObj rfl), foldlM_singleton]
    show (Parser.give? stack (obj [])).orElse (fun _ => none) = _
    cases Parser.give? stack (obj []) <;> rfl
  | obj ((k, j) :: fs), stack, _, hn => by
    rw [tokens, foldlM_cons (step?_begin hn .openObj rfl), foldlM_cons rfl, foldlM_cons rfl,
      foldlM_append (foldlM_tokens j (.inl rfl))]
    exact foldlM_fieldTokens fs [(k, j)]

theorem foldlM_itemTokens : ∀ (js before : List Json) {stack : List Open},
    (itemTokens js ++ [Tok.closeArr]).foldlM Parser.step? ⟨.arr before :: stack, .more⟩ =
      Parser.give? stack (.arr (before.reverse ++ js))
  | [], before, _ => by
    rw [itemTokens, List.nil_append, foldlM_singleton, List.append_nil]
    rfl
  | j :: js, before, _ => by
    rw [itemTokens, List.cons_append, foldlM_cons rfl, List.append_assoc,
      foldlM_append (foldlM_tokens j (.inl rfl))]
    refine (foldlM_itemTokens js (j :: before)).trans ?_
    rw [List.reverse_cons, List.append_assoc]
    rfl

theorem foldlM_fieldTokens : ∀ (fs before : List (Option String × Json)) {stack : List Open},
    (fieldTokens fs ++ [Tok.closeObj]).foldlM Parser.step? ⟨.obj before none :: stack, .more⟩ =
      Parser.give? stack (.obj (before.reverse ++ fs))
  | [], before, _ => by
    rw [fieldTokens, List.nil_append, foldlM_singleton, List.append_nil]
    rfl
  | (k, j) :: fs, before, _ => by
    rw [fieldTokens, List.cons_append, foldlM_cons rfl, List.cons_append, foldlM_cons rfl,
      List.cons_append, foldlM_cons rfl, List.append_assoc,
      foldlM_append (foldlM_tokens j (.inl rfl))]
    refine (foldlM_fieldTokens fs ((k, j) :: before)).trans ?_
    rw [List.reverse_cons, List.append_assoc]
    rfl

end

/-- **Printed values are read back.** -/
theorem parse?_render {j : Json} (h : j.Written) : parse? j.render = some j := by
  obtain ⟨r, hr, hclose⟩ := spells_renderAt 0 j h []
  have ht : tokens? (renderAt 0 j) = some j.tokens := by
    unfold tokens?
    show (List.foldlM Reader.step? ⟨[], .between⟩ _ >>= _) = _
    rw [hr]
    simp [hclose]
  unfold parse?
  rw [render, String.toList_ofList, ht]
  show (List.foldlM Parser.step? ⟨[], .value⟩ _ >>= _) = _
  rw [foldlM_tokens j (.inl rfl)]
  rfl

end Json

end Naskah
