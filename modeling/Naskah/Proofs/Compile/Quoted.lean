/-
  Strings that hold any text.  Between quotes of either kind every text can be written, with a
  backslash in front of what would not be read as itself and nowhere else (`Quote.masked`).  Such a
  literal joins the run as one string (`takeAll_literal`), and a program that stores it stores
  the text (`compile_literal`).
-/
import Naskah.Proofs.Compile.Rendered

namespace Naskah

open Scan Naskah.Tree

namespace Quote

/-- A character between quotes.  Line breaks and quotes of the other kind stand for themselves. -/
def mask (q : Quote) (c : Char) : List Char :=
  if c = '\\' ∨ c = q.char ∨ c = '$' then ['\\', c]
  else if c = endMark then ['\\', '0']
  else [c]

/-- A text between quotes. -/
def masked (q : Quote) (t : String) : List Char :=
  t.toList.flatMap q.mask

/-- A text with its quotes. -/
def literal (q : Quote) (t : String) : String :=
  String.ofList (q.char :: (q.masked t ++ [q.char]))

variable (q : Quote)

theorem escaped_mask (c : Char) : Cursor.Escaped q c (q.mask c) := by
  unfold mask
  split_ifs with h he
  · rcases h with rfl | rfl | rfl
    · exact .coded rfl
    · cases q <;> exact .coded rfl
    · exact .coded rfl
  · subst he; exact .coded rfl
  · rw [not_or, not_or] at h
    exact .plain he h.2.1 h.1 h.2.2

theorem count_mask (c : Char) : (q.mask c).count '\n' = [c].count '\n' := by
  unfold mask
  split_ifs with h he
  · exact List.count_cons_of_ne (by decide)
  · subst he; rfl
  · rfl

/-- A text breaks its line where it is written as it does itself. -/
theorem count_masked (t : String) : (q.masked t).count '\n' = t.toList.count '\n' := by
  rw [masked]
  induction t.toList with
  | nil => rfl
  | cons c cs ih =>
    rw [List.flatMap_cons, List.count_append, count_mask, ih, ← List.count_append,
      List.singleton_append]

/-- **Every text is read back from between its quotes.** -/
theorem segment_masked (t : String) (rest : List Char) (line : UInt32) :
    (Cursor.mk (q.masked t ++ q.char :: rest) line).segment q.char =
      (.closed t, Cursor.mk rest (line + Cursor.newlines t.toList)) := by
  rw [masked, Cursor.segment_quote q.escaped_mask, ← masked, Cursor.newlines, count_masked]
  rfl

end Quote

namespace Desk

variable {d : Desk} {line : UInt32} {rest : List Char}

/-- A literal joins the run as one string, which begins on the line of its first quote. -/
theorem takeAll_literal (hd : d.nesting.inString = false) (q : Quote) (t : String)
    (hr : rest.head? ≠ some q.char) :
    d.takeAll ⟨(q.literal t).toList ++ rest, line⟩ =
      (d.gather [.string ⟨[.text t], line⟩]).takeAll ⟨rest, line + Cursor.newlines t.toList⟩ := by
  have hsplit : (q.literal t).toList ++ rest = q.char :: (q.masked t ++ q.char :: rest) := by
    simp [Quote.literal]
  have hquote : ¬ [q.char, q.char] <+: q.masked t ++ q.char :: rest := by
    refine Cursor.not_two_quotes_flatMap q.escaped_mask (fun hp => ?_) t.toList
    obtain ⟨more, hmore⟩ := (List.cons_prefix_cons.1 hp).2
    exact hr (by rw [← hmore]; rfl)
  have hparts : closingParts [] t = [.text t] := by simp [closingParts]
  rw [hsplit, takeAll_next hd (Cursor.next_quote q line hquote) rfl]
  refine takeAll_closed rfl rfl (q.segment_masked t rest line) ?_
  rw [← hparts]
  rfl

/-- The desk when an entry point has been announced. -/
def atEntry : Desk :=
  { functions := ⟨[entryName]⟩, hasEntry := true }

/-- The desk in the body of the entry point. -/
def inEntry : Desk :=
  { atEntry with
    nesting := [.curly]
    labels := ⟨1⟩
    blocks := [.function { role := .entry ⟨0⟩, params := [], names := {}, line := 1 }] }

/-- The head of an entry point at the beginning of a program. -/
theorem takeAll_entryHead (hr : Apart rest) :
    ({} : Desk).takeAll ⟨"utama()".toList ++ (spaced "\x7b" ++ rest), 1⟩ =
      inEntry.takeAll ⟨rest, 1⟩ := by
  let more := spaced "\x7b" ++ rest
  have hchars : ∀ c ∈ "utama".toList, isWordChar c = true := List.all_eq_true.1 rfl
  have hends : Ends "utama".toList ('(' :: (")".toList ++ more)) :=
    .of_word (by simp) hchars (by rintro _ ⟨⟩; rfl)
  have hclose : ((atEntry.gather [.keyword .entry]).opened .entry).take (.bracket .closeRound)
      ⟨more, 1⟩ = .ok { atEntry with header := some (.entry 1) } := by
    have hfollows : (Cursor.mk more 1).search "\x7b" = .ok () :=
      Cursor.search_spaced 1 (.bracket .openCurly) rfl rfl hr
    change ((Cursor.mk more 1).search "\x7b" >>= fun _ => _) = _
    rw [hfollows]
    rfl
  calc ({} : Desk).takeAll ⟨"utama".toList ++ '(' :: (")".toList ++ more), 1⟩
    _ = (gather {} [.keyword .entry]).takeAll ⟨'(' :: (")".toList ++ more), 1⟩ :=
      takeAll_next rfl (Cursor.next_word (by simp) hchars rfl hends) rfl
    _ = ((atEntry.gather [.keyword .entry]).opened .entry).takeAll ⟨")".toList ++ more, 1⟩ :=
      takeAll_next rfl (Cursor.next_openRound _ 1) rfl
    _ = ({ atEntry with header := some (.entry 1) } : Desk).takeAll ⟨more, 1⟩ :=
      takeAll_next rfl (spelled_closeRound _ 1 (.cons rfl _)) hclose
    _ = inEntry.takeAll ⟨rest, 1⟩ :=
      takeAll_spaced (.of_symbol (.bracket .openCurly) rfl rfl) rfl hr rfl

/-- The beginning of a declaration, up to its value. -/
theorem takeAll_declares (hd : d.nesting.inString = false) {x : String}
    (hx : isLegalName x = true) :
    d.takeAll ⟨spaced "variabel" ++ (spaced x ++ (spaced "=" ++ ' ' :: rest)), line⟩ =
      (d.gather [.keyword .var, .identifier ⟨x, line⟩, .punctuation .assign]).takeAll
        ⟨rest, line⟩ := by
  have hassign : Spelled "=".toList fun _ => .punctuation .assign :=
    .of_symbol (.punctuation .assign) rfl rfl
  have hvar : Spelled "variabel".toList fun _ => .keyword .var := .of_keyword rfl fun _ => rfl
  rw [takeAll_joined hvar hd (apart_spaced _ _) rfl,
    takeAll_joined (d := d.gather _) (spelled_name hx) hd (apart_spaced _ _) rfl, gather_gather,
    takeAll_joined (d := d.gather _) hassign hd (.cons rfl _) rfl, gather_gather]
  exact takeAll_blank rfl hd

/-- A string without holes is one constant. -/
theorem expression_string (d : Desk) (line begun : UInt32) (t : String) :
    d.expression line [.string ⟨[.text t], begun⟩] = .ok [.op (.loadConst (.string t))] := by
  have hcode : Expression.stringCode ⟨[.text t], begun⟩ = [.op (.loadConst (.string t))] := by
    simp [Expression.stringCode, Expression.isText, Expression.partText, String.join]
  rw [expression, Expression.compile, Expression.items_simple _ _ _ _ _ rfl rfl (by simp) (by simp)
    (.inl rfl)]
  change (Expression.items _ line 0 [.operand (.string ⟨[.text t], begun⟩)] [] >>= _) = _
  rw [Expression.items_nil, Expression.complete_of_isComplete rfl, ← hcode]
  rfl

/-- The code that stores a text under a name. -/
def storing (t : String) : List Asm :=
  [.op (.loadConst (.string t)), .op (.storeName "s")]

/-- The desk after an entry point with the given body. -/
def afterEntry (content : List Asm) : Desk :=
  { atEntry with
    labels := ⟨1⟩
    code := [.op (.loadName "__name__"), .op (.loadConst (.string "__main__")),
      .op (.compare .eq), .op (.jumpIfFalse ⟨0⟩)] ++ content ++ [.mark ⟨0⟩] }

/-- The end of a program whose entry point declares a name. -/
theorem takeAll_closing (t : String) (line : UInt32) {cs : List Char} (he : atEnd cs = true) :
    (inEntry.gather [.keyword .var, .identifier ⟨"s", 1⟩, .punctuation .assign,
        .string ⟨[.text t], 1⟩]).takeAll ⟨';' :: ' ' :: '}' :: cs, line⟩ =
      .ok (afterEntry (storing t), ⟨cs, line⟩) := by
  let names : Names := ⟨[("s", ⟨.var, .any, 1⟩)]⟩
  let tokens : List Token :=
    [.keyword .var, .identifier ⟨"s", 1⟩, .punctuation .assign, .string ⟨[.text t], 1⟩]
  let stored : Desk := { inEntry with
    blocks := [.function
      { role := .entry ⟨0⟩, params := [], names, line := 1, content := storing t }] }
  have hstatement : inEntry.statement line tokens = .ok (storing t, inEntry.setNames names) := by
    change (inEntry.expression line [.string ⟨[.text t], 1⟩] >>= fun value => _) = _
    rw [expression_string]
    rfl
  have hend : (inEntry.gather tokens).take (.punctuation .semicolon) ⟨' ' :: '}' :: cs, line⟩ =
      .ok stored := by
    change (inEntry.statement line tokens >>= fun r => r.2.emit r.1) = _
    rw [hstatement]
    rfl
  calc (inEntry.gather tokens).takeAll ⟨';' :: ' ' :: '}' :: cs, line⟩
    _ = stored.takeAll ⟨' ' :: '}' :: cs, line⟩ :=
      takeAll_next rfl (Cursor.next_alone (s := ";") rfl rfl rfl rfl _ line) hend
    _ = stored.takeAll ⟨'}' :: cs, line⟩ := takeAll_blank rfl rfl
    _ = (afterEntry (storing t)).takeAll ⟨cs, line⟩ :=
      takeAll_next rfl (Cursor.next_closeCurly cs line) rfl
    _ = _ := takeAll_atEnd rfl he line

end Desk

/-- **Every text can be stored**, between quotes of either kind.  It is read back up to the quote
    that closes it, and the program that gives it to a name stores that text and nothing else. -/
theorem compile_literal (q : Quote) (t : String) :
    (∀ rest line, (Cursor.mk (q.masked t ++ q.char :: rest) line).segment q.char =
      (.closed t, ⟨rest, line + Cursor.newlines t.toList⟩)) ∧
    compile ("utama() \x7b variabel s = " ++ q.literal t ++ "; \x7d") =
      .ok ⟨[.loadName "__name__", .loadConst (.string "__main__"), .compare .eq, .jumpIfFalse 6,
        .loadConst (.string t), .storeName "s", .loadConst .null, .ret], []⟩ := by
  refine ⟨q.segment_masked t, ?_⟩
  obtain ⟨cs, hcs, he⟩ :=
    toList_withEndMark ("utama() \x7b variabel s = " ++ q.literal t ++ "; \x7d")
  have hquote : ("; \x7d".toList ++ cs).head? ≠ some q.char := by cases q <;> simp [Quote.char]
  have hsplit : ("utama() \x7b variabel s = " ++ q.literal t ++ "; \x7d").toList ++ cs =
      "utama()".toList ++ (spaced "\x7b" ++ (spaced "variabel" ++ (spaced "s" ++ (spaced "=" ++
        ' ' :: ((q.literal t).toList ++ ("; \x7d".toList ++ cs)))))) := by
    rw [String.toList_append, String.toList_append, List.append_assoc, List.append_assoc]
    rfl
  rw [compile, compileBuffer, Cursor.start, hcs, hsplit, Desk.takeAll_entryHead (apart_spaced _ _),
    Desk.takeAll_declares rfl rfl, Desk.takeAll_literal rfl q t hquote, Desk.gather_gather]
  exact congrArg (· >>= _) (Desk.takeAll_closing t _ he)

end Naskah
