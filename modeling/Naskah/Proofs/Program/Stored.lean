/-
  Stored programs.  What is read from a stored program is the program with every double read back
  from its literal (`load?_store?`); so a program without doubles is read as it was written
  (`store?_round_trip`).
-/
import Naskah.Program.Json
import Naskah.Proofs.Decimal.Range
import Naskah.Proofs.Json.Printed

namespace Naskah

/-! ## Lists that are taken element by element -/

section
variable {α β γ : Type} {f : α → Option β} {g : β → Option γ} {k : α → Option γ} {xs : List α}

theorem mapM_eq_none_iff : xs.mapM f = none ↔ ∃ x ∈ xs, f x = none := by
  induction xs with
  | nil => simp
  | cons x xs ih => cases hx : f x <;> cases hs : xs.mapM f <;> simp_all

theorem isSome_mapM_iff : (xs.mapM f).isSome = true ↔ ∀ x ∈ xs, (f x).isSome = true := by
  simp only [Option.isSome_iff_ne_none, ne_eq, mapM_eq_none_iff, not_exists, not_and]

/-- What a second function gives on the results of a first one. -/
theorem mapM_mapM {ys : List β} (h : xs.mapM f = some ys)
    (hk : ∀ x ∈ xs, ∀ y, f x = some y → g y = k x) : ys.mapM g = xs.mapM k := by
  induction xs generalizing ys with
  | nil =>
    obtain rfl : [] = ys := by simpa using h
    rfl
  | cons x xs ih =>
    rw [List.mapM_cons] at h
    obtain ⟨y, hy, h⟩ := Option.bind_eq_some_iff.1 h
    obtain ⟨zs, hz, h⟩ := Option.bind_eq_some_iff.1 h
    obtain rfl : y :: zs = ys := by simpa using h
    rw [List.mapM_cons, List.mapM_cons, hk x List.mem_cons_self y hy,
      ih hz fun x hx => hk x (List.mem_cons_of_mem _ hx)]

/-- A list is taken as its image if each element is. -/
theorem mapM_map {h : α → γ} {p : α → β} (hg : ∀ x ∈ xs, g (p x) = some (h x)) :
    (xs.map p).mapM g = some (xs.map h) := by
  induction xs with
  | nil => rfl
  | cons x xs ih =>
    rw [List.map_cons, List.mapM_cons, hg x List.mem_cons_self,
      ih fun x hx => hg x (List.mem_cons_of_mem _ hx)]
    rfl

theorem mapM_eq_self {f : α → Option α} (h : ∀ x ∈ xs, f x = some x) : xs.mapM f = some xs := by
  simpa using mapM_map (h := id) (p := id) h

end

namespace Json

variable {j : Json} {js : List Json}

theorem allWritten_of_mapM {α : Type} {f : α → Option Json} {xs : List α}
    (hx : ∀ x ∈ xs, ∀ j, f x = some j → j.Written) (h : xs.mapM f = some js) :
    AllWritten js := by
  induction xs generalizing js with
  | nil =>
    obtain rfl : [] = js := by simpa using h
    trivial
  | cons x xs ih =>
    rw [List.mapM_cons] at h
    obtain ⟨j, hj, h⟩ := Option.bind_eq_some_iff.1 h
    obtain ⟨ks, hk, h⟩ := Option.bind_eq_some_iff.1 h
    obtain rfl : j :: ks = js := by simpa using h
    exact ⟨hx x List.mem_cons_self j hj, ih (fun x hx' => hx x (List.mem_cons_of_mem _ hx')) hk⟩

theorem allWritten_map {α : Type} {f : α → Json} {xs : List α} (h : ∀ x ∈ xs, (f x).Written) :
    AllWritten (xs.map f) := by
  induction xs with
  | nil => trivial
  | cons x xs ih =>
    exact ⟨h x List.mem_cons_self, ih fun x hx => h x (List.mem_cons_of_mem _ hx)⟩

/-! ## Integers -/

theorem int?_ofInt (n : Int) : int? (.num (.ofInt n)) = some n := by
  have hz : ¬(n < 0 ∧ n.natAbs = 0) := by omega
  have hn : (if n < 0 then -(n.natAbs : Int) else n.natAbs) = n := by split <;> omega
  simp only [int?, Numeral.toInt?, Numeral.ofInt, ne_eq, not_true_eq_false, false_or,
    decide_eq_true_eq, if_neg hz, hn]

theorem int64?_ofInt (n : Int64) : int64? (.num (.ofInt n.toInt)) = some n := by
  have hl := n.le_toInt
  have hh := n.toInt_lt
  have hf : fitsInt64 n.toInt = true := by
    simp only [fitsInt64, Bool.and_eq_true, decide_eq_true_eq]
    omega
  simp [Json.int64?, int?_ofInt, Naskah.int64?, hf]

theorem map_natUpTo?_ofNat {α : Type} (f : Nat → α) (max n : Nat) :
    (natUpTo? max (ofNat n)).map f = if decide (n ≤ max) = true then some (f n) else none := by
  by_cases h : n ≤ max <;> simp [natUpTo?, ofNat, int?_ofInt, h]

/-! ## Records -/

theorem field?_of_mem {fs : List (String × Json)} {f : String × Json}
    (hn : (fs.map Prod.fst).Nodup) (hf : f ∈ fs) : field? fs f.1 = some f.2 := by
  have hs : fs.filter (fun g => g.1 = f.1) = [f] := by
    induction fs with
    | nil => cases hf
    | cons g fs ih =>
      obtain ⟨hg, hn⟩ := List.nodup_cons.1 hn
      rcases List.mem_cons.1 hf with rfl | hf
      · rw [List.filter_cons_of_pos (by simp), List.filter_eq_nil_iff.2]
        intro a ha he
        exact hg (of_decide_eq_true he ▸ List.mem_map_of_mem ha)
      · rw [List.filter_cons_of_neg, ih hn hf]
        intro he
        exact hg (of_decide_eq_true he ▸ List.mem_map_of_mem hf)
  rw [field?, hs]

/-- The fields of a record are found under their names. -/
theorem fields?_record {fs : List (String × Json)} (hn : (fs.map Prod.fst).Nodup) :
    fields? (fs.map Prod.fst) (record fs) = some (fs.map Prod.snd) := by
  have hs : (fs.map fun f => (some f.1, f.2)).mapM
      (fun f : Option String × Json => f.1.map fun name => (name, f.2)) = some (fs.map id) :=
    mapM_map fun _ _ => rfl
  rw [List.map_id] at hs
  rw [record, fields?, hs]
  exact mapM_map fun f hf => field?_of_mem hn hf

end Json

open Json

theorem Operation.ofName?_name (op : Operation) : ofName? op.name = some op := by
  cases op <;> decide

theorem Comparison.ofName?_name (c : Comparison) : ofName? c.name = some c := by
  cases c <;> decide

theorem TypeName.ofName?_name (t : TypeName) : ofName? t.name = some t := by
  cases t <;> decide

theorem Numeral.regular_ofInt (n : Int) : (Numeral.ofInt n).Regular :=
  fun _ hc => nomatch hc

theorem Numeral.regular_ofFloat (x : Float) : (Numeral.ofFloat x).Regular := by
  intro c hc
  rw [ofFloat] at hc
  generalize (if (Binary64.ofFloat x).m = 0 then (⟨0, 0⟩ : Decimal) else _) = d at hc
  split at hc
  · rcases List.mem_append.1 hc with hc | hc
    · rw [List.eq_of_mem_replicate hc]
      rfl
    · exact isDigit_toDigits _ c hc
  · split at hc
    · rename_i d ds hd
      exact isDigit_toDigits _ c (hd ▸ List.mem_cons_of_mem d hc)
    · cases hc

namespace Value

/-- Whether the place of a chunk is a number of 32 bits. -/
def fits : Value → Bool
  | chunk i | function i _ => i ≤ 4294967295
  | _ => true

/-- The value that is read where this one was written. -/
def reread? : Value → Option Value
  | float x => if x.isFinite then (Numeral.ofFloat x).toFloat?.map float else none
  | v => if v.fits then some v else none

variable {v : Value} {j : Json}

theorem toJson?_eq_none_iff : v.toJson? = none ↔ v.kind = .function := by
  cases v <;> simp [toJson?, kind]

theorem kind_eq_function_iff :
    v.kind = .function ↔ (∃ k name, v = function k name) ∨ ∃ b, v = builtin b := by
  cases v with
  | builtin b => exact ⟨fun _ => .inr ⟨b, rfl⟩, fun _ => rfl⟩
  | _ => simp [kind]

theorem written_toJson? (h : v.toJson? = some j) : j.Written := by
  cases v with
  | float x =>
    cases h
    split
    · exact ⟨rfl, Numeral.regular_ofFloat x, trivial⟩
    · exact ⟨rfl, trivial, trivial⟩
  | int n | chunk i =>
    cases h
    exact ⟨rfl, Numeral.regular_ofInt _, trivial⟩
  | null =>
    cases h
    rfl
  | bool b =>
    cases h
    exact ⟨rfl, trivial, trivial⟩
  | string s =>
    cases h
    exact ⟨rfl, rfl, trivial⟩
  | function | builtin => cases h

theorem ofJson?_toJson? (h : v.toJson? = some j) : ofJson? j = v.reread? := by
  cases v with
  | null =>
    cases h
    rfl
  | int n =>
    cases h
    exact congrArg (Option.map int) (int64?_ofInt n)
  | float x =>
    cases h
    by_cases hx : x.isFinite
    · rw [reread?, if_pos hx, if_pos hx]
      rfl
    · rw [reread?, if_neg hx, if_neg hx]
      rfl
  | bool b =>
    cases h
    rfl
  | string s =>
    cases h
    rfl
  | chunk i =>
    cases h
    exact map_natUpTo?_ofNat chunk _ i
  | function | builtin => cases h

theorem reread?_eq_self (hf : v.fits = true) (hx : ∀ x, v ≠ float x) : v.reread? = some v := by
  cases v with
  | float x => exact absurd rfl (hx x)
  | _ => exact if_pos (e := none) hf

theorem isSome_reread?_iff : v.reread?.isSome = true ↔
    v.fits = true ∧ ∀ x, v = float x → x.isFinite = true := by
  cases v with
  | float x =>
    by_cases hx : x.isFinite = true
    · simp [reread?, fits, hx, Numeral.isSome_toFloat?_ofFloat hx]
    · simp [reread?, hx]
  | _ => simp [reread?]

end Value

namespace Instr

/-- Whether the operands are numbers of their sizes: 8 bits for the arguments of a call, 32 bits
    for all others. -/
def fits : Instruction → Bool
  | loadConst v => v.fits
  | jumpIfFalse n | jump n | buildString n => n ≤ 4294967295
  | call n => n ≤ 255
  | _ => true

/-- The instruction that is read where this one was written. -/
def reread? : Instruction → Option Instruction
  | loadConst v => v.reread?.map loadConst
  | i => if fits i then some i else none

variable {i : Instruction} {j : Json}

theorem toJson?_eq_none_iff :
    toJson? i = none ↔ ∃ v : Value, i = loadConst v ∧ v.kind = .function := by
  cases i <;> simp [toJson?, Value.toJson?_eq_none_iff]

theorem written_toJson? (h : toJson? i = some j) : j.Written := by
  cases i with
  | loadConst v =>
    obtain ⟨k, hk, rfl⟩ := Option.map_eq_some_iff.1 h
    exact ⟨rfl, Value.written_toJson? hk, trivial⟩
  | jumpIfFalse n | jump n | buildString n | call n =>
    cases h
    exact ⟨rfl, Numeral.regular_ofInt _, trivial⟩
  | loadName n | storeName n | makeFunction n | binary n | compare n =>
    cases h
    exact ⟨rfl, rfl, trivial⟩
  | ret | pop =>
    cases h
    rfl

theorem ofJson?_toJson? (h : toJson? i = some j) : ofJson? j = reread? i := by
  cases i with
  | loadConst v =>
    obtain ⟨k, hk, rfl⟩ := Option.map_eq_some_iff.1 h
    exact congrArg (Option.map loadConst) (Value.ofJson?_toJson? hk)
  | binary op =>
    cases h
    exact congrArg (Option.map binary) op.ofName?_name
  | compare c =>
    cases h
    exact congrArg (Option.map compare) c.ofName?_name
  | jumpIfFalse n =>
    cases h
    exact map_natUpTo?_ofNat jumpIfFalse _ n
  | jump n =>
    cases h
    exact map_natUpTo?_ofNat jump _ n
  | buildString n =>
    cases h
    exact map_natUpTo?_ofNat buildString _ n
  | call n =>
    cases h
    exact map_natUpTo?_ofNat call _ n
  | loadName n | storeName n | makeFunction n =>
    cases h
    rfl
  | ret | pop =>
    cases h
    rfl

theorem reread?_eq_self (hf : fits i = true) (hx : ∀ x, i ≠ loadConst (.float x)) :
    reread? i = some i := by
  cases i with
  | loadConst v =>
    have hv : v.reread? = some v := Value.reread?_eq_self hf fun x hv => hx x (hv ▸ rfl)
    exact congrArg (Option.map loadConst) hv
  | _ => exact if_pos (e := none) hf

theorem isSome_reread?_iff : (reread? i).isSome = true ↔
    fits i = true ∧ ∀ x, i = loadConst (.float x) → x.isFinite = true := by
  cases i <;> simp [reread?, fits, Value.isSome_reread?_iff]

end Instr

namespace Param

theorem written_toJson (p : Param) : p.toJson.Written :=
  ⟨rfl, rfl, rfl, rfl, trivial⟩

theorem ofJson?_toJson (p : Param) : ofJson? p.toJson = some p := by
  have hs : fields? ["name", "ty"] p.toJson = some [ofString p.name, unit p.type.name] :=
    fields?_record (by simp)
  rw [ofJson?, hs]
  exact congrArg (Option.bind · fun t => some (⟨p.name, t⟩ : Param)) p.type.ofName?_name

end Param

namespace Chunk

/-- Whether all numbers in the chunk are of their sizes, as its line always is. -/
def fits (c : Chunk) : Bool :=
  c.code.all Instr.fits

/-- The chunk that is read where this one was written. -/
def reread? (c : Chunk) : Option Chunk := do
  let code ← c.code.mapM Instr.reread?
  return { c with code }

variable {c : Chunk} {j : Json}

theorem toJson?_eq_none_iff :
    c.toJson? = none ↔ ∃ i ∈ c.code, Instr.toJson? i = none := by
  rw [← mapM_eq_none_iff]
  cases h : c.code.mapM Instr.toJson? <;> simp [toJson?, h]

theorem written_toJson? (h : c.toJson? = some j) : j.Written := by
  obtain ⟨code, hc, h⟩ := Option.bind_eq_some_iff.1 h
  cases h
  exact ⟨rfl, rfl, rfl, allWritten_map fun p _ => p.written_toJson, rfl,
    allWritten_of_mapM (fun _ _ _ => Instr.written_toJson?) hc, rfl, Numeral.regular_ofInt _,
    trivial⟩

theorem ofJson?_toJson? (h : c.toJson? = some j) : ofJson? j = c.reread? := by
  obtain ⟨code, hc, h⟩ := Option.bind_eq_some_iff.1 h
  cases h
  have hc : code.mapM Instr.ofJson? = c.code.mapM Instr.reread? :=
    mapM_mapM hc fun _ _ _ => Instr.ofJson?_toJson?
  have hp : (c.params.map Param.toJson).mapM Param.ofJson? = some (c.params.map id) :=
    mapM_map fun p _ => p.ofJson?_toJson
  have hs : fields? ["name", "params", "code", "line"]
      (record [("name", ofString c.name), ("params", .arr (c.params.map Param.toJson)),
        ("code", .arr code), ("line", ofNat c.line.toNat)]) =
      some [ofString c.name, .arr (c.params.map Param.toJson), .arr code, ofNat c.line.toNat] :=
    fields?_record (by simp)
  rw [List.map_id] at hp
  rw [ofJson?, hs, reread?]
  simp only [ofString, string?, Option.bind_eq_bind, Option.bind_some, list?, hp, hc]
  congr 1
  funext code
  have hl := map_natUpTo?_ofNat (fun n => Chunk.mk c.name c.params code (.ofNat n)) 4294967295
    c.line.toNat
  rw [if_pos (decide_eq_true (Nat.le_of_lt_succ c.line.toNat_lt)), UInt32.ofNat_toNat,
    Option.map_eq_bind] at hl
  exact hl

theorem reread?_eq_self (hf : c.fits = true) (hx : ∀ x, .loadConst (.float x) ∉ c.code) :
    c.reread? = some c := by
  have hc := mapM_eq_self fun i hi => Instr.reread?_eq_self (List.all_eq_true.1 hf i hi)
    fun x he => hx x (he ▸ hi)
  rw [reread?, hc]
  rfl

theorem isSome_reread?_iff : c.reread?.isSome = true ↔
    c.fits = true ∧ ∀ x, .loadConst (.float x) ∈ c.code → x.isFinite = true := by
  have hi : c.reread?.isSome = true ↔ (c.code.mapM Instr.reread?).isSome = true := by
    cases hc : c.code.mapM Instr.reread? <;> simp [reread?, hc]
  simp only [hi, isSome_mapM_iff, Instr.isSome_reread?_iff, fits, List.all_eq_true]
  grind

end Chunk

namespace Program

/-- All instructions of a program, those of the module first. -/
def instructions (p : Program) : List Instruction :=
  p.code ++ p.chunks.flatMap (·.code)

/-- Whether all numbers in the program are of their sizes. -/
def fits (p : Program) : Bool :=
  p.code.all Instr.fits && p.chunks.all Chunk.fits

/-- The program that is read where this one was written. -/
def reread? (p : Program) : Option Program := do
  let code ← p.code.mapM Instr.reread?
  let chunks ← p.chunks.mapM Chunk.reread?
  return ⟨code, chunks⟩

variable {p : Program} {j : Json} {s : String}

theorem exists_mem_instructions {P : Instruction → Prop} :
    (∃ i ∈ p.instructions, P i) ↔ (∃ i ∈ p.code, P i) ∨ ∃ c ∈ p.chunks, ∃ i ∈ c.code, P i := by
  simp only [instructions, List.mem_append, List.mem_flatMap]
  grind

theorem toJson?_eq_none_iff :
    p.toJson? = none ↔ ∃ i ∈ p.instructions, Instr.toJson? i = none := by
  rw [exists_mem_instructions]
  simp only [← Chunk.toJson?_eq_none_iff]
  rw [← mapM_eq_none_iff, ← mapM_eq_none_iff]
  cases h : p.code.mapM Instr.toJson? <;> cases h' : p.chunks.mapM Chunk.toJson? <;>
    simp [toJson?, h, h']

theorem written_toJson? (h : p.toJson? = some j) : j.Written := by
  obtain ⟨code, hc, h⟩ := Option.bind_eq_some_iff.1 h
  obtain ⟨chunks, hk, h⟩ := Option.bind_eq_some_iff.1 h
  cases h
  exact ⟨rfl, allWritten_of_mapM (fun _ _ _ => Instr.written_toJson?) hc, rfl,
    allWritten_of_mapM (fun _ _ _ => Chunk.written_toJson?) hk, trivial⟩

theorem ofJson?_toJson? (h : p.toJson? = some j) : ofJson? j = p.reread? := by
  obtain ⟨code, hc, h⟩ := Option.bind_eq_some_iff.1 h
  obtain ⟨chunks, hk, h⟩ := Option.bind_eq_some_iff.1 h
  cases h
  have hc : code.mapM Instr.ofJson? = p.code.mapM Instr.reread? :=
    mapM_mapM hc fun _ _ _ => Instr.ofJson?_toJson?
  have hk : chunks.mapM Chunk.ofJson? = p.chunks.mapM Chunk.reread? :=
    mapM_mapM hk fun _ _ _ => Chunk.ofJson?_toJson?
  have hs : fields? ["code", "chunks"] (record [("code", .arr code), ("chunks", .arr chunks)]) =
      some [.arr code, .arr chunks] :=
    fields?_record (by simp)
  rw [ofJson?, hs, reread?]
  simp only [Option.bind_eq_bind, Option.bind_some, list?, hc, hk]

theorem load?_store? (h : p.store? = some s) : load? s = p.reread? := by
  obtain ⟨j, hj, rfl⟩ := Option.map_eq_some_iff.1 h
  rw [load?, parse?_render (written_toJson? hj)]
  exact ofJson?_toJson? hj

/-- A program without doubles is read as it was written. -/
theorem reread?_eq_self (hf : p.fits = true) (hx : ∀ x, .loadConst (.float x) ∉ p.instructions) :
    p.reread? = some p := by
  obtain ⟨hf, hg⟩ := Bool.and_eq_true_iff.1 hf
  have hc := mapM_eq_self fun i hi => Instr.reread?_eq_self (List.all_eq_true.1 hf i hi)
    fun x he => hx x (he ▸ List.mem_append_left _ hi)
  have hk := mapM_eq_self fun c hc => Chunk.reread?_eq_self (List.all_eq_true.1 hg c hc)
    fun x hi => hx x (List.mem_append_right _ (List.mem_flatMap_of_mem hc hi))
  rw [reread?, hc, hk]
  rfl

/-- A program that was written can be read iff its numbers are of their sizes and its doubles are
    finite. -/
theorem isSome_reread?_iff : p.reread?.isSome = true ↔ p.fits = true ∧
    ∀ x, .loadConst (.float x) ∈ p.instructions → x.isFinite = true := by
  have hi : p.reread?.isSome = true ↔ (p.code.mapM Instr.reread?).isSome = true ∧
      (p.chunks.mapM Chunk.reread?).isSome = true := by
    cases hc : p.code.mapM Instr.reread? <;> cases hk : p.chunks.mapM Chunk.reread? <;>
      simp [reread?, hc, hk]
  simp only [hi, isSome_mapM_iff, Instr.isSome_reread?_iff, Chunk.isSome_reread?_iff, fits,
    Bool.and_eq_true, List.all_eq_true, instructions, List.mem_append, List.mem_flatMap]
  grind

/-- A program without doubles can be stored unless a constant is a function, and what is stored is
    read as the program. -/
theorem store?_round_trip (hf : p.fits = true)
    (hx : ∀ x, .loadConst (.float x) ∉ p.instructions) :
    (p.store? = none ↔ ∃ i ∈ p.instructions,
      (∃ k name, i = .loadConst (.function k name)) ∨ ∃ b, i = .loadConst (.builtin b)) ∧
    ∀ s, p.store? = some s → load? s = some p := by
  refine ⟨?_, fun s hs => (load?_store? hs).trans (reread?_eq_self hf hx)⟩
  rw [store?, Option.map_eq_none_iff, toJson?_eq_none_iff]
  simp only [Instr.toJson?_eq_none_iff, Value.kind_eq_function_iff]
  grind

/-- A program with extreme numbers and with texts of quotes, backslashes, control characters and
    characters beyond 16 bits. -/
def extreme : Program where
  code := [.loadConst (.int Int64.minValue), .loadConst (.string "\"\\\x00\x1f\n/é😀"),
    .loadConst .null, .storeName "", .jumpIfFalse 4294967295, .call 255, .binary .shl,
    .compare .ne, .ret]
  chunks := [{
    name := "\t\\"
    params := [⟨"\"", .dictionary⟩, ⟨"b", .any⟩]
    code := [.loadConst (.chunk 4294967295), .makeFunction "f", .pop]
    line := 4294967295 }]

theorem store?_round_trip_extreme : ∃ s, extreme.store? = some s ∧ load? s = some extreme := by
  have h := @store?_round_trip extreme (by decide) (by simp [instructions, extreme])
  cases hs : extreme.store? with
  | none =>
    have hn := h.1.1 hs
    simp [instructions, extreme] at hn
  | some s => exact ⟨s, rfl, h.2 s hs⟩

end Program

end Naskah
