/-
  Names that compiled programs load are bound.  The compiler asks whether a name was declared
  somewhere before; a source that uses names only where they are in sight leads to a program that
  comes to no name that is not bound (`runFor_scoped`).  Without this condition it does not hold: a
  declaration or a definition that did not run leaves the name unbound (`runFor_skipped`,
  `runFor_undefined`), and the name of a function inside of another one is unbound in the functions
  inside of it (`runFor_innermost`).
-/
import Naskah.Proofs.Compile.Verified
import Naskah.Proofs.Compile.WellFormed
import Naskah.Proofs.Desk.Traced

namespace Naskah

theorem Framed.exists_cons {L : Ledger} {base : List Asm} {bs : List Block} {ss : List Sight}
    (h : Framed L base bs ss) : ∃ s rest, ss = s :: rest := by
  cases ss with
  | nil => cases bs <;> cases h
  | cons s rest => exact ⟨s, rest, rfl⟩

theorem Desk.traced_empty : Desk.Traced {} {} [.initial] where
  labels := rfl
  enters := ⟨rfl, by simp⟩
  named := by simp [Sight.initial]
  framed := Flows.nil
  awaits := fun _ _ => Quiet.awaits ⟨rfl, rfl, rfl, rfl⟩

/-- **All desks of a scoped source have code that flows.** -/
theorem Passes.traced {text : String} {d : Desk} {c : Cursor} (h : Passes text d c)
    (hs : Scoped text) : ∃ L ss, Desk.Traced L d ss := by
  let P : Desk → Cursor → Prop := fun d c =>
    ∃ L s ss, Sighted text d c (s :: ss) ∧ Desk.Traced L d (s :: ss)
  have hstart : P {} (.start (withEndMark text)) := ⟨{}, .initial, [], .start, Desk.traced_empty⟩
  obtain ⟨-, -, L, s, ss, -, ht⟩ := Desk.Leads.keeps (P := P) h (Desk.standing_empty _)
    Desk.sound_empty hstart fun _ htake hm hshape hsound ⟨L, s, ss, hsight, ht⟩ => by
      obtain ⟨L', ht'⟩ := hm.traced hshape hsound ht (hs _ _ _ _ _ _ hsight htake)
      have hsight' := hsight.take htake
      obtain ⟨s', ss', he⟩ := ht'.framed.exists_cons
      rw [he] at ht' hsight'
      exact ⟨L', s', ss', hsight', ht'⟩
  exact ⟨L, s :: ss, ht⟩

/-! ## Programs -/

section
variable {p : Program} {L : Ledger}

/-- What runs in a frame. -/
theorem Frame.cases_code {f : Frame} {code : List Instruction} (h : f.code p = .ok code) :
    f.chunk = none ∧ p.code = code ∨
      ∃ k chunk, f.chunk = some k ∧ p.chunks[k]? = some chunk ∧ chunk.code = code := by
  unfold Frame.code at h
  split at h
  · next hc => exact .inl ⟨hc, Except.ok.inj h⟩
  · next k hc =>
    split at h
    · next chunk hk => exact .inr ⟨k, chunk, hc, hk, Except.ok.inj h⟩
    · cases h

/-- Code that flows, for the module and for every chunk, supplies a program. -/
theorem Program.supplied {base : List Asm} {t : Sight} (hw : p.WellFormed)
    (hl : ∀ code ∈ p.codes, Linked (chunkName? p.chunks) code)
    (hbase : Flows L true .initial base t) (ha : Asm.assemble base = .ok p.code)
    (he : L.Enters p.chunks) : ∃ sight, p.Supplied L.entries sight := by
  -- the symbolic code of a chunk, or of the module
  have hsource : ∀ f : Option Nat, ∃ e c u, Flows L f.isNone e c u ∧
      (f = none → e = .initial ∧ Asm.assemble c = .ok p.code) ∧
      ∀ k chunk, f = some k → p.chunks[k]? = some chunk →
        L.entries[k]? = some e ∧ e.own = [chunk.name] ∧ Asm.assemble c = .ok chunk.code := by
    intro f
    cases f with
    | none => exact ⟨.initial, base, t, hbase, fun _ => ⟨rfl, ha⟩, nofun⟩
    | some k =>
      cases hk : p.chunks[k]? with
      | none =>
        refine ⟨.initial, [], .initial, .nil, nofun, ?_⟩
        rintro _ chunk ⟨⟩ hchunk
        rw [hk] at hchunk
        cases hchunk
      | some chunk =>
        obtain ⟨e, c, u, hentry, ho, hasm, hf⟩ := he.flows k chunk hk
        refine ⟨e, c, u, hf, nofun, ?_⟩
        rintro _ chunk' ⟨⟩ hchunk
        rw [hk] at hchunk
        cases hchunk
        exact ⟨hentry, ho, hasm⟩
  choose e c u hflows hnone hsome using hsource
  have hcode : ∀ {f : Frame} {code}, f.code p = .ok code →
      Asm.assemble (c f.chunk) = .ok code ∧ code ∈ p.codes := by
    intro f code hf
    rcases Frame.cases_code hf with ⟨hc, rfl⟩ | ⟨k, chunk, hc, hk, rfl⟩
    · exact ⟨(hnone _ hc).2, List.mem_cons_self⟩
    · exact ⟨(hsome _ k chunk hc hk).2.2,
        List.mem_cons_of_mem _ (List.mem_map_of_mem (List.mem_of_getElem? hk))⟩
  refine ⟨fun f n => sightAt L f.isNone (e f) (c f) n, ?_, ?_, ?_, ?_, ?_, ?_, ?_⟩
  · have hz := (hflows none).sightAt_zero
    rwa [(hnone none rfl).1] at hz ⊢
  · intro k e' hentry
    have hk : k < p.chunks.length := by
      rw [← he.length_eq]
      exact (List.getElem?_eq_some_iff.1 hentry).1
    have hself := (hsome (some k) k _ rfl (List.getElem?_eq_getElem hk)).1
    rw [hentry] at hself
    cases hself
    exact (hflows (some k)).sightAt_zero
  · exact fun hf hi => ((hflows _).assembled (hcode hf).1 hi).1
  · exact fun hf hi => ((hflows _).assembled (hcode hf).1 hi).2.1
  · exact fun hf hi => ((hflows _).assembled (hcode hf).1 hi).2.2
  · intro f code n k hf hload
    obtain ⟨chunk, hk, hmake, hstore⟩ := hw.bound code (hcode hf).2 n k hload
    obtain ⟨hentry, ho, -⟩ := hsome (some k) k chunk rfl hk
    exact ⟨_, chunk.name, hentry, ho, hmake, hstore⟩
  · exact fun hf hi => (hl _ (hcode hf).2).of_makeFunction hi

end

/-- **A compiled program comes to no name that is not bound**, if its source uses names only where
    they are in sight.  In 32 bits this is about programs with fewer than `2 ^ 32` labels,
    instructions and chunks. -/
theorem runFor_scoped {text : String} {p : Program} (h : compile text = .ok p) (hs : Scoped text)
    (n : Nat) (x : String) (m : Machine) :
    Machine.runFor p n Machine.start ≠ .error (.unboundName x) m := by
  obtain ⟨d, c, c', hd, -, hf⟩ := exists_of_compile h
  obtain ⟨L, ss, ht⟩ := hd.traced hs
  obtain ⟨hb, -, hc, ha⟩ := Desk.of_finish hf
  have hcodes := hd.regular.codes hc ha
  have hframed := ht.framed
  rw [hb] at hframed
  obtain ⟨s, rest, rfl⟩ := hframed.exists_cons
  cases rest with
  | cons t rest => cases hframed
  | nil =>
    obtain ⟨sight, hsupplied⟩ := Program.supplied (hd.regular.finish hf)
      (fun code hm => by
        obtain ⟨c, ho, hcode⟩ := hcodes code hm
        exact (assemble_orderly ho hcode).1)
      (Flows.append hframed .returnNull) ha (by rw [hc]; exact ht.enters)
    exact hsupplied.runFor_bound ((compile_yields text).of_ok h) n x m

/-- A function that calls itself, from inside of a function of its own. -/
def countdown : String :=
  "fungsi f(n)\x7bfungsi g(k)\x7bf(k);\x7djika(n>0)\x7bg(n-1);\x7d\x7dutama()\x7bf(1);\x7d"

/-- The name of a function and its parameters are in sight in its body, and the name of a function
    of the module in the functions that it defines. -/
theorem runFor_countdown : ∃ p, compile countdown = .ok p ∧ Scoped countdown ∧
      ∀ n x m, Machine.runFor p n Machine.start ≠ .error (.unboundName x) m := by
  have hc : (compile countdown).isOk = true := by decide +kernel
  have hs : Scoped countdown := .of_scopedFor (n := 80) (by decide +kernel)
  cases h : compile countdown with
  | error e => rw [h] at hc; cases hc
  | ok p => exact ⟨p, rfl, hs, runFor_scoped h hs⟩

/-! ## Names that are not bound -/

/-- The name that a run did not find. -/
def Machine.unbound? {α : Type} : EStateM.Result Fault Machine α → Option String
  | .error (.unboundName x) _ => some x
  | _ => none

theorem Machine.unbound?_eq_some {α : Type} {r : EStateM.Result Fault Machine α} {x : String}
    (h : unbound? r = some x) : ∃ m, r = .error (.unboundName x) m := by
  unfold unbound? at h
  split at h
  · next m => exact ⟨m, by rw [Option.some.inj h]⟩
  · cases h

/-- The name that a program does not find within `n` steps. -/
def lost? (n : Nat) (text : String) : Option String :=
  (compile text).toOption.bind fun p => Machine.unbound? (Machine.runFor p n Machine.start)

theorem exists_of_lost? {n : Nat} {text x : String} (h : lost? n text = some x) :
    ∃ p m, compile text = .ok p ∧ Machine.runFor p n Machine.start = .error (.unboundName x) m := by
  obtain ⟨p, hp, hx⟩ := Option.bind_eq_some_iff.1 h
  obtain ⟨m, hm⟩ := Machine.unbound?_eq_some hx
  exact ⟨p, m, toOption_eq_some_iff.1 hp, hm⟩

/-- A declaration that does not run. -/
def skipped : String :=
  "utama()\x7bjika(salah)\x7bvariabel x;\x7dx;\x7d"

/-- A name whose declaration did not run is not bound. -/
theorem runFor_skipped : ∃ p m, compile skipped = .ok p ∧
    Machine.runFor p 9 Machine.start = .error (.unboundName "x") m :=
  exists_of_lost? (by decide +kernel)

/-- A function that is defined in another one, which is not called. -/
def undefined : String :=
  "fungsi a()\x7bfungsi b()\x7b\x7d\x7dutama()\x7bb();\x7d"

/-- A function whose definition did not run is not bound, though the compiler knows it. -/
theorem runFor_undefined : ∃ p m, compile undefined = .ok p ∧
    Machine.runFor p 9 Machine.start = .error (.unboundName "b") m :=
  exists_of_lost? (by decide +kernel)

/-- A function of a function, which is called by a function of its own. -/
def innermost : String :=
  "fungsi c()\x7bfungsi a()\x7bfungsi b()\x7ba();\x7db();\x7da();\x7dutama()\x7bc();\x7d"

/-- The name of a function inside of another one is not bound in the functions that it defines. -/
theorem runFor_innermost : ∃ p m, compile innermost = .ok p ∧
    Machine.runFor p 22 Machine.start = .error (.unboundName "a") m :=
  exists_of_lost? (by decide +kernel)

end Naskah
