/-
  Names that are bound while a program runs.  A sight says which names are bound when an
  instruction is executed: names of the frame that it runs in, and names of the module.  A program
  is supplied if its instructions have sights that the instructions before them provide, and load
  only what is in sight.  Then no run comes to a name that is not bound (`Supplied.runFor_bound`).
-/
import Mathlib.Order.Basic
import Naskah.Proofs.Machine.Frames

namespace Naskah

/-! ## Sights -/

/-- Names that are bound when code runs: in its own frame, and in the frame of the module. -/
structure Sight where
  own : List String
  shared : List String
  deriving DecidableEq

namespace Sight

variable {s t : Sight} {x : String} {inModule : Bool}

instance : Preorder Sight where
  le s t := s.own ⊆ t.own ∧ s.shared ⊆ t.shared
  le_refl s := ⟨List.Subset.refl s.own, List.Subset.refl s.shared⟩
  le_trans _ _ _ h h' := ⟨List.Subset.trans h.1 h'.1, List.Subset.trans h.2 h'.2⟩

/-- A module starts with its own name. -/
def initial : Sight := ⟨["__name__"], ["__name__"]⟩

/-- A name is in sight. -/
def Sees (s : Sight) (x : String) : Prop :=
  x ∈ s.own ∨ x ∈ s.shared

instance (s : Sight) (x : String) : Decidable (s.Sees x) :=
  inferInstanceAs (Decidable (_ ∨ _))

theorem Sees.mono (h : s.Sees x) (hs : s ≤ t) : t.Sees x :=
  h.imp (fun h => hs.1 h) fun h => hs.2 h

/-- The code binds a name; the frame it runs in may be that of the module. -/
def bind (inModule : Bool) (x : String) (s : Sight) : Sight :=
  ⟨x :: s.own, if inModule then x :: s.shared else s.shared⟩

theorem le_bind (s : Sight) : s ≤ s.bind inModule x := by
  refine ⟨List.subset_cons_self _ _, ?_⟩
  unfold bind
  split
  · exact List.subset_cons_self _ _
  · exact List.Subset.refl _

theorem bind_mono (h : s ≤ t) : s.bind inModule x ≤ t.bind inModule x := by
  refine ⟨List.cons_subset_cons _ h.1, ?_⟩
  unfold bind
  split
  · exact List.cons_subset_cons _ h.2
  · exact h.2

/-- What is in sight when a function begins to run that was defined where `s` is: its own name,
    which is one of the module if it was defined there. -/
def entry (inModule : Bool) (name : String) (s : Sight) : Sight :=
  bind inModule name ⟨[], s.shared⟩

/-- What is in sight after an instruction. -/
def after {τ : Type} (inModule : Bool) (s : Sight) : Instr τ → Sight
  | .storeName x => s.bind inModule x
  | _ => s

section
variable {τ : Type}

theorem after_mono (h : s ≤ t) (i : Instr τ) : s.after inModule i ≤ t.after inModule i := by
  cases i with
  | storeName x => exact bind_mono h
  | _ => exact h

end

end Sight

/-- An instruction that loads only names in sight, and chunks that begin with names of the module
    that are in sight.  The module may load a chunk that begins with its own name, which is bound
    next. -/
def Instr.Allowed {τ : Type} (entries : List Sight) (inModule : Bool) (s : Sight) : Instr τ → Prop
  | loadName x => s.Sees x ∨ x = Builtin.print.name
  | loadConst (.chunk k) => ∃ e, entries[k]? = some e ∧
      ∀ x ∈ e.shared, x ∈ s.shared ∨ inModule = true ∧ x ∈ e.own
  | loadConst (.function _ _) => False
  | _ => True

/-- Every instruction of a program has a sight.  It is provided by the instructions that come
    before it, at the start of a chunk by the call (`entries`), and the instruction needs no
    more. -/
structure Program.Supplied (p : Program) (entries : List Sight)
    (sight : Option Nat → Nat → Sight) : Prop where
  start : sight none 0 ≤ .initial
  enter : ∀ {k e}, entries[k]? = some e → sight (some k) 0 ≤ e
  allowed : ∀ {f : Frame} {code i}, f.code p = .ok code → code[f.ip]? = some i →
    i.Allowed entries f.chunk.isNone (sight f.chunk f.ip)
  next : ∀ {f : Frame} {code i}, f.code p = .ok code → code[f.ip]? = some i →
    sight f.chunk (f.ip + 1) ≤ (sight f.chunk f.ip).after f.chunk.isNone i
  jump : ∀ {f : Frame} {code i}, f.code p = .ok code → code[f.ip]? = some i →
    ∀ t ∈ i.target?, sight f.chunk t ≤ sight f.chunk f.ip
  /-- A chunk is loaded to make a function of its name, and to bind that name. -/
  bound : ∀ {f : Frame} {code n k}, f.code p = .ok code → code[n]? = some (.loadConst (.chunk k)) →
    ∃ e x, entries[k]? = some e ∧ e.own = [x] ∧ code[n + 1]? = some (.makeFunction x) ∧
      code[n + 2]? = some (.storeName x)
  /-- A function is made of a chunk that has just been loaded. -/
  made : ∀ {f : Frame} {code x}, f.code p = .ok code → code[f.ip]? = some (.makeFunction x) →
    ∃ n k, f.ip = n + 1 ∧ code[n]? = some (.loadConst (.chunk k))

/-- Around the making of a function stand the load of its chunk and the store of its name. -/
theorem Program.Supplied.around_make {p : Program} {entries : List Sight}
    {sight : Option Nat → Nat → Sight} {f : Frame} {code : List Instruction} {x : String}
    (h : p.Supplied entries sight) (hc : f.code p = .ok code)
    (hi : code[f.ip]? = some (.makeFunction x)) :
    ∃ n k e, f.ip = n + 1 ∧ code[n]? = some (.loadConst (.chunk k)) ∧ entries[k]? = some e ∧
      e.own = [x] ∧ code[f.ip + 1]? = some (.storeName x) := by
  obtain ⟨n, k, hip, hload⟩ := h.made hc hi
  obtain ⟨e, y, he, hy, hmake, hstore⟩ := h.bound hc hload
  rw [hip, hmake] at hi
  cases hi
  exact ⟨n, k, e, hip, hload, he, hy, hip ▸ hstore⟩

/-! ## Bindings -/

theorem Env.mem_of_get? {e : Env} {x : String} {v : Value} (h : e.get? x = some v) :
    (x, v) ∈ e := by
  induction e with
  | nil => cases h
  | cons b e ih =>
    obtain ⟨n, w⟩ := b
    rw [Env.get?, List.lookup_cons] at h
    split at h
    · next hn =>
      cases h
      rw [beq_iff_eq.1 hn]
      exact List.mem_cons_self
    · exact List.mem_cons_of_mem _ (ih h)

theorem Env.mem_set {e : Env} {x : String} {v : Value} {b : String × Value} (h : b ∈ e.set x v) :
    b.2 = v ∨ b ∈ e := by
  induction e with
  | nil =>
    rw [List.mem_singleton.1 h]
    exact .inl rfl
  | cons c e ih =>
    obtain ⟨n, w⟩ := c
    rw [Env.set] at h
    split at h
    · rcases List.mem_cons.1 h with rfl | h
      · exact .inl rfl
      · exact .inr (List.mem_cons_of_mem _ h)
    · rcases List.mem_cons.1 h with rfl | h
      · exact .inr List.mem_cons_self
      · exact (ih h).imp_right (List.mem_cons_of_mem _)

/-- Names stay bound. -/
theorem Env.isSome_set {e : Env} {x y : String} {v : Value} (h : (e.get? x).isSome = true) :
    ((e.set y v).get? x).isSome = true := by
  by_cases hx : x = y
  · rw [hx, Env.get?_set_self]
    rfl
  · rw [Env.get?_set_of_ne _ hx]
    exact h

/-! ## Machines -/

namespace Machine

variable {p : Program} {m m' : Machine} {entries : List Sight} {sight : Option Nat → Nat → Sight}
  {x : String} {v : Value}

/-- A name of the module is bound. -/
def Has (m : Machine) (x : String) : Prop :=
  (m.global? x).isSome = true

/-- The module is about to bind a name to a function. -/
def Binds (p : Program) (m : Machine) (x : String) : Prop :=
  m.current.chunk = none ∧ (m.Next p (.makeFunction x) ∨ m.Next p (.storeName x))

/-- A name of the module is bound, or will be before anything else is done. -/
def Owes (p : Program) (m : Machine) (x : String) : Prop :=
  m.Has x ∨ m.Binds p x

/-- A function that can run: it has the name that its code calls itself by, and the names of the
    module that it needs are as given. -/
def Backs (entries : List Sight) (has : String → Prop) : Value → Prop
  | .chunk k => ∃ e, entries[k]? = some e ∧ ∀ x ∈ e.shared, has x
  | .function k name => ∃ e, entries[k]? = some e ∧ e.own = [name] ∧ ∀ x ∈ e.shared, has x
  | _ => True

theorem Backs.mono {has has' : String → Prop} (h : Backs entries has v)
    (hm : ∀ x, has x → has' x) : Backs entries has' v := by
  cases v with
  | chunk k =>
    obtain ⟨e, he, hx⟩ := h
    exact ⟨e, he, fun x hs => hm x (hx x hs)⟩
  | function k name =>
    obtain ⟨e, he, hn, hx⟩ := h
    exact ⟨e, he, hn, fun x hs => hm x (hx x hs)⟩
  | _ => trivial

theorem backs_of_isPlain {has : String → Prop} (h : v.isPlain = true) : Backs entries has v := by
  cases v with
  | chunk k | function k name => cases h
  | _ => trivial

/-- A frame in which the names in sight are bound, and whose values can be used. -/
structure Serves (entries : List Sight) (sight : Option Nat → Nat → Sight) (m : Machine)
    (f : Frame) : Prop where
  own : ∀ x ∈ (sight f.chunk f.ip).own, (f.locals.get? x).isSome = true
  shared : ∀ x ∈ (sight f.chunk f.ip).shared, m.Has x
  locals : ∀ b ∈ f.locals, Backs entries m.Has b.2

theorem Serves.mono {f : Frame} (h : m.Serves entries sight f) (hm : ∀ x, m.Has x → m'.Has x) :
    m'.Serves entries sight f where
  own := h.own
  shared x hx := hm x (h.shared x hx)
  locals b hb := (h.locals b hb).mono hm

/-- The frame goes on with a smaller sight. -/
theorem Serves.goes {f f' : Frame} (h : m.Serves entries sight f) (hl : f'.locals = f.locals)
    (hs : sight f'.chunk f'.ip ≤ sight f.chunk f.ip) : m.Serves entries sight f' where
  own x hx := by rw [hl]; exact h.own x (hs.1 hx)
  shared x hx := h.shared x (hs.2 hx)
  locals := by rw [hl]; exact h.locals

/-- A machine in which all names in sight are bound.  Only a value on the stack can be a function
    whose name is not bound yet. -/
structure Furnished (p : Program) (entries : List Sight) (sight : Option Nat → Nat → Sight)
    (m : Machine) : Prop where
  frames : ∀ f ∈ m.frames, m.Serves entries sight f
  stack : ∀ v ∈ m.stack, Backs entries (m.Owes p) v

/-! ## Names of the module -/

theorem global?_congr (hc : m'.callers = m.callers) (hl : m'.current.locals = m.current.locals) :
    m'.global? x = m.global? x := by
  unfold global? moduleFrame
  rw [hc]
  cases m.callers.getLast? with
  | none => exact congrArg (Env.get? · x) hl
  | some f => rfl

theorem Has.congr (h : m.Has x) (hc : m'.callers = m.callers)
    (hl : m'.current.locals = m.current.locals) : m'.Has x := by
  unfold Has
  rw [global?_congr hc hl]
  exact h

/-- A call leaves the names of the module alone. -/
theorem global?_push {f : Frame} (hc : m'.callers = f :: m.callers)
    (hl : f.locals = m.current.locals) : m'.global? x = m.global? x := by
  unfold global? moduleFrame
  rw [hc, List.getLast?_cons]
  cases m.callers.getLast? with
  | none => exact congrArg (Env.get? · x) hl
  | some f => rfl

/-- Names of the module stay bound. -/
theorem Shift.has (hm : Shift p m m') (h : m.Has x) : m'.Has x := by
  cases hm with
  | stays => exact h
  | goes | jumps => exact h.congr rfl rfl
  | @stores y v stack hi hs =>
    unfold Has global? moduleFrame at h ⊢
    simp only [fetched]
    cases hc : m.callers.getLast? with
    | some f =>
      rw [hc] at h
      exact h
    | none =>
      rw [hc] at h
      exact Env.isSome_set h
  | enters =>
    refine (congrArg Option.isSome ?_).trans h
    exact global?_push (m := m) (f := m.fetched.current) rfl rfl
  | leaves hc =>
    unfold Has global? moduleFrame at h ⊢
    rw [hc, List.getLast?_cons] at h
    exact h

/-- Where the value of a name comes from. -/
theorem lookup_cases (h : m.lookup x = .ok v) :
    (∃ f ∈ m.frames, (x, v) ∈ f.locals) ∨ v = .builtin .print := by
  unfold lookup at h
  split at h
  · next w hw =>
    cases h
    left
    rcases Option.or_eq_some_iff.1 hw with hw | ⟨-, hw⟩
    · exact ⟨m.current, List.mem_cons_self, Env.mem_of_get? hw⟩
    · exact ⟨m.moduleFrame, List.mem_of_getLast? (getLast?_frames m), Env.mem_of_get? hw⟩
  · split at h
    · cases h
      exact .inr rfl
    · cases h

/-! ## Steps -/

theorem Furnished.lookup (h : m.Furnished p entries sight) (hv : m.lookup x = .ok v) :
    Backs entries m.Has v := by
  rcases lookup_cases hv with ⟨f, hf, hb⟩ | rfl
  · exact (h.frames f hf).locals _ hb
  · trivial

/-- Where no function is made or bound, all names are bound. -/
theorem Owes.has {i : Instruction} (h : m.Owes p x) (hi : m.Next p i)
    (hn : ∀ y, i ≠ .makeFunction y ∧ i ≠ .storeName y) : m.Has x := by
  rcases h with h | ⟨-, hb | hb⟩
  · exact h
  · exact absurd (hi.unique hb) (hn x).1
  · exact absurd (hi.unique hb) (hn x).2

/-- **A name that is bound or about to be stays so**, as long as nothing is stored. -/
theorem Shift.owes (hm : Shift p m m') (hp : p.Supplied entries sight) (ho : m.Ordered p)
    (hx : ∀ {i}, m.Next p i → ∀ x, i ≠ .storeName x) (h : m.Owes p x) : m'.Owes p x := by
  rcases h with h | ⟨hc, hb⟩
  · exact .inl (hm.has h)
  · have hb : m.Next p (.makeFunction x) := hb.resolve_right fun hb => hx hb x rfl
    cases hm with
    | stays => exact .inr ⟨hc, .inl hb⟩
    | goes =>
      -- the function has been made, and is stored next
      obtain ⟨code, hcode, hb⟩ := hb
      obtain ⟨_, _, _, -, -, -, -, hstore⟩ := hp.around_make hcode hb
      exact .inr ⟨hc, .inr ⟨code, hcode, hstore⟩⟩
    | stores hi => exact absurd (hi.unique hb) nofun
    | jumps hi ht =>
      cases hi.unique hb
      cases ht
    | enters hi => exact absurd (hi.unique hb) nofun
    | leaves hcl =>
      rw [(ho.layered.eq_nil hc).1] at hcl
      cases hcl

/-- Values on the stack can be used, wherever they come from. -/
theorem Furnished.origin {i : Instruction} (h : m.Furnished p entries sight)
    (hp : p.Supplied entries sight) (hi : m.Next p i)
    (hc : ∀ {k x rest}, i = .makeFunction x → m.stack = .chunk k :: rest →
      ∃ e, entries[k]? = some e ∧ e.own = [x]) (hm : m'.current = m.fetched.current)
    (howes : ∀ x, m.Owes p x → m'.Owes p x) (hv : Origin m i v) :
    Backs entries (m'.Owes p) v := by
  have hcur : m.Serves entries sight m.current := h.frames _ List.mem_cons_self
  cases hv with
  | operand hv => exact (h.stack v hv).mono howes
  | plain hv => exact backs_of_isPlain hv
  | constant he =>
    obtain ⟨code, hcode, hi⟩ := hi
    have ha := hp.allowed hcode hi
    subst he
    cases v with
    | chunk k =>
      obtain ⟨e, he, hs⟩ := ha
      refine ⟨e, he, fun x hx => ?_⟩
      rcases hs x hx with hx | ⟨hmodule, hx⟩
      · exact howes x (.inl (hcur.shared x hx))
      · -- the name of the function that is made next
        obtain ⟨e', y, he', hown, hmake, -⟩ := hp.bound hcode hi
        rw [he] at he'
        cases he'
        rw [hown, List.mem_singleton] at hx
        subst hx
        right
        unfold Binds Next
        rw [hm]
        exact ⟨Option.isNone_iff_eq_none.1 hmodule, .inl ⟨code, hcode, hmake⟩⟩
    | function k name => exact ha.elim
    | _ => trivial
  | name _ hv => exact (h.lookup hv).mono fun x hx => howes x (.inl hx)
  | @made k x rest he hs hv =>
    obtain ⟨e, hk, hn⟩ := hc he hs
    obtain ⟨e', hk', hx⟩ := h.stack (.chunk k) (by rw [hs]; exact List.mem_cons_self)
    rw [hk] at hk'
    cases hk'
    subst hv
    exact ⟨e, hk, hn, fun x hs => howes x (hx x hs)⟩

/-- The running frame goes on to the next instruction. -/
theorem Serves.next {i : Instruction} (h : m.Serves entries sight m.current)
    (hp : p.Supplied entries sight) (hi : m.Next p i) (hx : ∀ x, i ≠ .storeName x) :
    m.Serves entries sight m.fetched.current := by
  obtain ⟨code, hcode, hi⟩ := hi
  have hn := hp.next hcode hi
  have ha : (sight m.current.chunk m.current.ip).after m.current.chunk.isNone i =
      sight m.current.chunk m.current.ip := by
    cases i with
    | storeName x => exact absurd rfl (hx x)
    | _ => rfl
  rw [ha] at hn
  exact h.goes rfl hn

/-- The machine after a value is stored. -/
def stored (m : Machine) (x : String) (v : Value) (rest : List Value) : Machine :=
  { m.fetched with
    current := { m.fetched.current with locals := m.current.locals.set x v }, stack := rest }

/-- The module binds the name that it stores. -/
theorem has_stored {rest : List Value} (ho : m.Ordered p) (hc : m.current.chunk = none) :
    (m.stored x v rest).Has x := by
  have hnil := (ho.layered.eq_nil hc).1
  unfold Has global? moduleFrame stored
  simp only [fetched, hnil]
  exact congrArg Option.isSome (Env.get?_set_self _ _ _)

theorem Furnished.stored {rest : List Value} (h : m.Furnished p entries sight)
    (hp : p.Supplied entries sight) (ho : m.Ordered p) (hi : m.Next p (.storeName x))
    (hs : m.stack = v :: rest) : (m.stored x v rest).Furnished p entries sight := by
  have hhas : ∀ y, m.Has y → (m.stored x v rest).Has y := fun y => (Shift.stores hi hs).has
  have howes : ∀ y, m.Owes p y → (m.stored x v rest).Has y := by
    rintro y (hy | ⟨hc, hb | hb⟩)
    · exact hhas y hy
    · exact absurd (hi.unique hb) nofun
    · cases hi.unique hb
      exact has_stored ho hc
  have hcur : m.Serves entries sight m.current := h.frames _ List.mem_cons_self
  have hst := h.stack
  rw [hs, List.forall_mem_cons] at hst
  obtain ⟨code, hcode, hi⟩ := hi
  have hn := hp.next hcode hi
  have hsub : ∀ y ∈ (sight m.current.chunk (m.current.ip + 1)).shared,
      y ∈ (sight m.current.chunk m.current.ip).shared ∨ m.current.chunk = none ∧ y = x := by
    intro y hy
    have hy := hn.2 hy
    simp only [Sight.after, Sight.bind] at hy
    split at hy
    · next hc =>
      exact (List.mem_cons.1 hy).symm.imp_right fun hy => ⟨Option.isNone_iff_eq_none.1 hc, hy⟩
    · exact .inl hy
  refine ⟨List.forall_mem_cons.2 ⟨⟨?_, ?_, ?_⟩, fun f hf => ?_⟩, fun w hw => ?_⟩
  · intro y hy
    rcases List.mem_cons.1 (hn.1 hy) with rfl | hy
    · exact congrArg Option.isSome (Env.get?_set_self _ _ _)
    · exact Env.isSome_set (hcur.own y hy)
  · intro y hy
    rcases hsub y hy with hy | ⟨hc, rfl⟩
    · exact hhas y (hcur.shared y hy)
    · exact has_stored ho hc
  · intro b hb
    rcases Env.mem_set hb with he | hb
    · rw [he]
      exact hst.1.mono howes
    · exact (hcur.locals b hb).mono hhas
  · exact (h.frames f (List.mem_cons_of_mem _ hf)).mono hhas
  · exact (hst.2 w hw).mono fun y hy => .inl (howes y hy)

/-- A function that is called begins with its own name. -/
theorem Serves.entered {k : Nat} {args : List Value} (hp : p.Supplied entries sight)
    (h : Backs entries m'.Has (.function k x)) :
    m'.Serves entries sight (m.entered k x args).current := by
  have hself := h
  obtain ⟨e, he, hown, hshared⟩ := h
  have hle := hp.enter he
  refine ⟨fun y hy => ?_, fun y hy => hshared y (hle.2 hy), fun b hb => ?_⟩
  · have hy := hle.1 hy
    rw [hown, List.mem_singleton] at hy
    subst hy
    simp [Machine.entered, Env.get?]
  · rw [List.mem_singleton.1 hb]
    exact hself

/-- All other shifts. -/
theorem Furnished.shift (h : m.Furnished p entries sight) (hp : p.Supplied entries sight)
    (ho : m.Ordered p) (hx : ∀ {i}, m.Next p i → ∀ x, i ≠ .storeName x)
    (hc : ∀ {k x rest}, m.Next p (.makeFunction x) → m.stack = .chunk k :: rest →
      ∃ e, entries[k]? = some e ∧ e.own = [x]) (hm : Shift p m m') :
    m'.Furnished p entries sight := by
  have hhas : ∀ y, m.Has y → m'.Has y := fun y => hm.has
  have howes : ∀ y, m.Owes p y → m'.Owes p y := fun y => hm.owes hp ho hx
  have hcur : m.Serves entries sight m.current := h.frames _ List.mem_cons_self
  have hcallers : ∀ f ∈ m.callers, m'.Serves entries sight f := fun f hf =>
    (h.frames f (List.mem_cons_of_mem _ hf)).mono hhas
  have hstack : ∀ v ∈ m.stack, Backs entries (m'.Owes p) v := fun v hv =>
    (h.stack v hv).mono howes
  cases hm with
  | stays => exact h
  | goes hi hs =>
    refine ⟨List.forall_mem_cons.2 ⟨(hcur.next hp hi (hx hi)).mono hhas, hcallers⟩, fun v hv => ?_⟩
    exact h.origin hp hi (fun he => hc (he ▸ hi)) rfl howes (hs v hv)
  | stores hi => exact absurd rfl (hx hi _)
  | jumps hi ht hs =>
    obtain ⟨code, hcode, hi⟩ := hi
    refine ⟨List.forall_mem_cons.2 ⟨?_, hcallers⟩, fun v hv => hstack v (hs v hv)⟩
    refine Serves.mono (hcur.goes rfl ?_) hhas
    exact hp.jump hcode hi _ ht
  | @enters n k x args rest chunk hi hs =>
    have hmem : ∀ v, v ∈ args ∨ v ∈ rest → v ∈ m.stack := by
      intro v hv
      rw [hs]
      simp only [List.mem_append, List.mem_reverse, List.mem_cons]
      exact hv.imp_right .inr
    have hfun : Backs entries m.Has (.function k x) :=
      Backs.mono (h.stack _ (by rw [hs]; simp)) fun y hy => hy.has hi fun _ => ⟨nofun, nofun⟩
    refine ⟨List.forall_mem_cons.2 ⟨.entered hp (hfun.mono hhas), List.forall_mem_cons.2
      ⟨(hcur.next hp hi (hx hi)).mono hhas, hcallers⟩⟩, fun v hv => ?_⟩
    exact hstack v (hmem v (List.mem_append.1 hv))
  | leaves hcl hv hs =>
    rw [hcl] at hcallers
    refine ⟨hcallers, List.forall_mem_cons.2 ⟨?_, fun w hw => hstack w (hs w hw)⟩⟩
    rcases hv with rfl | hv
    · trivial
    · exact hstack _ hv

/-- A chunk that has just been loaded is on top of the stack. -/
theorem Running.loaded {code : List Instruction} {n k k' : Nat} {rest : List Value}
    (h : m.Running p) (hc : m.current.code p = .ok code) (hip : m.current.ip = n + 1)
    (hl : code[n]? = some (.loadConst (.chunk k'))) (hs : m.stack = .chunk k :: rest) :
    k = k' := by
  obtain ⟨code', entry, slots, ops, below, h, -⟩ := h
  obtain rfl : code = code' := by
    have hc' := h.stands.code_eq
    rw [hc] at hc'
    exact Except.ok.inj hc'
  have hslots := h.stands.slots_eq
  have htake : code.take m.current.ip = code.take n ++ [.loadConst (.chunk k')] := by
    rw [hip, List.take_add_one, hl]
    rfl
  rw [htake, Instr.effects_append, Option.bind_eq_some_iff] at hslots
  obtain ⟨slots', -, hslots⟩ := hslots
  have hslots : (constSlot p.chunks.length (.chunk k')).map (· :: slots') = some slots := by
    rw [← hslots]
    simp [Instr.effects, Instr.effect]
  obtain ⟨slot, hk', rfl⟩ := Option.map_eq_some_iff.1 hslots
  have hfit := h.fit
  have hstack := h.stack_eq
  rw [hs] at hstack
  cases hfit with
  | cons hv _ =>
    cases hstack
    simp only [constSlot] at hk'
    split at hk'
    · cases hk'
      cases hv.1
      rfl
    · cases hk'

theorem Running.made {k : Nat} {rest : List Value} (h : m.Running p)
    (hp : p.Supplied entries sight) (hi : m.Next p (.makeFunction x))
    (hs : m.stack = .chunk k :: rest) : ∃ e, entries[k]? = some e ∧ e.own = [x] := by
  obtain ⟨code, hc, hi⟩ := hi
  obtain ⟨n, k', e, hip, hload, he, hown, -⟩ := hp.around_make hc hi
  obtain rfl := h.loaded hc hip hload hs
  exact ⟨e, he, hown⟩

/-- **Names in sight stay bound from step to step.** -/
theorem Furnished.step (h : m.Furnished p entries sight) (hp : p.Supplied entries sight)
    (ho : m.Ordered p) (hr : m.Running p) (hs : step p m = .ok none m') :
    m'.Furnished p entries sight := by
  by_cases hx : ∃ x, m.Next p (.storeName x)
  · obtain ⟨x, hi⟩ := hx
    have hi' := hi
    obtain ⟨code, hcode, hi'⟩ := hi'
    rw [step_fetch hcode hi'] at hs
    cases hstack : m.stack with
    | nil =>
      rw [execute, bind_error (pop_nil (m := m.fetched) hstack)] at hs
      cases hs
    | cons v rest =>
      rw [execute_storeName (m := m.fetched) hstack] at hs
      cases hs
      exact h.stored hp ho hi hstack
  · have hm := shift_step p m
    rw [hs] at hm
    exact h.shift hp ho (fun hi x he => hx ⟨x, he ▸ hi⟩) (fun hi hst => hr.made hp hi hst) hm

theorem Cause.of_unboundName {i : Instruction} (h : Cause p m i (.unboundName x)) :
    i = .loadName x ∧ m.lookup x = .error (.unboundName x) := by
  cases h with
  | operands h => cases h
  | name h => exact ⟨rfl, h⟩
  | callee hs he =>
    rcases callFault_cases he with ⟨_, _, _, _, he⟩ | ⟨_, _, he⟩ | he | he <;> cases he

/-- A name that is loaded is bound. -/
theorem Furnished.bound (h : m.Furnished p entries sight) (hp : p.Supplied entries sight)
    (hi : m.Next p (.loadName x)) : ∃ v, m.lookup x = .ok v := by
  obtain ⟨code, hcode, hi⟩ := hi
  have hcur : m.Serves entries sight m.current := h.frames _ List.mem_cons_self
  unfold Machine.lookup
  split
  · exact ⟨_, rfl⟩
  · next hn =>
    rw [Option.or_eq_none_iff] at hn
    rcases hp.allowed hcode hi with (hx | hx) | hx
    · have hx := hcur.own x hx
      rw [hn.1] at hx
      cases hx
    · have hx := hcur.shared x hx
      rw [Has, hn.2] at hx
      cases hx
    · rw [if_pos hx]
      exact ⟨_, rfl⟩

theorem furnished_start (hp : p.Supplied entries sight) : start.Furnished p entries sight := by
  have hs := hp.start
  refine ⟨List.forall_mem_cons.2 ⟨⟨fun x hx => ?_, fun x hx => ?_, ?_⟩, by simp [start]⟩,
    by simp [start]⟩
  · rw [List.mem_singleton.1 (hs.1 hx)]
    rfl
  · rw [List.mem_singleton.1 (hs.2 hx)]
    rfl
  · intro b hb
    rw [List.mem_singleton.1 hb]
    trivial

end Machine

open Machine

/-- **A run of a program that is supplied comes to no name that is not bound.** -/
theorem Program.Supplied.runFor_bound {p : Program} {entries : List Sight}
    {sight : Option Nat → Nat → Sight} (h : p.Supplied entries sight) (hv : p.Verified) (n : Nat)
    (x : String) (m : Machine) : runFor p n Machine.start ≠ .error (.unboundName x) m := by
  intro hr
  have hstep : ∀ {m m' : Machine}, m.Running p ∧ m.Ordered p ∧ m.Furnished p entries sight →
      step p m = .ok none m' → m'.Running p ∧ m'.Ordered p ∧ m'.Furnished p entries sight := by
    rintro m m' ⟨hrun, ho, hf⟩ hs
    have hsafe := safe_step hv hrun
    have hm := shift_step p m
    rw [hs] at hsafe hm
    exact ⟨hsafe, hm.ordered ho, hf.step h ho hrun hs⟩
  obtain ⟨m', ⟨hrun, ho, hf⟩, he | he⟩ :=
    runFor_cases hstep ⟨running_start hv, ordered_start, furnished_start h⟩ n
  · rw [hr] at he
    cases he
  · rw [hr] at he
    have hvalid : m'.current.Valid p := ho.layered.forall _ List.mem_cons_self
    obtain ⟨i, hi, hcause⟩ := cause_of_step hvalid he.symm
    obtain ⟨rfl, hl⟩ := hcause.of_unboundName
    obtain ⟨v, hb⟩ := hf.bound h hi
    rw [lookup_fetched, hb] at hl
    cases hl

end Naskah
