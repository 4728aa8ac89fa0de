/-
  Scripts as trees: what a source says, without its text.  A script is made of statements, and has
  one entry point among the outermost ones; every operator is applied to two operands, and a string
  is a text with holes.

  `Script.fits` says which trees are scripts of the language: their names are legal, functions and
  names are declared once and before they are used, constants are not assigned, and jumps and
  results stand where they may.
-/
import Mathlib.Data.List.Nodup
import Naskah.Compile

namespace Naskah.Tree

/-! ## Expressions -/

/-- The signs between two operands; two comparisons can be written as words. -/
inductive Sign
  | binary (op : Operation)
  | compare (c : Comparison)
  | equal
  | notEqual

mutual

inductive Expr
  | int (n : Nat)
  /-- A decimal fraction, as it is written. -/
  | float (w : String)
  | bool (b : Bool)
  | string (q : Quote) (t : Template)
  | name (x : String)
  | call (f : String) (args : List Expr)
  | print (args : List Expr)
  | apply (o : Sign) (l r : Expr)

/-- The inside of a string: a text, or a text before a hole and what follows the hole. -/
inductive Template
  | last (s : String)
  | hole (s : String) (e : Expr) (rest : Template)

end

/-- The double that a decimal fraction denotes. -/
def fractionValue (w : String) : Float :=
  (Decimal.floatOfString? w).getD 0

/-! ## Statements -/

/-- A name that is declared, with the type written after it. -/
structure Binder where
  name : String
  type : Option TypeName := none

/-- The type of a name; without a written one it is any. -/
def Binder.typeName (b : Binder) : TypeName :=
  b.type.getD .any

def Binder.param (b : Binder) : Param :=
  ⟨b.name, b.typeName⟩

/-- Statements without a block that concern no loop. -/
inductive Simple
  | var (b : Binder) (value : Option Expr)
  | const (b : Binder) (value : Expr)
  | assign (x : String) (value : Expr)
  /-- An assignment that computes the new value from the old one and an operand. -/
  | compound (x : String) (op : Operation) (value : Expr)
  /-- An assignment that goes up or down by one. -/
  | step (x : String) (up : Bool)
  | result (value : Option Expr)
  | expr (e : Expr)

mutual

inductive Stmt
  | function (f : String) (params : List Binder) (body : List Stmt)
  | simple (s : Simple)
  | loop (guard : Expr) (body : List Stmt)
  | stop
  | skip
  | cond (guard : Expr) (body : List Stmt) (rest : Rest)

/-- What follows the first clause of a chain. -/
inductive Rest
  | done
  | last (body : List Stmt)
  | further (guard : Expr) (body : List Stmt) (rest : Rest)

end

/-- A script: its outermost statements before and after the entry point, and the body of the entry
    point. -/
structure Script where
  before : List Stmt := []
  entry : List Stmt
  after : List Stmt := []

/-! ## Declarations -/

mutual

/-- The functions that a statement declares, in the order of their headers. -/
def Stmt.functions : Stmt → List String
  | .function f _ body => f :: functionsOf body
  | .loop _ body => functionsOf body
  | .cond _ body rest => functionsOf body ++ rest.functions
  | .simple _ | .stop | .skip => []

def Rest.functions : Rest → List String
  | .done => []
  | .last body => functionsOf body
  | .further _ body rest => functionsOf body ++ rest.functions

def functionsOf : List Stmt → List String
  | [] => []
  | st :: body => st.functions ++ functionsOf body

end

def Simple.names : Simple → List (String × NameKind)
  | .var b _ => [(b.name, .var)]
  | .const b _ => [(b.name, .const)]
  | .assign .. | .compound .. | .step .. | .result _ | .expr _ => []

mutual

/-- The names that a statement declares in the function around it, the latest first. -/
def Stmt.names : Stmt → List (String × NameKind)
  | .simple s => s.names
  | .loop _ body => namesOf body
  | .cond _ body rest => rest.names ++ namesOf body
  | .function .. | .stop | .skip => []

def Rest.names : Rest → List (String × NameKind)
  | .done => []
  | .last body => namesOf body
  | .further _ body rest => rest.names ++ namesOf body

def namesOf : List Stmt → List (String × NameKind)
  | [] => []
  | st :: body => namesOf body ++ st.names

end

/-! ## Which trees are scripts -/

/-- What can be referred to: the functions whose headers have been read, and the names declared in
    the function around, the latest first. -/
structure Context where
  functions : List String := []
  names : List (String × NameKind) := []

namespace Context

def hasName (ctx : Context) (x : String) : Bool :=
  (ctx.names.lookup x).isSome

/-- Whether a name is declared and no constant. -/
def canAssign (ctx : Context) (x : String) : Bool :=
  match ctx.names.lookup x with
  | some kind => kind ≠ .const
  | none => false

def hasFunction (ctx : Context) (f : String) : Bool :=
  ctx.functions.contains f

/-- The context after more declarations. -/
def add (ctx : Context) (functions : List String) (names : List (String × NameKind)) : Context :=
  ⟨ctx.functions ++ functions, names ++ ctx.names⟩

/-- The context in a function, whose parameters are its first names. -/
def inside (ctx : Context) (f : String) (params : List Binder) : Context :=
  ⟨ctx.functions ++ [f], (params.map fun b => (b.name, .param)).reverse⟩

end Context

/-- Whether a text can be a name: letters, digits and underscores, and neither a keyword nor a
    truth value. -/
def isLegalName (x : String) : Bool :=
  Scan.isName x.toList && (Vocabulary.keyword? x).isNone && !Scan.isTruthWord x.toList

mutual

/-- Whether an expression can stand in a context. -/
def Expr.fits (ctx : Context) : Expr → Bool
  | .int n => n ≤ 9223372036854775807
  | .float w => Scan.isFraction w.toList
  | .bool _ => true
  | .string _ t => t.fits ctx
  | .name x => isLegalName x && ctx.hasName x
  | .call f args => isLegalName f && ctx.hasFunction f && args.length ≤ 255 && fitAll ctx args
  | .print args => fitAll ctx args
  | .apply _ l r => l.fits ctx && r.fits ctx

def Template.fits (ctx : Context) : Template → Bool
  | .last _ => true
  | .hole _ e rest => e.fits ctx && rest.fits ctx

def fitAll (ctx : Context) : List Expr → Bool
  | [] => true
  | e :: es => e.fits ctx && fitAll ctx es

end

/-- Whether an expression that may be left out can stand in a context. -/
def fitsIfAny (ctx : Context) : Option Expr → Bool
  | none => true
  | some e => e.fits ctx

/-- Whether an operation can be part of an assignment. -/
def assigns : Operation → Bool
  | .and | .or => false
  | _ => true

/-- Whether a name can be declared. -/
def Binder.fits (ctx : Context) (b : Binder) : Bool :=
  isLegalName b.name && !ctx.hasName b.name

/-- Whether parameters have legal names, no two the same. -/
def paramsFit (params : List Binder) : Bool :=
  params.all (fun b => isLegalName b.name) && decide (params.map Binder.name).Nodup

/-- Whether a statement can stand in a context, inside of a function or not. -/
def Simple.fits (ctx : Context) (inFunction : Bool) : Simple → Bool
  | .var b value => b.fits ctx && fitsIfAny ctx value
  | .const b value => b.fits ctx && value.fits ctx
  | .assign x value => isLegalName x && ctx.canAssign x && value.fits ctx
  | .compound x op value => isLegalName x && ctx.canAssign x && assigns op && value.fits ctx
  | .step x _ => isLegalName x && ctx.canAssign x
  | .result value => inFunction && fitsIfAny ctx value
  | .expr e => e.fits ctx

mutual

/-- Whether a statement can stand in a context, inside of a function or not and inside of a loop of
    that function or not. -/
def Stmt.fits (ctx : Context) (inFunction inLoop : Bool) : Stmt → Bool
  | .function f params body =>
    isLegalName f && !ctx.hasFunction f && paramsFit params &&
      bodyFits (ctx.inside f params) true false body
  | .simple s => s.fits ctx inFunction
  | .loop guard body => guard.fits ctx && bodyFits ctx inFunction true body
  | .stop | .skip => inLoop
  | .cond guard body rest =>
    guard.fits ctx && bodyFits ctx inFunction inLoop body &&
      rest.fits (ctx.add (functionsOf body) (namesOf body)) inFunction inLoop

def Rest.fits (ctx : Context) (inFunction inLoop : Bool) : Rest → Bool
  | .done => true
  | .last body => bodyFits ctx inFunction inLoop body
  | .further guard body rest =>
    guard.fits ctx && bodyFits ctx inFunction inLoop body &&
      rest.fits (ctx.add (functionsOf body) (namesOf body)) inFunction inLoop

/-- Whether statements can stand one after the other. -/
def bodyFits (ctx : Context) (inFunction inLoop : Bool) : List Stmt → Bool
  | [] => true
  | st :: body =>
    st.fits ctx inFunction inLoop &&
      bodyFits (ctx.add st.functions st.names) inFunction inLoop body

end

namespace Script

/-- The functions declared before the body of the entry point, the entry point itself included. -/
def functionsBefore (s : Script) : List String :=
  functionsOf s.before ++ [entryName]

/-- Whether a tree is a script.  The entry point has names of its own; outside of it the names of
    the module go on. -/
def fits (s : Script) : Bool :=
  bodyFits {} false false s.before &&
    bodyFits ⟨s.functionsBefore, []⟩ true false s.entry &&
    bodyFits ⟨s.functionsBefore ++ functionsOf s.entry, namesOf s.before⟩ false false s.after

end Script

/-! ## The functions of a script -/

mutual

theorem Stmt.legal_functions : ∀ {st : Stmt} {ctx : Context} {inFunction inLoop : Bool},
    st.fits ctx inFunction inLoop = true → ∀ f ∈ st.functions, isLegalName f = true
  | .function g params body, _, _, _, h, f, hf => by
    simp only [Stmt.fits, Bool.and_eq_true] at h
    rw [Stmt.functions, List.mem_cons] at hf
    rcases hf with rfl | hf
    · exact h.1.1.1
    · exact legal_functions_body h.2 f hf
  | .loop guard body, _, _, _, h, f, hf => by
    rw [Stmt.fits, Bool.and_eq_true] at h
    rw [Stmt.functions] at hf
    exact legal_functions_body h.2 f hf
  | .cond guard body rest, _, _, _, h, f, hf => by
    simp only [Stmt.fits, Bool.and_eq_true] at h
    rw [Stmt.functions, List.mem_append] at hf
    rcases hf with hf | hf
    · exact legal_functions_body h.1.2 f hf
    · exact rest.legal_functions h.2 f hf
  | .simple _, _, _, _, _, f, hf | .stop, _, _, _, _, f, hf | .skip, _, _, _, _, f, hf => by
    rw [Stmt.functions] at hf
    cases hf

theorem Rest.legal_functions : ∀ {rest : Rest} {ctx : Context} {inFunction inLoop : Bool},
    rest.fits ctx inFunction inLoop = true → ∀ f ∈ rest.functions, isLegalName f = true
  | .done, _, _, _, _, f, hf => by
    rw [Rest.functions] at hf
    cases hf
  | .last body, _, _, _, h, f, hf => by
    rw [Rest.fits] at h
    rw [Rest.functions] at hf
    exact legal_functions_body h f hf
  | .further guard body rest, _, _, _, h, f, hf => by
    simp only [Rest.fits, Bool.and_eq_true] at h
    rw [Rest.functions, List.mem_append] at hf
    rcases hf with hf | hf
    · exact legal_functions_body h.1.2 f hf
    · exact rest.legal_functions h.2 f hf

theorem legal_functions_body : ∀ {body : List Stmt} {ctx : Context} {inFunction inLoop : Bool},
    bodyFits ctx inFunction inLoop body = true → ∀ f ∈ functionsOf body, isLegalName f = true
  | [], _, _, _, _, f, hf => by
    rw [functionsOf] at hf
    cases hf
  | st :: body, _, _, _, h, f, hf => by
    rw [bodyFits, Bool.and_eq_true] at h
    rw [functionsOf, List.mem_append] at hf
    rcases hf with hf | hf
    · exact st.legal_functions h.1 f hf
    · exact legal_functions_body h.2 f hf

end

/-- No function of a tree has the name of the entry point, which is a keyword. -/
theorem hasFunction_entryName {ctx : Context} {inFunction inLoop : Bool} {body : List Stmt}
    (h : bodyFits ctx inFunction inLoop body = true) (names : List (String × NameKind)) :
    Context.hasFunction ⟨functionsOf body, names⟩ entryName = false := by
  rw [Context.hasFunction, List.contains_eq_mem, decide_eq_false_iff_not]
  intro hm
  have hl := legal_functions_body h _ hm
  cases hl

mutual

/-- The functions of a statement are new, and no two have the same name. -/
theorem Stmt.nodup_functions : ∀ {st : Stmt} {ctx : Context} {inFunction inLoop : Bool},
    ctx.functions.Nodup → st.fits ctx inFunction inLoop = true →
      (ctx.functions ++ st.functions).Nodup
  | .function f params body, ctx, _, _, hc, h => by
    simp only [Stmt.fits, Bool.and_eq_true, Bool.not_eq_true', Context.hasFunction,
      List.contains_eq_mem, decide_eq_false_iff_not] at h
    have hf : (ctx.functions ++ [f]).Nodup := by
      rw [List.nodup_append_comm]
      exact List.nodup_cons.2 ⟨h.1.1.2, hc⟩
    have hall : ((ctx.inside f params).functions ++ functionsOf body).Nodup :=
      nodup_functionsOf hf h.2
    rwa [Context.inside, List.append_assoc] at hall
  | .loop guard body, _, _, _, hc, h => by
    rw [Stmt.fits, Bool.and_eq_true] at h
    rw [Stmt.functions]
    exact nodup_functionsOf hc h.2
  | .cond guard body rest, _, _, _, hc, h => by
    simp only [Stmt.fits, Bool.and_eq_true] at h
    rw [Stmt.functions, ← List.append_assoc]
    exact rest.nodup_functions (nodup_functionsOf hc h.1.2) h.2
  | .simple _, _, _, _, hc, _ | .stop, _, _, _, hc, _ | .skip, _, _, _, hc, _ => by
    rw [Stmt.functions, List.append_nil]
    exact hc

theorem Rest.nodup_functions : ∀ {rest : Rest} {ctx : Context} {inFunction inLoop : Bool},
    ctx.functions.Nodup → rest.fits ctx inFunction inLoop = true →
      (ctx.functions ++ rest.functions).Nodup
  | .done, _, _, _, hc, _ => by
    rw [Rest.functions, List.append_nil]
    exact hc
  | .last body, _, _, _, hc, h => by
    rw [Rest.fits] at h
    rw [Rest.functions]
    exact nodup_functionsOf hc h
  | .further guard body rest, _, _, _, hc, h => by
    simp only [Rest.fits, Bool.and_eq_true] at h
    rw [Rest.functions, ← List.append_assoc]
    exact rest.nodup_functions (nodup_functionsOf hc h.1.2) h.2

theorem nodup_functionsOf : ∀ {body : List Stmt} {ctx : Context} {inFunction inLoop : Bool},
    ctx.functions.Nodup → bodyFits ctx inFunction inLoop body = true →
      (ctx.functions ++ functionsOf body).Nodup
  | [], _, _, _, hc, _ => by
    rw [functionsOf, List.append_nil]
    exact hc
  | st :: body, _, _, _, hc, h => by
    rw [bodyFits, Bool.and_eq_true] at h
    rw [functionsOf, ← List.append_assoc]
    exact nodup_functionsOf (st.nodup_functions hc h.1) h.2

end

theorem Script.nodup_functions {s : Script} (h : s.fits = true) :
    (s.functionsBefore ++ functionsOf s.entry ++ functionsOf s.after).Nodup := by
  simp only [Script.fits, Bool.and_eq_true] at h
  have hbefore : (functionsOf s.before).Nodup := nodup_functionsOf List.nodup_nil h.1.1
  have hentry := hasFunction_entryName h.1.1 []
  rw [Context.hasFunction, List.contains_eq_mem, decide_eq_false_iff_not] at hentry
  have hall : s.functionsBefore.Nodup := by
    rw [Script.functionsBefore, List.nodup_append_comm]
    exact List.nodup_cons.2 ⟨hentry, hbefore⟩
  exact nodup_functionsOf (nodup_functionsOf hall h.1.2) h.2

end Naskah.Tree
