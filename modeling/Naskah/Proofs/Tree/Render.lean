/-
  The text of a script.  A blank stands in front of every word and sign, every operator stands
  between brackets of its own, and a line ends after a statement and after the bracket that opens a
  block.  Strings stay on their line.
-/
import Naskah.Proofs.Tree.Generate

namespace Naskah.Tree

/-- A word or sign with a blank in front. -/
def spaced (s : String) : List Char :=
  ' ' :: s.toList

/-! ## Expressions -/

def Sign.text : Sign → String
  | binary op => op.symbol
  | compare c => c.symbol
  | equal => "adalah"
  | notEqual => "bukan"

def truthWord (b : Bool) : String :=
  if b then "benar" else "salah"

/-- A character of a string between the given quotes. -/
def escape (q : Quote) (c : Char) : List Char :=
  if c = '\\' then ['\\', '\\']
  else if c = q.char then ['\\', c]
  else if c = '$' then ['\\', '$']
  else if c = '\n' then ['\\', 'n']
  else if c = '\x00' then ['\\', '0']
  else [c]

/-- A text of a string between the given quotes. -/
def escaped (q : Quote) (s : String) : List Char :=
  s.toList.flatMap (escape q)

mutual

def Expr.render : Expr → List Char
  | .int n => ' ' :: Nat.toDigits 10 n
  | .float w => spaced w
  | .bool b => spaced (truthWord b)
  | .string q t => ' ' :: q.char :: t.render q
  | .name x => spaced x
  | .call f args => spaced f ++ spaced "(" ++ renderArgs args ++ spaced ")"
  | .print args => spaced "tampilkan" ++ spaced "(" ++ renderArgs args ++ spaced ")"
  | .apply o l r => spaced "(" ++ l.render ++ spaced o.text ++ r.render ++ spaced ")"

/-- The inside of a string and its closing quote. -/
def Template.render (q : Quote) : Template → List Char
  | .last s => escaped q s ++ [q.char]
  | .hole s e rest => escaped q s ++ ['$', '{'] ++ e.render ++ spaced "\x7d" ++ rest.render q

def renderArgs : List Expr → List Char
  | [] => []
  | e :: es => e.render ++ renderMore es

/-- The arguments after the first one. -/
def renderMore : List Expr → List Char
  | [] => []
  | e :: es => spaced "," ++ e.render ++ renderMore es

end

/-! ## Statements -/

/-- A name and its type. -/
def Binder.render (b : Binder) : List Char :=
  spaced b.name ++
    match b.type with
    | none => []
    | some t => spaced ":" ++ spaced t.keyword

/-- The parameters after the first one. -/
def renderBinders : List Binder → List Char
  | [] => []
  | b :: bs => spaced "," ++ b.render ++ renderBinders bs

def renderParams : List Binder → List Char
  | [] => []
  | b :: bs => b.render ++ renderBinders bs

/-- A value that may be left out, after the given sign. -/
def renderValue (sign : List Char) : Option Expr → List Char
  | none => []
  | some e => sign ++ e.render

/-- The end of a statement and of its line. -/
def ended : List Char :=
  spaced ";" ++ ['\n']

/-- A guard between brackets, after the given words. -/
def renderGuard (words : List Char) (guard : Expr) : List Char :=
  words ++ spaced "(" ++ guard.render ++ spaced ")"

/-- A body between brackets. -/
def braced (body : List Char) : List Char :=
  spaced "\x7b" ++ ['\n'] ++ body ++ spaced "\x7d"

/-- A statement without its semicolon. -/
def Simple.render : Simple → List Char
  | .var b value => spaced "variabel" ++ b.render ++ renderValue (spaced "=") value
  | .const b value => spaced "konstanta" ++ b.render ++ spaced "=" ++ value.render
  | .assign x value => spaced x ++ spaced "=" ++ value.render
  | .compound x op value => spaced x ++ spaced (op.symbol ++ "=") ++ value.render
  | .step x up => spaced x ++ spaced (if up then "++" else "--")
  | .result value => spaced "hasilkan" ++ renderValue [] value
  | .expr e => e.render

mutual

def Stmt.render : Stmt → List Char
  | .function f params body =>
    spaced "fungsi" ++ spaced f ++ spaced "(" ++ renderParams params ++ spaced ")" ++
      braced (renderAll body) ++ ['\n']
  | .simple s => s.render ++ ended
  | .loop guard body => renderGuard (spaced "selama") guard ++ braced (renderAll body) ++ ['\n']
  | .stop => spaced "berhenti" ++ ended
  | .skip => spaced "lewati" ++ ended
  | .cond guard body rest =>
    renderGuard (spaced "jika") guard ++ braced (renderAll body) ++ rest.render

def Rest.render : Rest → List Char
  | .done => ['\n']
  | .last body => spaced "selainnya" ++ braced (renderAll body) ++ ['\n']
  | .further guard body rest =>
    renderGuard (spaced "selainnya" ++ spaced "jika") guard ++ braced (renderAll body) ++
      rest.render

def renderAll : List Stmt → List Char
  | [] => []
  | st :: body => st.render ++ renderAll body

end

/-- The text of an entry point. -/
def renderEntry (body : List Stmt) : List Char :=
  spaced "utama" ++ spaced "(" ++ spaced ")" ++ braced (renderAll body) ++ ['\n']

/-- The text of a script. -/
def Script.render (s : Script) : String :=
  .ofList (renderAll s.before ++ renderEntry s.entry ++ renderAll s.after)

end Naskah.Tree
