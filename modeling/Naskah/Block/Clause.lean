/-
  The clauses of a condition and the states of a chain of them.
-/
namespace Naskah

/-- The three kinds of clauses: the first, a further one with a condition, the last without. -/
inductive ClauseKind
  | first
  | further
  | last
  deriving DecidableEq

def ClauseKind.name : ClauseKind → String
  | first => "If"
  | further => "Elif"
  | last => "Else"

/-- What a chain of clauses waits for. -/
inductive ChainState
  /-- The body of the last clause is being filled. -/
  | filling
  /-- The last clause is closed and another one follows. -/
  | chained
  /-- No clause follows. -/
  | resolved
  /-- The code has been taken. -/
  | emitted
  deriving DecidableEq

def ChainState.name : ChainState → String
  | filling => "Open"
  | chained => "Chained"
  | resolved => "Resolved"
  | emitted => "Emitted"

end Naskah
