import PositiveLogic.Clause.Combination
import PositiveLogic.Reading

/-!
# Sessions

A session keeps values under names: lists of tokens, tokens, formulas and lists of clauses. It
also keeps the next fresh number, so that literals made at different steps are told apart.
-/

namespace PositiveLogic

/-- A value that a session keeps. -/
inductive Value
  | tokens (ts : List Leaf)
  | token (t : Leaf)
  | formula (e : Formula Leaf)
  | clauses (cs : Clauses Leaf)
  deriving DecidableEq

namespace Value

/-- The list of tokens of a value that is one. -/
def tokens? : Value → Option (List Leaf)
  | tokens ts => some ts
  | _ => none

/-- The token of a value; a formula that is a leaf serves as its token. -/
def token? : Value → Option Leaf
  | token t => some t
  | formula e => e.leaf?
  | _ => none

/-- The formula of a value; a token serves as a leaf. -/
def formula? : Value → Option (Formula Leaf)
  | formula e => some e
  | token t => some (.leaf t)
  | _ => none

/-- The list of clauses of a value that is one. -/
def clauses? : Value → Option (Clauses Leaf)
  | clauses cs => some cs
  | _ => none

/-- All leaves and tokens of a value. -/
def leaves : Value → List Leaf
  | tokens ts => ts
  | token t => [t]
  | formula e => e.leaves
  | clauses cs => cs.flatten

end Value

/-- The part that a value plays in a step. -/
inductive Role
  /-- What the step works on. -/
  | subject
  | left
  | right
  /-- The leaf that is replaced. -/
  | target
  /-- What it is replaced by. -/
  | replacement
  /-- A leaf of a list of clauses that is made. -/
  | member
  deriving DecidableEq

/-- Why a step fails. -/
inductive StepError
  /-- No value of the right kind has the name of this part. -/
  | badRegister (role : Role)
  | scan (e : ScanError)
  | adjacency (e : AdjacencyError)
  | parse (e : ParseError Literal)
  | tooManyClauses (e : TooManyClauses)
  | injection (e : InjectionError)
  /-- A text is refused. -/
  | read (e : Error)
  deriving DecidableEq

/-- The values made so far, newest first, and the next fresh number. -/
structure Session where
  next : Nat := 1
  registers : List (String × Value) := []

namespace Session

/-- The value of a name. -/
def get? (s : Session) (name : String) : Option Value :=
  s.registers.lookup name

/-- The value of a name, as what the step needs. -/
def getAs {α : Type} (s : Session) (as : Value → Option α) (role : Role) (name : String) :
    Except StepError α :=
  match (s.get? name).bind as with
  | some a => .ok a
  | none => .error (.badRegister role)

end Session

end PositiveLogic
