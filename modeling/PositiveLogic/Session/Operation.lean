import PositiveLogic.Session.Basic

/-!
# Steps that make a value

`Session.perform` carries out an operation on the values of a session, and `Session.step` keeps
what it makes under a name. A step that fails leaves the session as it is.
-/

namespace PositiveLogic

/-- An operation that makes a value of the values with the given names. -/
inductive Operation
  /-- Cut a text into tokens. -/
  | scan (text : String)
  /-- Parse a list of tokens or, if nothing has its name, a text. -/
  | parse (of text : String) (limits : Limits)
  /-- The truth leaf. -/
  | truth
  /-- A token made by hand. -/
  | token (t : Token Atom)
  /-- A token of a value; `clause` is for lists of clauses. -/
  | pick (of : String) (clause place : Nat)
  /-- A list of clauses made of tokens. -/
  | clauses (rows : List (List String))
  /-- One list of clauses after the other. -/
  | concat (left right : String)
  /-- The conjunction of two formulas. -/
  | and (left right : String)
  /-- The disjunction of two formulas. -/
  | or (left right : String)
  /-- The conjunction of two formulas, distributed. -/
  | distribute (left right : String)
  /-- The disjunctive normal form, perhaps with limits. -/
  | dnf (of : String) (limits : Option Limits)
  /-- The clauses, perhaps with limits. -/
  | flatten (of : String) (limits : Option Limits)
  /-- The factored form, perhaps with limits. -/
  | minimize (of : String) (limits : Option Limits)
  /-- The formula of a list of clauses. -/
  | build (of : String)
  /-- A list of clauses with a leaf replaced at a place. -/
  | injectAt (of replacement : String) (clause place : Nat)
  /-- A list of clauses with the first occurrence of a leaf replaced. -/
  | injectFor (of target replacement : String)
  /-- A formula with the first occurrence of a leaf in its clauses replaced. -/
  | injectFormulaFor (of target replacement : String)
  /-- The conjunction of two lists of clauses. -/
  | combineAnd (left right : String)
  /-- The disjunction of two lists of clauses. -/
  | combineOr (left right : String)

namespace Value

/-- A token of a value; `clause` is for lists of clauses. -/
def pick? (clause place : Nat) : Value → Option Leaf
  | tokens ts => ts[place]?
  | token t => [t][place]?
  | formula e => e.leaves[place]?
  | clauses cs => cs[clause]?.bind (·[place]?)

end Value

namespace Session

/-- A result without new numbers, its error turned into one of a step. -/
def lift {ε α : Type} (s : Session) (error : ε → StepError) (value : α → Value)
    (x : Except ε α) : Except StepError (Value × Nat) :=
  match x with
  | .ok a => .ok (value a, s.next)
  | .error e => .error (error e)

/-- A result that cannot fail. -/
def made (s : Session) (v : Value) : Except StepError (Value × Nat) :=
  .ok (v, s.next)

/-- The value that an operation makes, and the next fresh number. -/
def perform (d : Dialect) (s : Session) : Operation → Except StepError (Value × Nat)
  | .scan text =>
    match Token.ofText d text with
    | .ok ts =>
      let (ts, next) := Token.stampAll s.next ts
      .ok (.tokens ts, next)
    | .error e => .error (.scan e)
  | .parse of text limits =>
    match s.get? of with
    | some v =>
      match v.tokens? with
      | some ts => s.lift .parse .formula (Formula.ofTokens limits.maxDepth ts)
      | none => .error (.badRegister .subject)
    | none =>
      match Formula.read d limits s.next text with
      | .ok (e, next) => .ok (.formula e, next)
      | .error e => .error (.read e)
  | .truth => s.made (.token Token.truth)
  | .token t =>
    let (t, next) := t.stamp s.next
    .ok (.token t, next)
  | .pick of clause place => do
    let t ← s.getAs (Value.pick? clause place) .subject of
    s.made (.token t)
  | .clauses rows => do
    let cs ← rows.mapM fun row => row.mapM (s.getAs Value.token? .member)
    s.made (.clauses cs)
  | .concat left right => do
    let ls ← s.getAs Value.clauses? .left left
    let rs ← s.getAs Value.clauses? .right right
    s.made (.clauses (ls ++ rs))
  | .and left right => do
    let l ← s.getAs Value.formula? .left left
    let r ← s.getAs Value.formula? .right right
    s.made (.formula (.and l r))
  | .or left right => do
    let l ← s.getAs Value.formula? .left left
    let r ← s.getAs Value.formula? .right right
    s.made (.formula (.or l r))
  | .distribute left right => do
    let l ← s.getAs Value.formula? .left left
    let r ← s.getAs Value.formula? .right right
    s.made (.formula (l.distribute r))
  | .dnf of limits => do
    let e ← s.getAs Value.formula? .subject of
    match limits with
    | none => s.made (.formula e.toDnf)
    | some limits => s.lift .tooManyClauses .formula (e.toDnfBounded limits)
  | .flatten of limits => do
    let e ← s.getAs Value.formula? .subject of
    match limits with
    | none => s.made (.clauses e.clauses)
    | some limits => s.lift .tooManyClauses .clauses (e.clausesBounded limits)
  | .minimize of limits => do
    let e ← s.getAs Value.formula? .subject of
    match limits with
    | none => s.made (.formula e.minimize)
    | some limits => s.lift .tooManyClauses .formula (e.minimizeBounded limits)
  | .build of => do
    let cs ← s.getAs Value.clauses? .subject of
    s.made (.formula (Formula.ofClauses cs))
  | .injectAt of replacement clause place => do
    let cs ← s.getAs Value.clauses? .subject of
    let e ← s.getAs Value.formula? .replacement replacement
    s.lift .injection .clauses (Clauses.injectAt cs clause place e)
  | .injectFor of target replacement => do
    let cs ← s.getAs Value.clauses? .subject of
    let t ← s.getAs Value.token? .target target
    let e ← s.getAs Value.formula? .replacement replacement
    s.lift .injection .clauses (Clauses.injectFor cs t e)
  | .injectFormulaFor of target replacement => do
    let e ← s.getAs Value.formula? .subject of
    let t ← s.getAs Value.token? .target target
    let r ← s.getAs Value.formula? .replacement replacement
    s.lift .injection .formula (e.injectFor t r)
  | .combineAnd left right => do
    let ls ← s.getAs Value.clauses? .left left
    let rs ← s.getAs Value.clauses? .right right
    s.made (.clauses (Clauses.combineAnd ls rs))
  | .combineOr left right => do
    let ls ← s.getAs Value.clauses? .left left
    let rs ← s.getAs Value.clauses? .right right
    s.made (.clauses (Clauses.combineOr ls rs))

/-- Carry out an operation and keep what it makes under a name. -/
def step (d : Dialect) (s : Session) (name : String) (op : Operation) :
    Session × Except StepError Value :=
  match s.perform d op with
  | .ok (v, next) => (⟨next, (name, v) :: s.registers⟩, .ok v)
  | .error e => (s, .error e)

end Session

end PositiveLogic
