import PositiveLogic.Evaluation
import PositiveLogic.Session.Basic

/-!
# Steps that only answer

`Session.answer` answers a question about the values of a session.
-/

namespace PositiveLogic

/-- A question about the values with the given names. -/
inductive Query
  /-- Whether neighbouring tokens of a list clash. -/
  | check (of : String)
  /-- The number of clauses of a formula. -/
  | count (of : String) (max : Nat)
  /-- Depth and leaves of a formula. -/
  | info (of : String)
  /-- The numbers of clauses and leaves of a list of clauses, and its ends. -/
  | size (of : String)
  /-- The texts of a list of clauses. -/
  | texts (of : String)
  /-- Whether two tokens are one and the same, and whether they are written alike. -/
  | same (left right : String)
  /-- Whether two values are equal. -/
  | equal (left right : String)
  /-- The written form of a token, a formula or a list of clauses. -/
  | write (of : String)
  /-- Evaluate a list of clauses or a formula; `failing` says that a predicate on clauses may
  fail. -/
  | evaluate (of : String) (oracle : Oracle) (failing : Bool)

/-- What holds in an evaluation. -/
inductive Witness
  | clause (c : Clause Leaf)
  | formula (e : Formula Leaf)

/-- What an evaluation gives: the leaves that were asked, in order, and what holds, or why the
evaluation was stopped. -/
structure Evaluation where
  asked : List Leaf
  outcome : Except String (Option Witness)

/-- An answer to a question. -/
inductive Answer
  | checked
  | count (n : Nat)
  | info (depth : Nat) (isLeaf : Bool) (leaves : List Leaf)
  | size (clauses leaves : Nat) (ends : Clauses Leaf)
  | texts (cs : Clauses Leaf)
  | same (identical alike : Bool)
  | equal (b : Bool)
  | text (s : String)
  | evaluation (e : Evaluation)

namespace Oracle

/-- Evaluate a list of clauses; what cannot be decided does not hold. -/
def evaluate (o : Oracle) (cs : Clauses Leaf) : Evaluation :=
  let (witness, asked) := (Clauses.witness? o.ask cs).run []
  ⟨asked, .ok (witness.map .clause)⟩

/-- Evaluate a list of clauses, up to the first leaf that cannot be decided. -/
def tryEvaluate (o : Oracle) (cs : Clauses Leaf) : Evaluation :=
  let (witness, asked) := (Clauses.tryWitness? o.tryAsk cs).run []
  ⟨asked, witness.map (·.map .clause)⟩

/-- Evaluate a formula; what cannot be decided does not hold. -/
def evaluateFormula (o : Oracle) (e : Formula Leaf) : Evaluation :=
  let (witness, asked) := (e.witness? o.ask).run []
  ⟨asked, .ok (witness.map .formula)⟩

end Oracle

namespace Value

/-- The written form of a value, unless it is a list of tokens. -/
def write? (d : Dialect) : Value → Option String
  | tokens _ => none
  | token t => some (String.ofList (d.spell t.written))
  | formula e => some (e.write d)
  | clauses cs => some (Clauses.write d cs)

/-- Whether two values of one kind are equal; a token serves as a leaf. -/
def equal? : Value → Value → Option Bool
  | tokens ts, tokens us => some (ts == us)
  | clauses cs, clauses ds => some (cs == ds)
  | v, w =>
    match v.formula?, w.formula? with
    | some e, some f => some (e == f)
    | _, _ => none

/-- Evaluate a list of clauses or a formula. -/
def evaluate? (o : Oracle) (failing : Bool) : Value → Option Evaluation
  | clauses cs => some (if failing then o.tryEvaluate cs else o.evaluate cs)
  | v => v.formula?.map o.evaluateFormula

end Value

namespace Session

/-- Answer a question. -/
def answer (d : Dialect) (s : Session) : Query → Except StepError Answer
  | .check of => do
    let ts ← s.getAs Value.tokens? .subject of
    match Token.checkNeighbours ts with
    | .ok () => return .checked
    | .error e => throw (.adjacency e)
  | .count of max => do
    let e ← s.getAs Value.formula? .subject of
    match e.count max with
    | .ok n => return .count n
    | .error e => throw (.tooManyClauses e)
  | .info of => do
    let e ← s.getAs Value.formula? .subject of
    return .info e.depth e.leaf?.isSome e.leaves
  | .size of => do
    let cs ← s.getAs Value.clauses? .subject of
    return .size cs.length cs.flatten.length (cs.head?.toList ++ cs.getLast?.toList)
  | .texts of => do
    let cs ← s.getAs Value.clauses? .subject of
    return .texts cs
  | .same left right => do
    let l ← s.getAs Value.token? .left left
    let r ← s.getAs Value.token? .right right
    return .same (l == r) (l.written == r.written)
  | .equal left right => do
    match s.get? left, s.get? right with
    | some v, some w =>
      match v.equal? w with
      | some b => return .equal b
      | none => throw (.badRegister .left)
    | _, _ => throw (.badRegister .left)
  | .write of => do
    let text ← s.getAs (Value.write? d) .subject of
    return .text text
  | .evaluate of oracle failing => do
    let e ← s.getAs (Value.evaluate? oracle failing) .subject of
    return .evaluation e

end Session

end PositiveLogic
