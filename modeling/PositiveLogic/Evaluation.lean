import PositiveLogic.Formula.Clauses

/-!
# Evaluation

A predicate says which leaves hold. It may have effects: it may remember what it was asked, or
fail. Leaves are asked from left to right and only as far as needed: a conjunction ends at its
first leaf that does not hold, a disjunction at its first operand that does. The truth leaf holds
without being asked.

* The answer of `Clauses.witness?` is the first clause that holds, and that of `Formula.witness?` the
  first alternative at the top of the formula that does.
* `Clauses.tryWitness?` evaluates clauses with a predicate whose answer may be an error. The first error
  is the result.
* An `Oracle` is a predicate on leaves given by data. It looks a key of the leaf up in the list of what
  holds and in the list of what it cannot decide, and lets some modifiers turn its answer round. It
  counts the questions of an evaluation and remembers them.
-/

namespace PositiveLogic

section

variable {m : Type → Type} [Monad m] {ε : Type}

namespace Token

/-- Whether a leaf holds. -/
def holds (p : Leaf → m Bool) (t : Leaf) : m Bool :=
  if t.isTruth then pure true else p t

end Token

namespace Clause

/-- Whether all leaves of a clause hold. -/
def holds (p : Leaf → m Bool) (c : Clause Leaf) : m Bool :=
  c.allM (Token.holds p)

/-- Go through leaves of the clause `c`. At the first that does not hold go on with `next`; behind the
last one `c` holds. -/
def tryLeaves (p : Leaf → m (Except ε Bool)) (c : Clause Leaf)
    (next : Unit → m (Except ε (Option (Clause Leaf)))) :
    List Leaf → m (Except ε (Option (Clause Leaf)))
  | [] => return .ok (some c)
  | t :: ts => do
    if t.isTruth then tryLeaves p c next ts
    else
      match ← p t with
      | .ok true => tryLeaves p c next ts
      | .ok false => next ()
      | .error e => return .error e

end Clause

namespace Clauses

/-- The first clause that holds. -/
def witness? (p : Leaf → m Bool) (cs : Clauses Leaf) : m (Option (Clause Leaf)) :=
  cs.findM? (Clause.holds p)

/-- The first clause that holds, with a predicate that may fail. -/
def tryWitness? (p : Leaf → m (Except ε Bool)) :
    Clauses Leaf → m (Except ε (Option (Clause Leaf)))
  | [] => return .ok none
  | c :: cs => Clause.tryLeaves p c (fun _ => tryWitness? p cs) c

end Clauses

namespace Formula

/-- Whether a formula holds. -/
def holds (p : Leaf → m Bool) : Formula Leaf → m Bool
  | leaf t => t.holds p
  | and l r => do
    if ← l.holds p then r.holds p else return false
  | or l r => do
    if ← l.holds p then return true else r.holds p

/-- The first alternative at the top of a formula that holds. -/
def witness? (p : Leaf → m Bool) (e : Formula Leaf) : m (Option (Formula Leaf)) :=
  e.alternatives.findM? (holds p)

end Formula

end

/-! ## Oracles -/

/-- What an oracle looks up of a leaf. -/
inductive Oracle.Key
  /-- Its text, with modifiers. -/
  | display
  /-- Its text, without modifiers. -/
  | value
  /-- The name of a call. -/
  | name
  /-- The first parameter of a call. -/
  | param
  /-- The number of questions asked before. -/
  | call
  deriving DecidableEq

/-- A predicate on leaves given by data. -/
structure Oracle where
  /-- What is looked up. -/
  key : Oracle.Key := .display
  /-- The keys that hold. -/
  holding : List String := []
  /-- The keys that cannot be decided. -/
  failing : List String := []
  /-- The modifiers that turn the answer round, each time they occur. -/
  inverting : List Char := []

namespace Oracle

/-- The key of a leaf. -/
def keyOf (o : Oracle) (asked : Nat) (t : Leaf) : String :=
  match o.key, t.literal? with
  | .display, _ => t.display
  | .value, some l => l.atom.value
  | .name, some l => (l.atom.call.map Call.name).getD ""
  | .param, some l => (l.atom.call.bind fun c => c.params.head?).getD ""
  | .call, _ => toString asked
  | _, none => ""

/-- The answer for a leaf, when so many questions were asked before. -/
def answer (o : Oracle) (asked : Nat) (t : Leaf) : Except String Bool :=
  let key := o.keyOf asked t
  if o.failing.contains key then .error s!"cannot decide {key}"
  else
    let modifiers := (t.literal?.map fun l => l.atom.modifiers).getD []
    .ok (modifiers.foldl (fun b c => b != o.inverting.contains c) (o.holding.contains key))

/-- Ask, and remember the question; what cannot be decided does not hold. -/
def ask (o : Oracle) (t : Leaf) : StateM (List Leaf) Bool := do
  let asked ← get
  set (asked ++ [t])
  return (o.answer asked.length t).toOption.getD false

/-- Ask, and remember the question; the answer says so where it cannot be decided. -/
def tryAsk (o : Oracle) (t : Leaf) : StateM (List Leaf) (Except String Bool) := do
  let asked ← get
  set (asked ++ [t])
  return o.answer asked.length t

end Oracle

end PositiveLogic
