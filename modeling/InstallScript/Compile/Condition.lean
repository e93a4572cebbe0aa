import InstallScript.Compile.Value

/-!
Conditions. Terms are joined by `and` and `or`. A term stays open until it has taken a relation and
the operand on its right; words after that belong to the term that was open before.
-/

namespace InstallScript.Compile

/-- Opens a term: `not`, if it is there, and the first operand. -/
def openTerm (o : Opener) : Compile Term := do
  let w ← nextWord
  if w.isName && w.name = "not" then
    let x ← value (← nextWord)
    return ({ opener := o } : Term).negate.addLeft x
  else
    let x ← value w
    return ({ opener := o } : Term).addLeft x

/-- The connective a word stands for. -/
def connective? (w : Word) : Option Opener :=
  if w.isName then (Opener.ofName? w.name).filter (·.isConnective) else none

/-- Reads on with the terms so far, the places of the open ones, innermost first, and `n` words
ahead. -/
def moreTerms : Nat → List Term → List Nat → Compile (List Term)
  | _, ts, [] => return ts
  | 0, ts, _ :: _ => do
    match (← tail).relation with
    | some r => fail (.missingOperand r.text)
    | none => return ts
  | n + 1, ts, i :: outer => do
    match (← tail).relation with
    | some r =>
      if !(← hasNext) then fail (.missingOperand r.text)
      let right ← value (← nextWord)
      moreTerms n (ts.modify i (·.compare r.text right)) outer
    | none =>
      if !(← hasNext) then return ts
      let w ← nextWord
      match connective? w with
      | some o =>
        let t ← openTerm o
        moreTerms n (ts ++ [t]) (ts.length :: i :: outer)
      | none =>
        let x ← value w
        moreTerms n (ts.modify i (·.addLeft x)) (i :: outer)

/-- The terms of a condition, in the order they are written. -/
def condition (o : Opener) : Compile (List Term) := nested do
  let t ← openTerm o
  moreTerms (← wordsAhead) [t] [0]

/-- The terms of further conditions, each joined to those before, with `n` words ahead. -/
def moreConditions : Nat → Compile (List Term)
  | 0 => return []
  | n + 1 => do
    if !(← hasNext) then return []
    let w ← nextWord
    match (Opener.ofName? w.name).filter (·.isConnective) with
    | some o =>
      let ts ← condition o
      return ts ++ (← moreConditions n)
    | none => fail (.connective w.text)

/-- A condition with all that is joined to it. -/
def conditions (o : Opener) : Compile (List Term) := do
  let ts ← condition o
  return ts ++ (← moreConditions (← wordsAhead))

end InstallScript.Compile
