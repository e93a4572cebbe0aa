import InstallScript.Compile.Work

/-!
Values: words, calls and concatenations. A call inside an expression is written ahead of the line that
uses it, its result held in a variable of its own.
-/

namespace InstallScript.Compile

/-- The operand a word stands for by itself. -/
def resolve (w : Word) : Compile Operand := do
  if w.isName then return .var (← lookup w.name) else return .ofWord w

/-- What a word calls. -/
def introduce (w : Word) : Compile Callee := do
  let (c, d) := (← declarations).callee w.name w.text
  setDeclarations d
  return c

/-- Remarks on a call: to a function that is not declared, or for a result that never comes. -/
def noteCall (w : Word) (c : Callee) (result : Option Variable) : Compile Unit := do
  match c with
  | .placeholder _ => note (.notIntroduced w.text)
  | .function f =>
    if result.isSome && !f.hasReturn && (← current) ≠ some f.name then note (.neverReturns f.label)
  | _ => return

/-- The lines of a call. -/
def emitLines (c : Callee) (args : List Operand) (result : Option Variable) : Compile Unit := do
  let d ← declarations
  let (ls, n) ← ofExcept (c.lines args result d.generated)
  setDeclarations { d with generated := n }
  emit ls

/-- The lines of a call with what its convention needs around it: a result that must be written goes
somewhere, and a result by error flag is 1 until the call has succeeded. -/
def emitCall (c : Callee) (args : List Operand) (result : Option Variable) : Compile Unit := do
  match c.convention, result with
  | .required, none => emitLines c args (some (← discarded))
  | .errorFlag, some v =>
    emit [⟨0, .copy v (.ofInt 1)⟩, ⟨0, .clearErrors⟩]
    emitLines c args result
    emit [⟨0, .copyUnlessErrors v (.ofInt 0)⟩]
  | _, _ =>
    if result.isSome && c.returnsByRegister then ensureRegister
    emitLines c args result

/-- Compiles a call, its arguments read by `arguments`. -/
def callWith (arguments : Callee → Option Variable → Compile (List Operand)) (w : Word)
    (result : Option Variable) : Compile Unit := do
  let c ← introduce w
  noteCall w c result
  let args ← nested (arguments c result)
  emitCall c args result

/-- Compiles a call whose result is a value. -/
def heldCall (arguments : Callee → Option Variable → Compile (List Operand)) (w : Word) :
    Compile Operand := do
  let v ← declareTemporary
  note (.holdsResult w.text v.target)
  callWith arguments w (some v)
  return .var v

/-- The marks call for another operand of the concatenation. A pending parenthesis or a relation
belongs to what is around it. -/
def continues (t : Tail) : Bool := t.joins && !t.isClosing && t.relation.isNone

/-- Adds the operands that follow to `left`, with `n` words ahead. -/
def chain (call : Word → Compile Operand) (n : Nat) (left : Operand) : Compile Operand := do
  if !continues (← tail) then return left
  match n with
  | 0 => fail .endOfStatement
  | n + 1 =>
    let w ← nextWord
    let right ← if (← tail).opens then call w else resolve w
    chain call n (left.join right)

/-- Adds the operands that follow to `left`. -/
def concatenation (call : Word → Compile Operand) (left : Operand) : Compile Operand := do
  chain call (← wordsAhead) left

/-- The arguments up to the parenthesis that ends them, with `n` words ahead. -/
def argumentList (expression : Word → Compile Operand) : Nat → Compile (List Operand)
  | 0 => fail .endOfStatement
  | n + 1 => do
    let w ← nextWord
    let t ← tail
    let x ← if t.opens || (t.joins && !t.isClosing) then expression w else resolve w
    let t ← tail
    if t.separates && !t.isClosing then return x :: (← argumentList expression n) else return [x]

/-- The arguments of a call, as many as the callee takes. The parenthesis that ends them is taken off
the marks, since it belongs to this call only. -/
def argumentsWith (expression : Word → Compile Operand) (c : Callee) (result : Option Variable) :
    Compile (List Operand) := do
  if c.convention = .void && result.isSome then fail (.noResult c.name)
  let args ← if (← tail).isClosing then pure [] else argumentList expression (← wordsAhead)
  if !(← tail).isClosing then fail .unterminatedCall
  closeOne
  ofExcept (c.checkCount args.length)
  if let .placeholder p := c then
    setDeclarations ((← declarations).recordCall p.name args.length)
  return c.pad args

mutual

/-- The value that begins with a word. The number bounds the recursion and never runs out before the
nesting does. -/
def expression : Nat → Word → Compile Operand
  | 0, _ => fail .nesting
  | n + 1, w => nested do
    let t ← tail
    if t.opens then
      let v ← heldCall (arguments n) w
      concatenation (heldCall (arguments n)) v
    else if t.joins then
      let v ← resolve w
      concatenation (heldCall (arguments n)) v
    else resolve w

/-- The arguments of a call. -/
def arguments : Nat → Callee → Option Variable → Compile (List Operand)
  | 0, _, _ => fail .nesting
  | n + 1, c, result => argumentsWith (expression n) c result

end

/-- More levels than nesting allows. -/
def levels : Nat := maxNesting + 1

/-- The value that begins with a word. -/
def value (w : Word) : Compile Operand := expression levels w

/-- Compiles a call and binds its result. -/
def callInto (w : Word) (result : Option Variable) : Compile Unit :=
  callWith (arguments levels) w result

/-- Adds the operands that follow to the result of a call. -/
def valueFrom (left : Operand) : Compile Operand :=
  concatenation (heldCall (arguments levels)) left

end InstallScript.Compile
