import InstallScript.Compile.Condition
import InstallScript.Source

/-!
Statements. The first word and its marks say what a statement is; what is none of the constructs of
the language passes to the target language unchanged.
-/

namespace InstallScript

/-- A compiled statement: lines, the text of the statement itself, or a file to include. -/
inductive Compiled
  | lines (ls : List Line)
  | verbatim
  | inclusion (path : String)
deriving DecidableEq, Repr

namespace Compile

/-! ### Variables -/

/-- Declares the variable that a word names. -/
def declareName (w : Word) : Compile Unit := do
  if !w.isName then fail (.variableName w.text)
  ofExcept (Names.check w.name)
  if let some f := ← current then
    if ((← declarations).declared? w.name .global).isSome then note (.shadows w.name f)
  let _ ← declare w.name

/-- Declares the variables of a list that begins with `w`, with `n` words ahead. -/
def declareNames : Nat → Word → Compile Unit
  | 0, w => declareName w
  | n + 1, w => do
    declareName w
    if ← hasNext then declareNames n (← nextWord)

/-- A declaration of variables; an option in front of the names is passed over. -/
def declaration : Compile Unit := do
  let w ← nextWord
  let w ← if w.kind = .special then nextWord else pure w
  declareNames (← wordsAhead) w

/-- The variable that an assignment means: one that can be seen, or else a new one. -/
def assigned (name : String) : Compile Variable := do
  match (← declarations).find? name (← current) with
  | some v => return v
  | none => declare name

/-- An assignment to the variable named by `target`. A call gives its result to the variable itself,
also where more is to be added to it. -/
def assignment (target : Word) : Compile Unit := do
  if !target.isName then fail (.assignmentTarget target.text)
  ofExcept (Names.check target.name)
  let v ← assigned target.name
  let w ← nextWord
  let t ← tail
  if !t.joins && t.opens then
    callInto w (some v)
    if !(← tail).joins then expectEnd
    else
      let x ← valueFrom (.var v)
      expectEnd
      emit [⟨0, .copy v x⟩]
  else
    let x ← if t.joins then value w else resolve w
    expectEnd
    emit [⟨0, .copy v x⟩]

/-! ### Functions -/

/-- The parameters of the function `f`, with `n` words ahead. -/
def parameters : Nat → Function → Compile Function
  | 0, _ => fail .endOfStatement
  | n + 1, f => do
    let w ← nextWord
    if !w.isName then fail (.parameterName w.text)
    ofExcept (Names.check w.name)
    let v ← declare w.name
    setDeclarations ((← declarations).modifyFunction f.name (·.addParam v))
    if (← tail).separates then parameters n (f.addParam v)
    else if (← tail).isClosing then return f.addParam v
    else fail .unterminatedHeader

/-- The beginning of a function. Its parameters are fetched from the stack, the last one first. -/
def functionBegin : Compile Unit := do
  if (← current).isSome then fail .nestedFunction
  let w ← nextWord
  let (f, d) ← ofExcept ((← declarations).declareFunction w.name w.text)
  setDeclarations d
  modifyCompiler fun c => { c with current := some w.name }
  note (.newFunction w.text)
  let t ← tail
  let f ← if !t.isEmpty && !t.isClosing then parameters (← wordsAhead) f else pure f
  if ← hasNext then fail .wordAfterHeader
  ofExcept f.checkEarlier
  emit (⟨0, .functionBegin f.label⟩ :: f.params.reverse.map fun v => ⟨1, .pop v⟩)

/-- Leaves the function, with a result if one is given. -/
def functionReturn : Compile Unit := do
  match ← current with
  | none => fail .returnOutsideFunction
  | some f =>
    if ← hasNext then
      setDeclarations ((← declarations).modifyFunction f (·.setReturn))
      let x ← value (← nextWord)
      expectEnd
      ensureRegister
      emit [⟨0, .copy Names.returnRegister x⟩, ⟨0, .leave⟩]
    else emit [⟨0, .leave⟩]

def functionEnd : Compile Unit := do
  if (← current).isNone then fail .endOutsideFunction
  modifyCompiler fun c => { c with current := none }
  emit [⟨0, .functionEnd⟩]

/-! ### Control flow -/

/-- A branch of a conditional, opened by `w`. -/
def branch (w : Word) : Compile Unit := do
  match (Opener.ofName? w.name).filter (·.isBranch) with
  | none => fail (.conditionKeyword w.text)
  | some o =>
    let ts ← conditions o
    emit (ts.map fun t => ⟨0, .condition "" t⟩)

/-- One end of a loop, with or without a condition, which is a single term. -/
def loop (name : String) : Compile Unit := do
  if !(← hasNext) then emit [⟨0, .keyword name⟩]
  else
    let w ← nextWord
    match (Opener.ofName? w.name).filter (·.isLoop) with
    | none => fail (.loopKeyword name w.text)
    | some o =>
      match ← condition o with
      | [t] =>
        if ← hasNext then fail .loopShape
        if t.negated then fail (.loopNegation name)
        emit [⟨0, .condition name t⟩]
      | _ => fail .loopShape

/-! ### All statements -/

/-- A command to the compiler of the target language. Only a plain inclusion is looked into. -/
def command : Compile Compiled := do
  if !(← hasNext) then return .verbatim
  let w ← nextWord
  if w.name ≠ "include" then return .verbatim
  let path ← nextWord
  if path.kind = .special || (← hasNext) then return .verbatim
  return .inclusion path.bare

/-- The lines that a construct writes. -/
def written (act : Compile Unit) : Compile Compiled := do
  act
  return .lines (← get).lines

/-- Compiles the statement whose words lie ahead. -/
def statement : Compile Compiled := do
  if !(← hasNext) then return .verbatim
  let w ← nextWord
  let t ← tail
  if t.assigns then written (assignment w)
  else if t.opens then written do
    callInto w none
    expectEnd
  else if t.command then command
  else match w.name with
    | "var" => written declaration
    | "function" => written functionBegin
    | "return" => written functionReturn
    | "functionend" => written functionEnd
    | "if" | "elseif" => written (branch w)
    | "else" => written (emit [⟨0, .keyword "Else"⟩])
    | "endif" => written (emit [⟨0, .keyword "EndIf"⟩])
    | "do" => written (loop "Do")
    | "loop" => written (loop "Loop")
    | "continue" => written (emit [⟨0, .keyword "Continue"⟩])
    | "break" => written (emit [⟨0, .keyword "Break"⟩])
    | _ => return .verbatim

end Compile

/-- The text of a compiled statement, or the file it includes. -/
inductive Output
  | text (s : String)
  | inclusion (path : String)
deriving DecidableEq, Repr

/-- A compiled statement in the place where it stood. -/
def Compiled.output (indent source : String) : Compiled → Output
  | .lines ls => .text (Line.writeAll indent ls)
  | .verbatim => .text source
  | .inclusion path => .inclusion path

/-- What has become of a statement, or of a part of one. -/
structure Outcome (α : Type) where
  result : Except Fault α
  compiler : Compiler
  cursor : Cursor
  notes : List Note

namespace Compiler

/-- Compiles at a place in a statement. -/
def run (c : Compiler) (cursor : Cursor) (act : Compile α) : Outcome α :=
  let (r, w) := (ExceptT.run act).run { compiler := c, cursor }
  ⟨r, w.compiler, w.cursor, w.notes⟩

/-- Compiles a statement that consists of the words `ts`. -/
def compile (c : Compiler) (ts : List Token) : Outcome Compiled :=
  c.run { ahead := ts } Compile.statement

end Compiler

/-- What has become of a statement of a source. -/
structure Step where
  result : Except Fault Output
  line : Nat
  indent : String
  notes : List Note

namespace Compiler

/-- Compiles a statement of a source. One whose words cannot be read changes nothing. -/
def step (c : Compiler) (s : Statement) : Step × Compiler :=
  match s.tokens with
  | .error f => (⟨.error f, s.line, s.indent, []⟩, c)
  | .ok ts =>
    let o := c.compile ts
    (⟨o.result.map (·.output s.indent s.text), s.line, s.indent, o.notes⟩, o.compiler)

/-- Compiles statements one after the other, also past those that are wrong. -/
def steps (c : Compiler) : List Statement → List Step × Compiler
  | [] => ([], c)
  | s :: ss =>
    let (t, c) := c.step s
    let (ts, c) := steps c ss
    (t :: ts, c)

end Compiler

end InstallScript
