import InstallScript.Proofs.Bounds

/-!
The compiler as routines that call each other, with nothing to bound their calls: `Routine.body` has each
of them written out, and a loop is a routine that calls itself for its next round. The parts of the
compiler do what the routines say (`Routine.says_body`), since the bounds on loops and recursion are of no
account.
-/

namespace InstallScript

open Compile

/-! ## Routines -/

/-- The parts of the compiler that call each other. -/
inductive Routine
  | statement
  | assignment (target : Word)
  | functionReturn
  | branch (word : Word)
  | loop (name : String)
  | call (word : Word) (result : Option Variable)
  | value (word : Word)
  | heldCall (word : Word)
  | concatenation (left : Operand)
  | arguments (c : Callee) (result : Option Variable)
  | argumentList
  | condition (o : Opener)
  | openTerm (o : Opener)
  | moreTerms (ts : List Term) (opened : List Nat)
  | moreConditions

namespace Routine

/-- What a routine gives. -/
@[reducible] def Answer : Routine → Type
  | statement => Compiled
  | value _ | heldCall _ | concatenation _ => Operand
  | arguments _ _ | argumentList => List Operand
  | openTerm _ => Term
  | condition _ | moreTerms _ _ | moreConditions => List Term
  | assignment _ | functionReturn | branch _ | loop _ | call _ _ => Unit

/-- The routine as the compiler has it. -/
def act : (r : Routine) → Compile r.Answer
  | statement => Compile.statement
  | assignment target => Compile.assignment target
  | functionReturn => Compile.functionReturn
  | branch word => Compile.branch word
  | loop name => Compile.loop name
  | call word result => callInto word result
  | value word => Compile.value word
  | heldCall word => Compile.heldCall (Compile.arguments levels) word
  | concatenation left => valueFrom left
  | arguments c result => Compile.arguments levels c result
  | argumentList => do Compile.argumentList Compile.value (← wordsAhead)
  | condition o => Compile.condition o
  | openTerm o => Compile.openTerm o
  | moreTerms ts opened => do Compile.moreTerms (← wordsAhead) ts opened
  | moreConditions => do Compile.moreConditions (← wordsAhead)

/-- Both are rounds of one loop. -/
def Repeats : Routine → Routine → Prop
  | concatenation _, concatenation _ | argumentList, argumentList | moreTerms _ _, moreTerms _ _
  | moreConditions, moreConditions => True
  | _, _ => False

theorem balanced_act (r : Routine) : Balanced r.act := by
  have hargs := balanced_expression_and_arguments levels
  cases r with
  | statement => exact balanced_statement
  | assignment target => exact balanced_assignment target
  | functionReturn => exact balanced_functionReturn
  | branch word => exact balanced_branch word
  | loop name => exact balanced_loop name
  | call word result => exact balanced_callInto word result
  | value word => exact balanced_value word
  | heldCall word => exact balanced_heldCall hargs.2 word
  | concatenation left => exact balanced_valueFrom left
  | arguments c result => exact hargs.2 c result
  | argumentList => exact .bind balanced_wordsAhead (balanced_argumentList balanced_value)
  | condition o => exact balanced_condition o
  | openTerm o => exact balanced_openTerm o
  | moreTerms ts opened => exact .bind balanced_wordsAhead fun n => balanced_moreTerms n ts opened
  | moreConditions => exact .bind balanced_wordsAhead balanced_moreConditions

end Routine

/-- What a routine does: steps that call no routine, calls, and parts that are a level deeper. -/
inductive Code : Type → Type 1
  | done (a : α) : Code α
  | step (act : Compile β) (next : β → Code α) : Code α
  | call (r : Routine) (next : r.Answer → Code α) : Code α
  | nested (inner : Code β) (next : β → Code α) : Code α

namespace Code

protected def bind : Code α → (α → Code β) → Code β
  | done a, k => k a
  | step act next, k => step act fun b => (next b).bind k
  | call r next, k => call r fun b => (next b).bind k
  | nested inner next, k => nested inner fun b => (next b).bind k

instance : Monad Code where
  pure := done
  bind := Code.bind

instance : MonadLift Compile Code := ⟨fun act => step act done⟩

/-- Calls a routine. -/
def run (r : Routine) : Code r.Answer := call r done

/-- Goes one level deeper. -/
def deeper (inner : Code α) : Code α := nested inner done

/-! ### Values -/

def heldCall (word : Word) : Code Operand := do
  let v ← declareTemporary
  note (.holdsResult word.text v.target)
  run (.call word (some v))
  return .var v

def callInto (word : Word) (result : Option Variable) : Code Unit := do
  let c ← introduce word
  noteCall word c result
  let args ← deeper (run (.arguments c result))
  emitCall c args result

def concatenation (left : Operand) : Code Operand := do
  let t ← tail
  if !continues t then return left
  let word ← nextWord
  let t ← tail
  let right ← if t.opens then run (.heldCall word) else resolve word
  run (.concatenation (left.join right))

def value (word : Word) : Code Operand := deeper do
  let t ← tail
  if t.opens then
    let v ← run (.heldCall word)
    run (.concatenation v)
  else if t.joins then
    let v ← resolve word
    run (.concatenation v)
  else resolve word

def argumentList : Code (List Operand) := do
  let word ← nextWord
  let t ← tail
  let x ← if t.opens || (t.joins && !t.isClosing) then run (.value word) else resolve word
  let t ← tail
  if t.separates && !t.isClosing then
    let xs ← run .argumentList
    return x :: xs
  else return [x]

def arguments (c : Callee) (result : Option Variable) : Code (List Operand) := do
  if c.convention = .void && result.isSome then Compile.fail (.noResult c.name)
  let t ← tail
  let args ← if t.isClosing then pure [] else run .argumentList
  closeArguments c args

/-! ### Conditions -/

def openTerm (o : Opener) : Code Term := do
  let word ← nextWord
  if word.isName && word.name = "not" then
    let word ← nextWord
    let x ← run (.value word)
    return ({ opener := o } : Term).negate.addLeft x
  else
    let x ← run (.value word)
    return ({ opener := o } : Term).addLeft x

def moreTerms (ts : List Term) : List Nat → Code (List Term)
  | [] => return ts
  | i :: outer => do
    let t ← tail
    match t.relation with
    | some r =>
      let more ← hasNext
      if !more then Compile.fail (.missingOperand r.text)
      let word ← nextWord
      let right ← run (.value word)
      run (.moreTerms (ts.modify i (·.compare r.text right)) outer)
    | none =>
      let more ← hasNext
      if !more then return ts
      let word ← nextWord
      match connective? word with
      | some o =>
        let t ← run (.openTerm o)
        run (.moreTerms (ts ++ [t]) (ts.length :: i :: outer))
      | none =>
        let x ← run (.value word)
        run (.moreTerms (ts.modify i (·.addLeft x)) (i :: outer))

def condition (o : Opener) : Code (List Term) := deeper do
  let t ← run (.openTerm o)
  run (.moreTerms [t] [0])

def moreConditions : Code (List Term) := do
  let more ← hasNext
  if !more then return []
  let word ← nextWord
  match (Opener.ofName? word.name).filter (·.isConnective) with
  | some o =>
    let ts ← run (.condition o)
    let us ← run .moreConditions
    return ts ++ us
  | none => Compile.fail (.connective word.text)

/-! ### Statements -/

def assignment (target : Word) : Code Unit := do
  if !target.isName then Compile.fail (.assignmentTarget target.text)
  Compile.ofExcept (Names.check target.name)
  let v ← assigned target.name
  let word ← nextWord
  let t ← tail
  if !t.joins && t.opens then
    run (.call word (some v))
    let t ← tail
    if !t.joins then expectEnd
    else
      let x ← run (.concatenation (.var v))
      expectEnd
      emit [⟨0, .copy v x⟩]
  else
    let x ← if t.joins then run (.value word) else resolve word
    expectEnd
    emit [⟨0, .copy v x⟩]

def functionReturn : Code Unit := do
  let f ← current
  match f with
  | none => Compile.fail .returnOutsideFunction
  | some f =>
    let more ← hasNext
    if more then
      let d ← declarations
      setDeclarations (d.modifyFunction f (·.setReturn))
      let word ← nextWord
      let x ← run (.value word)
      expectEnd
      ensureRegister
      emit [⟨0, .copy Names.returnRegister x⟩, ⟨0, .leave⟩]
    else emit [⟨0, .leave⟩]

def branch (word : Word) : Code Unit :=
  match (Opener.ofName? word.name).filter (·.isBranch) with
  | none => Compile.fail (.conditionKeyword word.text)
  | some o => do
    let ts ← run (.condition o)
    let us ← run .moreConditions
    emit ((ts ++ us).map fun t => ⟨0, .condition "" t⟩)

def loop (name : String) : Code Unit := do
  let more ← hasNext
  if !more then emit [⟨0, .keyword name⟩]
  else
    let word ← nextWord
    match (Opener.ofName? word.name).filter (·.isLoop) with
    | none => Compile.fail (.loopKeyword name word.text)
    | some o =>
      let ts ← run (.condition o)
      match ts with
      | [t] =>
        let more ← hasNext
        if more then Compile.fail .loopShape
        if t.negated then Compile.fail (.loopNegation name)
        emit [⟨0, .condition name t⟩]
      | _ => Compile.fail .loopShape

/-- The lines that a construct writes. -/
def written (code : Code Unit) : Code Compiled := do
  code
  let w ← (get : Compile Work)
  return .lines w.lines

def statement : Code Compiled := do
  let more ← hasNext
  if !more then return .verbatim
  let word ← nextWord
  let t ← tail
  if t.assigns then written (run (.assignment word))
  else if t.opens then written do
    run (.call word none)
    expectEnd
  else if t.command then command
  else match word.name with
    | "var" => written declaration
    | "function" => written functionBegin
    | "return" => written (run .functionReturn)
    | "functionend" => written functionEnd
    | "if" | "elseif" => written (run (.branch word))
    | "else" => written (emit [⟨0, .keyword "Else"⟩])
    | "endif" => written (emit [⟨0, .keyword "EndIf"⟩])
    | "do" => written (run (.loop "Do"))
    | "loop" => written (run (.loop "Loop"))
    | "continue" => written (emit [⟨0, .keyword "Continue"⟩])
    | "break" => written (emit [⟨0, .keyword "Break"⟩])
    | _ => return .verbatim

end Code

/-- The routine written out. -/
def Routine.body : (r : Routine) → Code r.Answer
  | statement => Code.statement
  | assignment target => Code.assignment target
  | functionReturn => Code.functionReturn
  | branch word => Code.branch word
  | loop name => Code.loop name
  | call word result => Code.callInto word result
  | value word => Code.value word
  | heldCall word => Code.heldCall word
  | concatenation left => Code.concatenation left
  | arguments c result => Code.arguments c result
  | argumentList => Code.argumentList
  | condition o => Code.condition o
  | openTerm o => Code.openTerm o
  | moreTerms ts opened => Code.moreTerms ts opened
  | moreConditions => Code.moreConditions

/-! ## The compiler does what the routines say -/

namespace Code

/-- The code as an action of the compiler, in which calls are answered by the parts of the compiler. -/
def act : Code α → Compile α
  | done a => pure a
  | step act next => act >>= fun b => (next b).act
  | call r next => r.act >>= fun b => (next b).act
  | nested inner next => Compile.nested inner.act >>= fun b => (next b).act

theorem act_bind (code : Code α) (k : α → Code β) :
    (code >>= k).act = code.act >>= fun a => (k a).act := by
  show (code.bind k).act = _
  induction code with
  | done a =>
    show (k a).act = pure a >>= fun a => (k a).act
    rw [pure_bind]
  | step act next ih => simp only [Code.bind, Code.act, bind_assoc, ih]
  | call r next ih => simp only [Code.bind, Code.act, bind_assoc, ih]
  | nested inner next _ ih => simp only [Code.bind, Code.act, bind_assoc, ih]

/-- The code says what the action does. -/
def Says (code : Code α) (act : Compile α) : Prop := code.act = act

namespace Says

variable {code : Code α} {act : Compile α} {k : α → Code β} {k' : α → Compile β}

protected theorem pure (a : α) : Says (pure a) (pure a) := rfl

theorem lift (act : Compile α) : Says (liftM act) act := bind_pure act

theorem run (r : Routine) : Says (Code.run r) r.act := bind_pure r.act

theorem deeper (h : Says code act) : Says (deeper code) (Compile.nested act) := by
  show Compile.nested code.act >>= pure = _
  rw [show code.act = act from h, bind_pure]

protected theorem bind (h : Says code act) (hk : ∀ a, Says (k a) (k' a)) :
    Says (code >>= k) (act >>= k') := by
  rw [Says, act_bind, show code.act = act from h]
  exact congrArg _ (funext hk)

/-- Nothing is done behind a fault. -/
theorem fail_bind (f : Fault) :
    Says (liftM (Compile.fail f : Compile α) >>= k) (Compile.fail f >>= k') := by
  rw [Says, act_bind]
  rfl

end Says

theorem says_heldCall (word : Word) : Says (heldCall word) (Routine.heldCall word).act :=
  .bind (.lift _) fun _ => .bind (.lift _) fun _ => .bind (.run _) fun _ => .pure _

theorem says_callInto (word : Word) (result : Option Variable) :
    Says (callInto word result) (Routine.call word result).act :=
  .bind (.lift _) fun _ => .bind (.lift _) fun _ => .bind (.deeper (.run _)) fun _ => .lift _

theorem says_concatenation (left : Operand) :
    Says (concatenation left) (Routine.concatenation left).act := by
  have hb := balanced_heldCall (balanced_expression_and_arguments levels).2
  rw [Routine.act, valueFrom, concatenation_unrolled hb]
  refine .bind (.lift _) fun t => ?_
  split
  · exact .pure _
  refine .bind (.lift _) fun word => .bind (.lift _) fun t => ?_
  split
  · exact .bind (.run _) fun right => .run _
  · exact .bind (.lift _) fun right => .run _

theorem says_value (word : Word) : Says (value word) (Routine.value word).act := by
  rw [Routine.act, Compile.value, expression_levels_succ]
  refine .deeper (.bind (.lift _) fun t => ?_)
  split
  · exact .bind (.run _) fun v => .run (.concatenation v)
  split
  · exact .bind (.lift _) fun v => .run (.concatenation v)
  · exact .lift _

theorem says_argumentList : Says argumentList Routine.argumentList.act := by
  have hmore : ∀ x : Operand, Says
      (do
        let t ← tail
        if (t.separates && !t.isClosing) = true then do
          let xs ← run .argumentList
          pure (x :: xs)
        else pure [x])
      (tail >>= fun t => if (t.separates && !t.isClosing) = true then
        (wordsAhead >>= Compile.argumentList Compile.value) >>= fun xs => pure (x :: xs)
        else pure [x]) := by
    intro x
    refine .bind (.lift _) fun t => ?_
    split
    · exact .bind (.run .argumentList) fun xs => .pure _
    · exact .pure _
  rw [Routine.act, argumentList_unrolled balanced_value]
  refine .bind (.lift _) fun word => .bind (.lift _) fun t => ?_
  split
  · exact .bind (.run (.value word)) hmore
  · exact .bind (.lift _) hmore

theorem says_arguments (c : Callee) (result : Option Variable) :
    Says (arguments c result) (Routine.arguments c result).act := by
  rw [Routine.act, arguments_levels_succ, Compile.arguments, argumentsWith_eq]
  unfold arguments
  dsimp only
  split
  · exact .fail_bind _
  refine .bind (.lift _) fun t => ?_
  split
  · exact .bind (.pure _) fun _ => .lift _
  · rw [← bind_assoc]
    exact .bind (.run .argumentList) fun _ => .lift _

theorem says_openTerm (o : Opener) : Says (openTerm o) (Routine.openTerm o).act := by
  refine .bind (.lift _) fun word => ?_
  split
  · exact .bind (.lift _) fun word => .bind (.run (.value word)) fun _ => .pure _
  · exact .bind (.run (.value word)) fun _ => .pure _

theorem says_moreTerms (ts : List Term) (opened : List Nat) :
    Says (moreTerms ts opened) (Routine.moreTerms ts opened).act := by
  cases opened with
  | nil =>
    funext w
    rw [Routine.act]
    show exec (pure ts) w = exec (wordsAhead >>= fun n => Compile.moreTerms n ts []) w
    rw [exec_bind_ok (exec_wordsAhead w), Compile.moreTerms]
  | cons i outer =>
    rw [Routine.act, moreTerms_unrolled]
    refine .bind (.lift _) fun t => ?_
    cases t.relation with
    | some r =>
      refine .bind (.lift _) fun more => ?_
      dsimp only
      split
      · exact .fail_bind _
      · exact .bind (.lift _) fun word => .bind (.run (.value word)) fun x => .run (.moreTerms _ _)
    | none =>
      refine .bind (.lift _) fun more => ?_
      split
      · exact .pure _
      refine .bind (.lift _) fun word => ?_
      cases connective? word with
      | some o => exact .bind (.run (.openTerm o)) fun t => .run (.moreTerms _ _)
      | none => exact .bind (.run (.value word)) fun x => .run (.moreTerms _ _)

theorem says_condition (o : Opener) : Says (condition o) (Routine.condition o).act :=
  .deeper (.bind (.run (.openTerm o)) fun t => .run (.moreTerms [t] [0]))

theorem says_moreConditions : Says moreConditions Routine.moreConditions.act := by
  rw [Routine.act, moreConditions_unrolled]
  refine .bind (.lift _) fun more => ?_
  split
  · exact .pure _
  refine .bind (.lift _) fun word => ?_
  cases (Opener.ofName? word.name).filter (·.isConnective) with
  | some o =>
    exact .bind (.run (.condition o)) fun ts => .bind (.run .moreConditions) fun us => .pure _
  | none => exact .lift _

theorem says_assignment (target : Word) :
    Says (assignment target) (Routine.assignment target).act := by
  have hcopy : ∀ v x, Says
      (do
        expectEnd
        emit [⟨0, .copy v x⟩])
      (expectEnd >>= fun _ => emit [⟨0, .copy v x⟩]) :=
    fun v x => .bind (.lift _) fun _ => .lift _
  rw [Routine.act]
  unfold assignment Compile.assignment
  dsimp only
  split
  · exact .fail_bind _
  refine .bind (.lift _) fun _ => .bind (.lift _) fun v => .bind (.lift _) fun word =>
    .bind (.lift _) fun t => ?_
  split
  · refine .bind (.run (.call word (some v))) fun _ => .bind (.lift _) fun t => ?_
    split
    · exact .lift _
    · exact .bind (.run (.concatenation (.var v))) (hcopy v)
  · split
    · exact .bind (.run (.value word)) (hcopy v)
    · exact .bind (.lift _) (hcopy v)

theorem says_functionReturn : Says functionReturn Routine.functionReturn.act := by
  refine .bind (.lift _) fun f => ?_
  cases f with
  | none => exact .lift _
  | some f =>
    refine .bind (.lift _) fun more => ?_
    split
    · exact .bind (.lift _) fun d => .bind (.lift _) fun _ => .bind (.lift _) fun word =>
        .bind (.run (.value word)) fun x => .bind (.lift _) fun _ => .bind (.lift _) fun _ => .lift _
    · exact .lift _

theorem says_branch (word : Word) : Says (branch word) (Routine.branch word).act := by
  rw [Routine.act]
  unfold branch Compile.branch
  cases (Opener.ofName? word.name).filter (·.isBranch) with
  | none => exact .lift _
  | some o =>
    simp only [conditions, bind_assoc, pure_bind]
    refine .bind (.run (.condition o)) fun ts => ?_
    rw [← bind_assoc]
    exact .bind (.run .moreConditions) fun us => .lift _

theorem says_loop (name : String) : Says (loop name) (Routine.loop name).act := by
  refine .bind (.lift _) fun more => ?_
  split
  · exact .lift _
  refine .bind (.lift _) fun word => ?_
  cases (Opener.ofName? word.name).filter (·.isLoop) with
  | none => exact .lift _
  | some o =>
    refine .bind (.run (.condition o)) fun ts => ?_
    match ts with
    | [] | _ :: _ :: _ => exact .lift _
    | [t] =>
      refine .bind (.lift _) fun more => ?_
      dsimp only
      split
      · exact .fail_bind _
      split
      · exact .fail_bind _
      · exact .lift _

theorem says_written {code : Code Unit} {act : Compile Unit} (h : Says code act) :
    Says (written code) (Compile.written act) :=
  .bind h fun _ => .bind (.lift _) fun _ => .pure _

theorem says_statement : Says statement Routine.statement.act := by
  refine .bind (.lift _) fun more => ?_
  split
  · exact .pure _
  refine .bind (.lift _) fun word => .bind (.lift _) fun t => ?_
  split
  · exact says_written (.run (.assignment word))
  split
  · exact says_written (.bind (.run (.call word none)) fun _ => .lift _)
  split
  · exact .lift _
  have hbranch : Says (written (run (.branch word))) (Compile.written (Compile.branch word)) :=
    says_written (.run (.branch word))
  generalize word.name = name
  split
  · exact says_written (.lift _)
  · exact says_written (.lift _)
  · exact says_written (.run .functionReturn)
  · exact says_written (.lift _)
  · exact hbranch
  · exact hbranch
  · exact says_written (.lift _)
  · exact says_written (.lift _)
  · exact says_written (.run (.loop "Do"))
  · exact says_written (.run (.loop "Loop"))
  · exact says_written (.lift _)
  · exact says_written (.lift _)
  · simpa only using Says.pure Compiled.verbatim

end Code

theorem Routine.says_body (r : Routine) : r.body.Says r.act := by
  cases r with
  | statement => exact Code.says_statement
  | assignment target => exact Code.says_assignment target
  | functionReturn => exact Code.says_functionReturn
  | branch word => exact Code.says_branch word
  | loop name => exact Code.says_loop name
  | call word result => exact Code.says_callInto word result
  | value word => exact Code.says_value word
  | heldCall word => exact Code.says_heldCall word
  | concatenation left => exact Code.says_concatenation left
  | arguments c result => exact Code.says_arguments c result
  | argumentList => exact Code.says_argumentList
  | condition o => exact Code.says_condition o
  | openTerm o => exact Code.says_openTerm o
  | moreTerms ts opened => exact Code.says_moreTerms ts opened
  | moreConditions => exact Code.says_moreConditions

end InstallScript
