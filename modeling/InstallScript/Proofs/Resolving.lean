import InstallScript.Proofs.Growth

/-!
Compiling with a record of the words that stand for variables. Which variable a word stands for is
looked up in what is declared at that moment, in the function the statement stands in; of this a
compiled statement keeps only the variable, and a wrong one nothing. Here every look-up is recorded.
But for the record the statement is compiled as ever, and the record holds what the look-ups found
(`Resolving.faithful_statement`).
-/

namespace InstallScript

/-- A word that stands for a variable: its name, what was declared when it was looked up, the function
in which it was looked up, and the variable that was found. -/
structure Resolution where
  name : String
  among : Declarations
  inside : Option String
  var : Variable

/-- Compiling together with the look-ups so far. -/
abbrev Resolving := ExceptT Fault (StateM (Work × List Resolution))

namespace Resolving

/-- What an action gives, and the state it leaves. -/
def exec (act : Resolving α) (σ : Work × List Resolution) :
    Except Fault α × (Work × List Resolution) :=
  (ExceptT.run act).run σ

/-- A part of the compiler in which no word is looked up. -/
def lift (act : Compile α) : Resolving α :=
  ExceptT.mk fun σ => ((Compile.exec act σ.1).1, ((Compile.exec act σ.1).2, σ.2))

/-- Records that the name has been found to mean the variable. -/
def found (name : String) (v : Variable) : Resolving Variable :=
  ExceptT.mk fun σ =>
    (.ok v, (σ.1, σ.2 ++ [⟨name, σ.1.compiler.declarations, σ.1.compiler.current, v⟩]))

open Compile

/-! ## Values -/

def resolve (w : Word) : Resolving Operand := do
  if w.isName then
    let v ← lift (lookup w.name)
    return .var (← found w.name v)
  else return .ofWord w

/-- Goes one level deeper for the time of `act`, however it ends. -/
def nested (act : Resolving α) : Resolving α := do
  if maxNesting ≤ (← lift get).compiler.depth then lift (fail .nesting)
  lift (modifyCompiler fun c => { c with depth := c.depth + 1 })
  ExceptT.mk do
    let r ← act.run
    modify fun σ =>
      ({ σ.1 with compiler := { σ.1.compiler with depth := σ.1.compiler.depth - 1 } }, σ.2)
    return r

def callWith (arguments : Callee → Option Variable → Resolving (List Operand)) (w : Word)
    (result : Option Variable) : Resolving Unit := do
  let c ← lift (introduce w)
  lift (noteCall w c result)
  let args ← nested (arguments c result)
  lift (emitCall c args result)

def heldCall (arguments : Callee → Option Variable → Resolving (List Operand)) (w : Word) :
    Resolving Operand := do
  let v ← lift declareTemporary
  lift (note (.holdsResult w.text v.target))
  callWith arguments w (some v)
  return .var v

def chain (call : Word → Resolving Operand) (n : Nat) (left : Operand) : Resolving Operand := do
  if !continues (← lift tail) then return left
  match n with
  | 0 => lift (fail .endOfStatement)
  | n + 1 =>
    let w ← lift nextWord
    let right ← if (← lift tail).opens then call w else resolve w
    chain call n (left.join right)

def concatenation (call : Word → Resolving Operand) (left : Operand) : Resolving Operand := do
  chain call (← lift wordsAhead) left

def argumentList (expression : Word → Resolving Operand) : Nat → Resolving (List Operand)
  | 0 => lift (fail .endOfStatement)
  | n + 1 => do
    let w ← lift nextWord
    let t ← lift tail
    let x ← if t.opens || (t.joins && !t.isClosing) then expression w else resolve w
    let t ← lift tail
    if t.separates && !t.isClosing then return x :: (← argumentList expression n) else return [x]

def argumentsWith (expression : Word → Resolving Operand) (c : Callee) (result : Option Variable) :
    Resolving (List Operand) := do
  if c.convention = .void && result.isSome then lift (fail (.noResult c.name))
  let args ← if (← lift tail).isClosing then pure [] else argumentList expression (← lift wordsAhead)
  lift (closeArguments c args)

mutual

def expression : Nat → Word → Resolving Operand
  | 0, _ => lift (fail .nesting)
  | n + 1, w => nested do
    let t ← lift tail
    if t.opens then
      let v ← heldCall (arguments n) w
      concatenation (heldCall (arguments n)) v
    else if t.joins then
      let v ← resolve w
      concatenation (heldCall (arguments n)) v
    else resolve w

def arguments : Nat → Callee → Option Variable → Resolving (List Operand)
  | 0, _, _ => lift (fail .nesting)
  | n + 1, c, result => argumentsWith (expression n) c result

end

def value (w : Word) : Resolving Operand := expression levels w

def callInto (w : Word) (result : Option Variable) : Resolving Unit :=
  callWith (arguments levels) w result

def valueFrom (left : Operand) : Resolving Operand :=
  concatenation (heldCall (arguments levels)) left

/-! ## Conditions -/

def openTerm (o : Opener) : Resolving Term := do
  let w ← lift nextWord
  if w.isName && w.name = "not" then
    let x ← value (← lift nextWord)
    return ({ opener := o } : Term).negate.addLeft x
  else
    let x ← value w
    return ({ opener := o } : Term).addLeft x

def moreTerms : Nat → List Term → List Nat → Resolving (List Term)
  | _, ts, [] => return ts
  | 0, ts, _ :: _ => do
    match (← lift tail).relation with
    | some r => lift (fail (.missingOperand r.text))
    | none => return ts
  | n + 1, ts, i :: outer => do
    match (← lift tail).relation with
    | some r =>
      if !(← lift hasNext) then lift (fail (.missingOperand r.text))
      let right ← value (← lift nextWord)
      moreTerms n (ts.modify i (·.compare r.text right)) outer
    | none =>
      if !(← lift hasNext) then return ts
      let w ← lift nextWord
      match connective? w with
      | some o =>
        let t ← openTerm o
        moreTerms n (ts ++ [t]) (ts.length :: i :: outer)
      | none =>
        let x ← value w
        moreTerms n (ts.modify i (·.addLeft x)) (i :: outer)

def condition (o : Opener) : Resolving (List Term) := nested do
  let t ← openTerm o
  moreTerms (← lift wordsAhead) [t] [0]

def moreConditions : Nat → Resolving (List Term)
  | 0 => return []
  | n + 1 => do
    if !(← lift hasNext) then return []
    let w ← lift nextWord
    match (Opener.ofName? w.name).filter (·.isConnective) with
    | some o =>
      let ts ← condition o
      return ts ++ (← moreConditions n)
    | none => lift (fail (.connective w.text))

def conditions (o : Opener) : Resolving (List Term) := do
  let ts ← condition o
  return ts ++ (← moreConditions (← lift wordsAhead))

/-! ## Statements -/

def assigned (name : String) : Resolving Variable := do
  match (← lift declarations).find? name (← lift current) with
  | some v => found name v
  | none => lift (declare name)

def assignment (target : Word) : Resolving Unit := do
  if !target.isName then lift (fail (.assignmentTarget target.text))
  lift (Compile.ofExcept (Names.check target.name))
  let v ← assigned target.name
  let w ← lift nextWord
  let t ← lift tail
  if !t.joins && t.opens then
    callInto w (some v)
    if !(← lift tail).joins then lift expectEnd
    else
      let x ← valueFrom (.var v)
      lift expectEnd
      lift (emit [⟨0, .copy v x⟩])
  else
    let x ← if t.joins then value w else resolve w
    lift expectEnd
    lift (emit [⟨0, .copy v x⟩])

def functionReturn : Resolving Unit := do
  match ← lift current with
  | none => lift (fail .returnOutsideFunction)
  | some f =>
    if ← lift hasNext then
      lift do setDeclarations ((← declarations).modifyFunction f (·.setReturn))
      let x ← value (← lift nextWord)
      lift expectEnd
      lift ensureRegister
      lift (emit [⟨0, .copy Names.returnRegister x⟩, ⟨0, .leave⟩])
    else lift (emit [⟨0, .leave⟩])

def branch (w : Word) : Resolving Unit := do
  match (Opener.ofName? w.name).filter (·.isBranch) with
  | none => lift (fail (.conditionKeyword w.text))
  | some o =>
    let ts ← conditions o
    lift (emit (ts.map fun t => ⟨0, .condition "" t⟩))

def loop (name : String) : Resolving Unit := do
  if !(← lift hasNext) then lift (emit [⟨0, .keyword name⟩])
  else
    let w ← lift nextWord
    match (Opener.ofName? w.name).filter (·.isLoop) with
    | none => lift (fail (.loopKeyword name w.text))
    | some o =>
      match ← condition o with
      | [t] =>
        if ← lift hasNext then lift (fail .loopShape)
        if t.negated then lift (fail (.loopNegation name))
        lift (emit [⟨0, .condition name t⟩])
      | _ => lift (fail .loopShape)

def written (act : Resolving Unit) : Resolving Compiled := do
  act
  return .lines (← lift get).lines

def dispatch (w : Word) (t : Tail) : Resolving Compiled :=
  if t.assigns then written (assignment w)
  else if t.opens then written (callInto w none >>= fun _ => lift expectEnd)
  else if t.command then lift command
  else match w.name with
    | "var" => written (lift declaration)
    | "function" => written (lift functionBegin)
    | "return" => written functionReturn
    | "functionend" => written (lift functionEnd)
    | "if" | "elseif" => written (branch w)
    | "else" => written (lift (emit [⟨0, .keyword "Else"⟩]))
    | "endif" => written (lift (emit [⟨0, .keyword "EndIf"⟩]))
    | "do" => written (loop "Do")
    | "loop" => written (loop "Loop")
    | "continue" => written (lift (emit [⟨0, .keyword "Continue"⟩]))
    | "break" => written (lift (emit [⟨0, .keyword "Break"⟩]))
    | _ => pure .verbatim

def statement : Resolving Compiled := do
  if !(← lift hasNext) then return .verbatim
  let w ← lift nextWord
  let t ← lift tail
  dispatch w t

end Resolving

/-! ## What stays -/

/-- The work goes on in the same function, and hides no variable. -/
structure Work.Extends (w w' : Work) : Prop where
  current : w'.compiler.current = w.compiler.current
  declarations : w.declarations.Extends w'.declarations

namespace Work.Extends

variable {w w' w'' : Work}

theorem of_compiler (h : w'.compiler = w.compiler) : w.Extends w' := by
  refine ⟨by rw [h], ?_⟩
  rw [Work.declarations, Work.declarations, h]
  exact .refl _

theorem trans (h : w.Extends w') (h' : w'.Extends w'') : w.Extends w'' :=
  ⟨h'.current.trans h.current, h.declarations.trans h'.declarations⟩

end Work.Extends

namespace Compile

/-- The action neither begins nor ends a function, and hides no variable. -/
def Stays (act : Compile α) : Prop := ∀ w : Work, w.Extends (exec act w).2

namespace Stays

variable {act : Compile α} {k : α → Compile β}

theorem of_compiler (h : ∀ w, (exec act w).2.compiler = w.compiler) : Stays act :=
  fun w => .of_compiler (h w)

protected theorem pure (a : α) : Stays (pure a : Compile α) := .of_compiler fun _ => rfl

protected theorem fail (f : Fault) : Stays (fail f : Compile α) := .of_compiler fun _ => rfl

theorem fail_bind (f : Fault) : Stays (Compile.fail f >>= k) :=
  .of_compiler fun w => by rw [exec_bind_error (exec_fail f w)]

theorem ofExcept (r : Except Fault α) : Stays (Compile.ofExcept r) :=
  .of_compiler fun w => by rw [exec_ofExcept]

protected theorem bind (h : Stays act) (hk : ∀ a, Stays (k a)) : Stays (act >>= k) := by
  intro w
  have hw := h w
  rw [exec_bind]
  match hact : exec act w with
  | (.ok a, w') =>
    rw [hact] at hw
    exact hw.trans (hk a w')
  | (.error f, w') =>
    rw [hact] at hw
    exact hw

theorem nested (h : Stays act) : Stays (nested act) := by
  intro w
  by_cases hd : w.compiler.depth < maxNesting
  · rw [exec_nested act hd]
    obtain ⟨hc, hx⟩ := h (w.atDepth (w.compiler.depth + 1))
    exact ⟨hc, hx⟩
  · rw [exec_nested_of_le act (Nat.le_of_not_lt hd)]
    exact .of_compiler rfl

end Stays

theorem stays_nextWord : Stays nextWord := by
  refine .of_compiler fun w => ?_
  rcases h : w.cursor.next? with _ | ⟨word, cursor⟩
  · rw [exec_nextWord_of_none h]
  · rw [exec_nextWord h]

theorem stays_expectEnd : Stays expectEnd := by
  refine .bind (.of_compiler fun _ => rfl) fun b => ?_
  split
  · exact .fail _
  · exact .pure _

theorem stays_setDeclarations (change : Declarations → Declarations)
    (h : ∀ d : Declarations, d.Extends (change d)) :
    Stays (declarations >>= fun d => setDeclarations (change d)) :=
  fun w => ⟨rfl, h w.declarations⟩

theorem stays_register (name : String) (scope : Scope) : Stays (register name scope) := by
  intro w
  cases hd : w.declarations.declared? name scope with
  | some v =>
    rw [exec_register_of_some hd]
    exact .of_compiler rfl
  | none =>
    rw [exec_register hd]
    exact ⟨rfl, Declarations.extends_addVariable hd⟩

theorem stays_declare (name : String) : Stays (declare name) :=
  .bind (.of_compiler fun _ => rfl) fun scope => .bind (stays_register name scope) fun _ =>
    .bind (.of_compiler fun _ => rfl) fun _ => .bind (.of_compiler fun _ => rfl) fun _ => .pure _

theorem stays_declareTemporary : Stays declareTemporary := by
  intro w
  have hnumbered : w.Extends w.numbered := ⟨rfl, .of_vars rfl (Nat.le_succ _)⟩
  unfold declareTemporary
  rw [exec_bind_ok (exec_declarations w)]
  show w.Extends
    (exec (setDeclarations { w.declarations with generated := w.declarations.generated + 1 } >>= _) w).2
  rw [exec_bind_ok (show exec (setDeclarations _) w = (.ok (), w.numbered) from rfl)]
  exact hnumbered.trans (stays_declare _ w.numbered)

theorem stays_declareShared (v : Variable) : Stays (declareShared v) :=
  .bind (stays_register v.name .global) fun _ => .bind (.of_compiler fun _ => rfl) fun _ => .pure _

theorem stays_discarded : Stays discarded := by
  refine .bind (.of_compiler fun _ => rfl) fun w => ?_
  split
  · exact .pure _
  · refine .bind (stays_declareShared _) fun v => .bind (fun w => ⟨rfl, .refl _⟩) fun _ => .pure _

theorem stays_ensureRegister : Stays ensureRegister := by
  refine .bind (.of_compiler fun _ => rfl) fun w => ?_
  split
  · exact .bind (stays_declareShared _) fun v => fun w => ⟨rfl, .refl _⟩
  · exact .pure _

theorem stays_introduce (word : Word) : Stays (introduce word) := by
  intro w
  cases h : w.declarations.callee? word.name with
  | some c =>
    rw [exec_introduce h]
    exact .of_compiler rfl
  | none =>
    rw [exec_introduce_of_none h]
    exact ⟨rfl, Declarations.extends_putCallee ..⟩

theorem stays_noteCall (word : Word) (c : Callee) (result : Option Variable) :
    Stays (noteCall word c result) := by
  refine .of_compiler fun w => ?_
  obtain ⟨notes, he⟩ := exec_noteCall (w := w) word c result
  rw [he]

theorem stays_emitLines (c : Callee) (args : List Operand) (result : Option Variable) :
    Stays (emitLines c args result) := by
  intro w
  unfold emitLines
  rw [exec_bind_ok (exec_declarations w), exec_bind, exec_ofExcept]
  rcases hl : c.lines args result w.declarations.generated with f | ⟨ls, m⟩
  · exact .of_compiler rfl
  · obtain ⟨⟨k, rfl, -⟩, -⟩ := coined_callLines hl
    exact ⟨rfl, .of_vars rfl (Nat.le_add_right _ _)⟩

theorem stays_emitCall (c : Callee) (args : List Operand) (result : Option Variable) :
    Stays (emitCall c args result) := by
  unfold emitCall
  split
  · exact .bind stays_discarded fun v => stays_emitLines c args _
  · exact .bind (.of_compiler fun _ => rfl) fun _ => .bind (stays_emitLines c args _) fun _ =>
      .of_compiler fun _ => rfl
  · dsimp only
    split
    · exact .bind stays_ensureRegister fun _ => stays_emitLines c args _
    · exact stays_emitLines c args _

theorem stays_declareName (word : Word) : Stays (declareName word) := by
  have hdeclare : Stays (declare word.name >>= fun _ => pure ()) :=
    .bind (stays_declare word.name) fun _ => .pure ()
  unfold declareName
  dsimp only
  split
  · exact .fail_bind _
  refine .bind (.ofExcept _) fun _ => .bind (.of_compiler fun _ => rfl) fun f => ?_
  split
  · refine .bind (.of_compiler fun _ => rfl) fun d => ?_
    split
    · exact .bind (.of_compiler fun _ => rfl) fun _ => hdeclare
    · exact hdeclare
  · exact hdeclare

theorem stays_declareNames (n : Nat) (word : Word) : Stays (declareNames n word) := by
  induction n generalizing word with
  | zero => exact stays_declareName word
  | succ n ih =>
    refine .bind (stays_declareName word) fun _ => .bind (.of_compiler fun _ => rfl) fun b => ?_
    split
    · exact .bind stays_nextWord ih
    · exact .pure ()

theorem stays_declaration : Stays declaration := by
  refine .bind stays_nextWord fun word => ?_
  dsimp only
  split
  · exact .bind stays_nextWord fun word => .bind (.of_compiler fun _ => rfl) fun n =>
      stays_declareNames n word
  · exact .bind (.pure word) fun word => .bind (.of_compiler fun _ => rfl) fun n =>
      stays_declareNames n word

theorem stays_command : Stays command := by
  refine .bind (.of_compiler fun _ => rfl) fun b => ?_
  split
  · exact .pure _
  refine .bind stays_nextWord fun word => ?_
  split
  · exact .pure _
  refine .bind stays_nextWord fun path => .bind (.of_compiler fun _ => rfl) fun b => ?_
  split <;> exact .pure _

theorem stays_closeArguments (c : Callee) (args : List Operand) : Stays (closeArguments c args) := by
  refine .bind (.of_compiler fun _ => rfl) fun t => ?_
  dsimp only
  split
  · exact .fail_bind _
  refine .bind (.of_compiler fun _ => rfl) fun _ => .bind (.ofExcept _) fun _ => ?_
  split
  · next q =>
    rw [← bind_assoc]
    refine .bind (stays_setDeclarations (·.recordCall q.name args.length) fun d => ?_)
      fun _ => .pure _
    exact .of_vars Declarations.vars_recordCall (Nat.le_of_eq Declarations.generated_recordCall.symm)
  · exact .pure _

end Compile

/-! ## The same statement -/

/-- The look-up was made while `w` went on to `w'` in one function. It found what the name means there,
among all that is declared in `w` and nothing that is not in `w'`. -/
structure Resolution.Made (r : Resolution) (w w' : Work) : Prop where
  stays : w'.compiler.current = w.compiler.current
  inside : r.inside = w.compiler.current
  found : r.among.find? r.name r.inside = some r.var
  before : w.declarations.Extends r.among
  after : r.among.Extends w'.declarations

namespace Resolving

open Compile

variable {α β : Type} {act : Resolving α} {act' : Compile α} {k : α → Resolving β}
  {k' : α → Compile β}

theorem exec_bind (act : Resolving α) (k : α → Resolving β) (σ : Work × List Resolution) :
    exec (act >>= k) σ = match exec act σ with
      | (.ok a, σ') => exec (k a) σ'
      | (.error f, σ') => (.error f, σ') := by
  show (ExceptT.bindCont k (exec act σ).1 : StateM _ _) (exec act σ).2 = _
  rcases exec act σ with ⟨_ | _, _⟩ <;> rfl

/-- But for the record the action is the other one, and it records look-ups as they are made. -/
def Faithful (act : Resolving α) (act' : Compile α) : Prop :=
  ∀ (w : Work) (rs : List Resolution), ∃ new,
    exec act (w, rs) = ((Compile.exec act' w).1, ((Compile.exec act' w).2, rs ++ new)) ∧
    ∀ r ∈ new, r.Made w (Compile.exec act' w).2

/-- The actions go together, and stay in the function. -/
structure Follows (act : Resolving α) (act' : Compile α) : Prop where
  faithful : Faithful act act'
  stays : Stays act'

/-- Where nothing is looked up, nothing is recorded. -/
theorem faithful_of_silent {w : Work} {rs : List Resolution}
    (h : exec act (w, rs) = ((Compile.exec act' w).1, ((Compile.exec act' w).2, rs))) : ∃ new,
    exec act (w, rs) = ((Compile.exec act' w).1, ((Compile.exec act' w).2, rs ++ new)) ∧
      ∀ r ∈ new, r.Made w (Compile.exec act' w).2 :=
  ⟨[], by rw [List.append_nil, h], fun r hr => absurd hr List.not_mem_nil⟩

theorem Faithful.lift (act : Compile α) : Faithful (lift act) act :=
  fun _ _ => faithful_of_silent rfl

namespace Follows

theorem lift {act : Compile α} (h : Stays act) : Follows (lift act) act := ⟨.lift act, h⟩

protected theorem pure (a : α) : Follows (pure a) (pure a) := .lift (.pure a)

protected theorem fail (f : Fault) : Follows (Resolving.lift (fail f) : Resolving α) (fail f) :=
  .lift (.fail f)

protected theorem bind (h : Follows act act') (hk : ∀ a, Follows (k a) (k' a)) :
    Follows (act >>= k) (act' >>= k') := by
  refine ⟨fun w rs => ?_, .bind h.stays fun a => (hk a).stays⟩
  obtain ⟨new, he, hnew⟩ := h.faithful w rs
  have hw := h.stays w
  rw [exec_bind, Compile.exec_bind, he]
  match hact : Compile.exec act' w with
  | (.error f, w') =>
    rw [hact] at hnew
    exact ⟨new, rfl, hnew⟩
  | (.ok a, w') =>
    rw [hact] at hnew hw
    obtain ⟨more, he', hmore⟩ := (hk a).faithful w' (rs ++ new)
    have hw' := (hk a).stays w'
    refine ⟨new ++ more, by rw [← List.append_assoc]; exact he', fun r hr => ?_⟩
    rcases List.mem_append.mp hr with hr | hr
    · obtain ⟨hstays, hin, hfound, hbefore, hafter⟩ := hnew r hr
      exact ⟨hw'.current.trans hstays, hin, hfound, hbefore, hafter.trans hw'.declarations⟩
    · obtain ⟨hstays, hin, hfound, hbefore, hafter⟩ := hmore r hr
      exact ⟨hstays.trans hw.current, hin.trans hw.current, hfound, hw.declarations.trans hbefore,
        hafter⟩

theorem fail_bind (f : Fault) : Follows (Resolving.lift (fail f) >>= k) (fail f >>= k') := by
  refine ⟨fun w rs => faithful_of_silent ?_, .fail_bind f⟩
  rw [Compile.exec_bind_error (exec_fail f w), exec_bind]
  rfl

/-- Looking at the work looks nothing up. -/
theorem read {act : Compile α} (h : ∀ w, (Compile.exec act w).2 = w) :
    Follows (Resolving.lift act) act :=
  .lift (.of_compiler fun w => by rw [h])

end Follows

theorem exec_nested (act : Resolving α) {w : Work} (rs : List Resolution)
    (h : w.compiler.depth < maxNesting) : exec (nested act) (w, rs) =
      let e := exec act (w.atDepth (w.compiler.depth + 1), rs)
      (e.1, (e.2.1.atDepth (e.2.1.compiler.depth - 1), e.2.2)) := by
  unfold nested
  rw [exec_bind]
  show exec (ite _ _ _) (w, rs) = _
  simp only [Nat.not_le.mpr h, if_false]
  rfl

theorem exec_nested_of_le (act : Resolving α) {w : Work} (rs : List Resolution)
    (h : maxNesting ≤ w.compiler.depth) : exec (nested act) (w, rs) = (.error .nesting, (w, rs)) := by
  unfold nested
  rw [exec_bind]
  show exec (ite _ _ _) (w, rs) = _
  simp only [h, if_true]
  rfl

theorem Follows.nested (h : Follows act act') : Follows (nested act) (Compile.nested act') := by
  refine ⟨fun w rs => ?_, h.stays.nested⟩
  by_cases hd : w.compiler.depth < maxNesting
  · obtain ⟨new, he, hnew⟩ := h.faithful (w.atDepth (w.compiler.depth + 1)) rs
    rw [exec_nested act rs hd, Compile.exec_nested act' hd, he]
    refine ⟨new, rfl, fun r hr => ?_⟩
    obtain ⟨hstays, hin, hfound, hbefore, hafter⟩ := hnew r hr
    exact ⟨hstays, hin, hfound, hbefore, hafter⟩
  · have hle := Nat.le_of_not_lt hd
    refine faithful_of_silent ?_
    rw [exec_nested_of_le act rs hle, Compile.exec_nested_of_le act' hle]

/-- What is found in the function is recorded as found there. -/
theorem exec_found {w : Work} {name : String} {v : Variable} (rs : List Resolution)
    (h : w.declarations.find? name w.compiler.current = some v) : ∃ new,
    exec (found name v) (w, rs) = (.ok v, (w, rs ++ new)) ∧
      ∀ r ∈ new, r.Made w w := by
  refine ⟨[⟨name, w.declarations, w.compiler.current, v⟩], rfl, fun r hr => ?_⟩
  rw [List.mem_singleton.mp hr]
  exact ⟨rfl, rfl, h, .refl _, .refl _⟩

theorem follows_lookup (name : String) :
    Follows (lift (lookup name) >>= found name) (lookup name) := by
  have hlookup : ∀ w, Compile.exec (lookup name) w =
      (w.declarations.find name w.compiler.current, w) := by
    intro w
    unfold lookup
    rw [Compile.exec_bind_ok (exec_declarations w), Compile.exec_bind_ok (exec_current w),
      exec_ofExcept]
  refine ⟨fun w rs => ?_, .of_compiler fun w => by rw [hlookup]⟩
  have hlift : exec (lift (lookup name)) (w, rs) =
      (w.declarations.find name w.compiler.current, (w, rs)) := by
    show ((Compile.exec _ w).1, (Compile.exec _ w).2, rs) = _
    rw [hlookup]
  rw [exec_bind, hlift, hlookup]
  cases hv : w.declarations.find? name w.compiler.current with
  | none =>
    simp only [Declarations.find, hv]
    exact ⟨[], by rw [List.append_nil], fun r hr => absurd hr List.not_mem_nil⟩
  | some v =>
    simp only [Declarations.find, hv]
    exact exec_found rs hv

/-! ### Values -/

theorem follows_resolve (word : Word) : Follows (resolve word) (Compile.resolve word) := by
  unfold resolve Compile.resolve
  split
  · rw [← bind_assoc]
    exact .bind (follows_lookup word.name) fun v => .pure _
  · exact .pure _

section Parts

variable {expression call : Word → Resolving Operand} {expression' call' : Word → Compile Operand}
  {arguments : Callee → Option Variable → Resolving (List Operand)}
  {arguments' : Callee → Option Variable → Compile (List Operand)}

theorem follows_callWith (hargs : ∀ c result, Follows (arguments c result) (arguments' c result))
    (word : Word) (result : Option Variable) :
    Follows (callWith arguments word result) (Compile.callWith arguments' word result) :=
  .bind (.lift (stays_introduce word)) fun c => .bind (.lift (stays_noteCall word c result)) fun _ =>
    .bind (.nested (hargs c result)) fun args => .lift (stays_emitCall c args result)

theorem follows_heldCall (hargs : ∀ c result, Follows (arguments c result) (arguments' c result))
    (word : Word) : Follows (heldCall arguments word) (Compile.heldCall arguments' word) :=
  .bind (.lift stays_declareTemporary) fun v => .bind (.lift (.of_compiler fun _ => rfl)) fun _ =>
    .bind (follows_callWith hargs word (some v)) fun _ => .pure _

theorem follows_chain (hcall : ∀ word, Follows (call word) (call' word)) (n : Nat) (left : Operand) :
    Follows (chain call n left) (Compile.chain call' n left) := by
  induction n generalizing left with
  | zero =>
    unfold chain Compile.chain
    refine .bind (.read fun _ => rfl) fun t => ?_
    split
    · exact .pure _
    · exact .fail _
  | succ n ih =>
    unfold chain Compile.chain
    refine .bind (.read fun _ => rfl) fun t => ?_
    split
    · exact .pure _
    · refine .bind (.lift stays_nextWord) fun word => .bind (.read fun _ => rfl) fun t => ?_
      dsimp only
      split
      · exact .bind (hcall word) fun right => ih _
      · exact .bind (follows_resolve word) fun right => ih _

theorem follows_concatenation (hcall : ∀ word, Follows (call word) (call' word)) (left : Operand) :
    Follows (concatenation call left) (Compile.concatenation call' left) :=
  .bind (.read fun _ => rfl) fun n => follows_chain hcall n left

theorem follows_argumentList (hexpr : ∀ word, Follows (expression word) (expression' word)) (n : Nat) :
    Follows (argumentList expression n) (Compile.argumentList expression' n) := by
  induction n with
  | zero => exact .fail _
  | succ n ih =>
    have hmore : ∀ x, Follows (do
        let t ← lift tail
        if (t.separates && !t.isClosing) = true then do
          let xs ← argumentList expression n
          pure (x :: xs)
        else pure [x]) (do
        let t ← tail
        if (t.separates && !t.isClosing) = true then do
          let xs ← Compile.argumentList expression' n
          pure (x :: xs)
        else pure [x]) := by
      intro x
      refine .bind (.read fun _ => rfl) fun t => ?_
      split
      · exact .bind ih fun xs => .pure _
      · exact .pure _
    refine .bind (.lift stays_nextWord) fun word => .bind (.read fun _ => rfl) fun t => ?_
    dsimp only
    split
    · exact .bind (hexpr word) hmore
    · exact .bind (follows_resolve word) hmore

theorem follows_argumentsWith (hexpr : ∀ word, Follows (expression word) (expression' word))
    (c : Callee) (result : Option Variable) :
    Follows (argumentsWith expression c result) (Compile.argumentsWith expression' c result) := by
  rw [argumentsWith_eq]
  unfold argumentsWith
  dsimp only
  split
  · exact .fail_bind _
  refine .bind (.read fun _ => rfl) fun t => ?_
  split
  · exact .bind (.pure _) fun args => .lift (stays_closeArguments c args)
  · refine .bind (.read fun _ => rfl) fun n => ?_
    exact .bind (follows_argumentList hexpr n) fun args => .lift (stays_closeArguments c args)

end Parts

theorem follows_expression_and_arguments (n : Nat) :
    (∀ word, Follows (expression n word) (Compile.expression n word)) ∧
      ∀ c result, Follows (arguments n c result) (Compile.arguments n c result) := by
  induction n with
  | zero => exact ⟨fun _ => .fail _, fun _ _ => .fail _⟩
  | succ n ih =>
    obtain ⟨hexpr, hargs⟩ := ih
    have hcall := follows_heldCall hargs
    refine ⟨fun word => .nested ?_, follows_argumentsWith hexpr⟩
    refine .bind (.read fun _ => rfl) fun t => ?_
    split
    · exact .bind (hcall word) (follows_concatenation hcall)
    · split
      · exact .bind (follows_resolve word) (follows_concatenation hcall)
      · exact follows_resolve word

theorem follows_value (word : Word) : Follows (value word) (Compile.value word) :=
  (follows_expression_and_arguments levels).1 word

theorem follows_callInto (word : Word) (result : Option Variable) :
    Follows (callInto word result) (Compile.callInto word result) :=
  follows_callWith (follows_expression_and_arguments levels).2 word result

theorem follows_valueFrom (left : Operand) : Follows (valueFrom left) (Compile.valueFrom left) :=
  follows_concatenation (follows_heldCall (follows_expression_and_arguments levels).2) left

/-! ### Conditions -/

theorem follows_openTerm (o : Opener) : Follows (openTerm o) (Compile.openTerm o) := by
  refine .bind (.lift stays_nextWord) fun word => ?_
  split
  · exact .bind (.lift stays_nextWord) fun word => .bind (follows_value word) fun x => .pure _
  · exact .bind (follows_value word) fun x => .pure _

theorem follows_moreTerms (n : Nat) (ts : List Term) (opened : List Nat) :
    Follows (moreTerms n ts opened) (Compile.moreTerms n ts opened) := by
  fun_induction Compile.moreTerms n ts opened with
  | case1 n ts =>
    unfold moreTerms
    exact .pure _
  | case2 ts i outer =>
    refine .bind (.read fun _ => rfl) fun t => ?_
    cases t.relation with
    | some r => exact .fail _
    | none => exact .pure ts
  | case3 n ts i outer ihCompare ihOpen ihLeft =>
    refine .bind (.read fun _ => rfl) fun t => ?_
    cases t.relation with
    | some r =>
      refine .bind (.read fun _ => rfl) fun b => ?_
      dsimp only
      split
      · exact .fail_bind _
      exact .bind (.lift stays_nextWord) fun word => .bind (follows_value word) fun x => ihCompare _ x
    | none =>
      refine .bind (.read fun _ => rfl) fun b => ?_
      split
      · exact .pure ts
      refine .bind (.lift stays_nextWord) fun word => ?_
      cases connective? word with
      | some o => exact .bind (follows_openTerm o) ihOpen
      | none => exact .bind (follows_value word) ihLeft

theorem follows_condition (o : Opener) : Follows (condition o) (Compile.condition o) :=
  .nested (.bind (follows_openTerm o) fun t =>
    .bind (.read fun _ => rfl) fun n => follows_moreTerms n [t] [0])

theorem follows_moreConditions (n : Nat) : Follows (moreConditions n) (Compile.moreConditions n) := by
  induction n with
  | zero => exact .pure []
  | succ n ih =>
    refine .bind (.read fun _ => rfl) fun b => ?_
    split
    · exact .pure []
    refine .bind (.lift stays_nextWord) fun word => ?_
    cases (Opener.ofName? word.name).filter (·.isConnective) with
    | some o => exact .bind (follows_condition o) fun ts => .bind ih fun us => .pure (ts ++ us)
    | none => exact .fail _

theorem follows_conditions (o : Opener) : Follows (conditions o) (Compile.conditions o) :=
  .bind (follows_condition o) fun ts => .bind (.read fun _ => rfl) fun n =>
    .bind (follows_moreConditions n) fun us => .pure (ts ++ us)

/-! ### Statements -/

theorem follows_assigned (name : String) : Follows (assigned name) (Compile.assigned name) := by
  have hassigned : ∀ {w v}, w.declarations.find? name w.compiler.current = some v →
      Compile.exec (Compile.assigned name) w = (.ok v, w) := by
    intro w v h
    unfold Compile.assigned
    rw [Compile.exec_bind_ok (exec_declarations w), Compile.exec_bind_ok (exec_current w), h]
    rfl
  have hdeclared : ∀ {w}, w.declarations.find? name w.compiler.current = none →
      Compile.exec (Compile.assigned name) w = Compile.exec (declare name) w := by
    intro w h
    unfold Compile.assigned
    rw [Compile.exec_bind_ok (exec_declarations w), Compile.exec_bind_ok (exec_current w), h]
  have hrun : ∀ w rs, exec (assigned name) (w, rs) =
      exec (match w.declarations.find? name w.compiler.current with
        | some v => found name v
        | none => lift (declare name)) (w, rs) := fun w rs => rfl
  refine ⟨fun w rs => ?_, fun w => ?_⟩
  · rw [hrun]
    cases hv : w.declarations.find? name w.compiler.current with
    | some v =>
      rw [hassigned hv]
      exact exec_found rs hv
    | none =>
      rw [hdeclared hv]
      exact Faithful.lift (declare name) w rs
  · cases hv : w.declarations.find? name w.compiler.current with
    | some v =>
      rw [hassigned hv]
      exact .of_compiler rfl
    | none =>
      rw [hdeclared hv]
      exact stays_declare name w

theorem follows_assignment (word : Word) : Follows (assignment word) (Compile.assignment word) := by
  have hcopy : ∀ v x, Follows (do
      lift expectEnd
      lift (emit [⟨0, .copy v x⟩])) (do
      expectEnd
      emit [⟨0, .copy v x⟩]) := fun v x =>
    .bind (.lift stays_expectEnd) fun _ => .lift (.of_compiler fun _ => rfl)
  unfold assignment Compile.assignment
  dsimp only
  split
  · exact .fail_bind _
  refine .bind (.lift (.ofExcept _)) fun _ => .bind (follows_assigned _) fun v => ?_
  refine .bind (.lift stays_nextWord) fun head => .bind (.read fun _ => rfl) fun t => ?_
  split
  · refine .bind (follows_callInto head (some v)) fun _ => .bind (.read fun _ => rfl) fun t => ?_
    split
    · exact .lift stays_expectEnd
    · exact .bind (follows_valueFrom (.var v)) fun x => hcopy v x
  · split
    · exact .bind (follows_value head) fun x => hcopy v x
    · exact .bind (follows_resolve head) fun x => hcopy v x

theorem follows_functionReturn : Follows functionReturn Compile.functionReturn := by
  refine .bind (.read fun _ => rfl) fun f => ?_
  cases f with
  | none => exact .fail _
  | some f =>
    refine .bind (.read fun _ => rfl) fun b => ?_
    split
    · have hset : Stays (declarations >>= fun d => setDeclarations (d.modifyFunction f (·.setReturn))) :=
        stays_setDeclarations _ fun d => Declarations.extends_modifyFunction d f _
      conv_rhs => rw [← bind_assoc]
      refine .bind (.lift hset) fun _ => .bind (.lift stays_nextWord) fun word => ?_
      refine .bind (follows_value word) fun x => .bind (.lift stays_expectEnd) fun _ => ?_
      exact .bind (.lift stays_ensureRegister) fun _ => .lift (.of_compiler fun _ => rfl)
    · exact .lift (.of_compiler fun _ => rfl)

theorem follows_branch (word : Word) : Follows (branch word) (Compile.branch word) := by
  unfold branch Compile.branch
  cases (Opener.ofName? word.name).filter (·.isBranch) with
  | none => exact .fail _
  | some o => exact .bind (follows_conditions o) fun ts => .lift (.of_compiler fun _ => rfl)

theorem follows_loop (name : String) : Follows (loop name) (Compile.loop name) := by
  refine .bind (.read fun _ => rfl) fun b => ?_
  split
  · exact .lift (.of_compiler fun _ => rfl)
  refine .bind (.lift stays_nextWord) fun word => ?_
  cases (Opener.ofName? word.name).filter (·.isLoop) with
  | none => exact .fail _
  | some o =>
    refine .bind (follows_condition o) fun ts => ?_
    match ts with
    | [t] =>
      refine .bind (.read fun _ => rfl) fun b => ?_
      dsimp only
      split
      · exact .fail_bind _
      split
      · exact .fail_bind _
      · exact .lift (.of_compiler fun _ => rfl)
    | [] => exact .fail _
    | _ :: _ :: _ => exact .fail _

theorem follows_written {act : Resolving Unit} {act' : Compile Unit} (h : Follows act act') :
    Follows (written act) (Compile.written act') :=
  .bind h fun _ => .bind (.read fun _ => rfl) fun w => .pure (Compiled.lines w.lines)

/-- All constructs but the beginning and the end of a function stay in it. -/
theorem follows_dispatch {word : Word} {t : Tail}
    (h : (!t.assigns && !t.opens && !t.command) = true →
      word.name ≠ "function" ∧ word.name ≠ "functionend") :
    Follows (dispatch word t) (Compile.dispatch word t) := by
  have hkeyword : ∀ name, Follows (written (lift (emit [⟨0, .keyword name⟩])))
      (Compile.written (emit [⟨0, .keyword name⟩])) :=
    fun name => follows_written (.lift (.of_compiler fun _ => rfl))
  unfold dispatch Compile.dispatch
  split
  · exact follows_written (follows_assignment word)
  next ha =>
  split
  · exact follows_written (.bind (follows_callInto word none) fun _ => .lift stays_expectEnd)
  next ho =>
  split
  · exact .lift stays_command
  next hc =>
  obtain ⟨hbegin, hend⟩ := h (by simp [ha, ho, hc])
  have hbranch := follows_written (follows_branch word)
  generalize word.name = name at hbegin hend
  split
  · exact follows_written (.lift stays_declaration)
  · exact absurd rfl hbegin
  · exact follows_written follows_functionReturn
  · exact absurd rfl hend
  · exact hbranch
  · exact hbranch
  · exact hkeyword _
  · exact hkeyword _
  · exact follows_written (follows_loop _)
  · exact follows_written (follows_loop _)
  · exact hkeyword _
  · exact hkeyword _
  · simpa only using Follows.pure Compiled.verbatim

theorem faithful_written_lift (act : Compile Unit) :
    Faithful (written (lift act)) (Compile.written act) := by
  intro w rs
  refine faithful_of_silent ?_
  have hlift : exec (lift act) (w, rs) = ((Compile.exec act w).1, ((Compile.exec act w).2, rs)) := rfl
  rw [written, exec_bind, hlift, Compile.written, Compile.exec_bind]
  rcases Compile.exec act w with ⟨_ | _, _⟩ <;> rfl

theorem faithful_dispatch (word : Word) (t : Tail) :
    Faithful (dispatch word t) (Compile.dispatch word t) := by
  by_cases h : (!t.assigns && !t.opens && !t.command) = true ∧
      (word.name = "function" ∨ word.name = "functionend")
  · obtain ⟨hplain, hname⟩ := h
    simp only [Bool.and_eq_true, Bool.not_eq_true'] at hplain
    unfold dispatch Compile.dispatch
    simp only [hplain]
    rcases hname with hname | hname <;> rw [hname] <;> exact faithful_written_lift _
  · refine (follows_dispatch fun hplain => ?_).faithful
    exact ⟨fun hname => h ⟨hplain, .inl hname⟩, fun hname => h ⟨hplain, .inr hname⟩⟩

/-- But for the record a statement is compiled as ever, and each look-up is recorded as it was made. -/
theorem faithful_statement : Faithful statement Compile.statement := by
  intro w rs
  obtain ⟨compiler, ⟨tail, ahead⟩, lines, notes⟩ := w
  cases ahead with
  | nil =>
    refine faithful_of_silent ?_
    rw [Compile.exec_statement_of_none rfl]
    rfl
  | cons t ts =>
    rw [Compile.exec_statement rfl]
    obtain ⟨new, he, hnew⟩ := faithful_dispatch t.word t.tail
      { compiler, cursor := ⟨t.tail, ts⟩, lines, notes } rs
    refine ⟨new, he, fun r hr => ?_⟩
    obtain ⟨hstays, hin, hfound, hbefore, hafter⟩ := hnew r hr
    exact ⟨hstays, hin, hfound, hbefore, hafter⟩

end Resolving

/-- The look-ups of a statement that consists of the words `ts`. -/
def Compiler.resolutions (c : Compiler) (ts : List Token) : List Resolution :=
  (Resolving.exec Resolving.statement (c.work ts, [])).2.2

theorem Compiler.exec_resolutions (c : Compiler) (ts : List Token) :
    Resolving.exec Resolving.statement (c.work ts, []) =
      ((Compile.exec Compile.statement (c.work ts)).1,
        ((Compile.exec Compile.statement (c.work ts)).2, c.resolutions ts)) ∧
    ∀ r ∈ c.resolutions ts, r.Made (c.work ts) (Compile.exec Compile.statement (c.work ts)).2 := by
  obtain ⟨new, he, hnew⟩ := Resolving.faithful_statement (c.work ts) []
  have hres : c.resolutions ts = new := by
    rw [resolutions, he]
    rfl
  rw [hres]
  exact ⟨he, hnew⟩

end InstallScript
