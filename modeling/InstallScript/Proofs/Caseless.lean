import InstallScript.Proofs.Coining
import InstallScript.Proofs.DeclaredFirst

/-!
The labels of functions keep the case they are written in, and nothing else does. `caseless` puts them
into lower case, in the declarations and in the lines, with the notes and the faults that tell of them.
Looking up, declaring and calling a function does not ask for its label: each of them is the same after
`caseless` as before.
-/

namespace InstallScript

/-! ## Labels in lower case -/

def Function.caseless (f : Function) : Function := { f with label := f.label.toLower }

def Placeholder.caseless (p : Placeholder) : Placeholder := { p with label := p.label.toLower }

def Callee.caseless : Callee → Callee
  | function f => function f.caseless
  | placeholder p => placeholder p.caseless
  | c => c

def Declarations.caseless (d : Declarations) : Declarations :=
  { d with callees := d.callees.map fun e => (e.1, e.2.caseless) }

/-- The compiler with the labels of all functions in lower case. -/
def Compiler.caseless (c : Compiler) : Compiler := { c with declarations := c.declarations.caseless }

def Instr.caseless : Instr → Instr
  | call l => call l.toLower
  | functionBegin l => functionBegin l.toLower
  | i => i

def Line.caseless (l : Line) : Line := { l with instr := l.instr.caseless }

def Note.caseless : Note → Note
  | newFunction l => newFunction l.toLower
  | holdsResult c t => holdsResult c.toLower t
  | notIntroduced l => notIntroduced l.toLower
  | neverReturns l => neverReturns l.toLower
  | n => n

def Fault.caseless : Fault → Fault
  | conditionKeyword w => conditionKeyword w.toLower
  | connective w => connective w.toLower
  | loopKeyword l w => loopKeyword l w.toLower
  | tooFew c e p => tooFew c.toLower e p
  | tooMany c e p => tooMany c.toLower e p
  | f => f

theorem Function.caseless_eq_iff {f f' : Function} : f.caseless = f'.caseless ↔ f.name = f'.name ∧
    f.label.toLower = f'.label.toLower ∧ f.params = f'.params ∧ f.hasReturn = f'.hasReturn ∧
      f.earlier = f'.earlier := by
  simp [caseless]

namespace Callee

variable {c c' : Callee}

theorem name_caseless (c : Callee) : c.caseless.name = c.name := by cases c <;> rfl

theorem least_caseless (c : Callee) : c.caseless.least = c.least := by cases c <;> rfl

theorem most_caseless (c : Callee) : c.caseless.most = c.most := by cases c <;> rfl

theorem convention_caseless (c : Callee) : c.caseless.convention = c.convention := by cases c <;> rfl

theorem returnsByRegister_caseless (c : Callee) : c.caseless.returnsByRegister = c.returnsByRegister := by
  cases c <;> rfl

theorem checkCount_caseless (c : Callee) (n : Nat) : c.caseless.checkCount n = c.checkCount n := by
  rw [checkCount, checkCount, name_caseless, least_caseless, most_caseless]

theorem pad_caseless (c : Callee) (args : List Operand) : c.caseless.pad args = c.pad args := by
  rw [pad, pad, most_caseless]

/-- Callees that differ in case only are the same, or both are functions, declared or not. -/
theorem cases_of_caseless (h : c.caseless = c'.caseless) : c = c' ∨
    (∃ f f', c = function f ∧ c' = function f' ∧ f.caseless = f'.caseless) ∨
      ∃ p p', c = placeholder p ∧ c' = placeholder p' ∧ p.caseless = p'.caseless := by
  cases c <;> cases c' <;> simp_all [caseless]

/-- The lines of a message box have no labels of functions. -/
theorem caseless_answer (g : ButtonGroup) (d : Dialog) (v : Variable) (n : Nat) :
    (MessageBox.answer g d v n).map Line.caseless = MessageBox.answer g d v n := by
  have hbranch : ∀ (exit : String) (jumps : List (Button × String)),
      (jumps.flatMap (MessageBox.branch v exit)).map Line.caseless =
        jumps.flatMap (MessageBox.branch v exit) := by
    intro exit jumps
    rw [List.map_flatMap]
    rfl
  simp only [MessageBox.answer, List.cons_append, List.map_cons, List.map_append, List.map_nil, hbranch]
  rfl

theorem caseless_labelCall (label : String) (args : List Operand) (result : Option Variable) :
    (labelCall label args result).map Line.caseless = labelCall label.toLower args result := by
  simp only [labelCall, List.map_append, List.map_map, List.map_cons, List.map_nil]
  cases result <;> rfl

/-- Calls of functions in lower case are the calls in lower case. -/
theorem lines_caseless (c : Callee) (args : List Operand) (result : Option Variable) (n : Nat) :
    c.caseless.lines args result n =
      (c.lines args result n).map fun p => (p.1.map Line.caseless, p.2) := by
  cases c with
  | command k => rfl
  | function f =>
    show Except.ok (labelCall f.label.toLower args result, n) = _
    rw [← caseless_labelCall]
    rfl
  | placeholder p =>
    show Except.ok (labelCall p.label.toLower args result, n) = _
    rw [← caseless_labelCall]
    rfl
  | messageBox =>
    show MessageBox.lines args result n = (MessageBox.lines args result n).map _
    unfold MessageBox.lines
    cases MessageBox.ofArguments args with
    | error f => rfl
    | ok p =>
      cases result with
      | none => rfl
      | some v =>
        show Except.ok (MessageBox.answer p.1 p.2 v (n + 1), _) =
          .ok ((MessageBox.answer p.1 p.2 v (n + 1)).map Line.caseless, _)
        rw [caseless_answer]

end Callee

namespace Declarations

variable {d d' : Declarations} {name label : String}

theorem caseless_eq_iff : d.caseless = d'.caseless ↔ d.vars = d'.vars ∧
    d.caseless.callees = d'.caseless.callees ∧ d.generated = d'.generated := by
  simp [caseless]

theorem callee?_caseless (d : Declarations) (name : String) :
    d.caseless.callee? name = (d.callee? name).map Callee.caseless := by
  unfold callee? caseless
  induction d.callees with
  | nil => rfl
  | cons e es ih =>
    obtain ⟨key, c⟩ := e
    simp only [List.map_cons, List.lookup_cons, ih]
    split <;> rfl

theorem caseless_putCallee (d : Declarations) (name : String) (c : Callee) :
    (d.putCallee name c).caseless = d.caseless.putCallee name c.caseless := by
  have hentry : ∀ es : List (String × Callee), (putEntry name c es).map (fun e => (e.1, e.2.caseless)) =
      putEntry name c.caseless (es.map fun e => (e.1, e.2.caseless)) := by
    intro es
    induction es with
    | nil => rfl
    | cons e es ih =>
      simp only [putEntry, List.map_cons, ← ih]
      split <;> rfl
  exact congrArg (fun es => { d with callees := es }) (hentry d.callees)

theorem declare_caseless (d : Declarations) (name : String) (scope : Scope) :
    d.caseless.declare name scope = (d.declare name scope).map fun p => (p.1, p.2.caseless) := by
  have hdeclared : d.caseless.declared? name scope = d.declared? name scope := rfl
  rw [declare, declare, hdeclared]
  cases d.declared? name scope <;> rfl

theorem declareFunction_caseless (d : Declarations) (name label : String) :
    d.caseless.declareFunction name label.toLower =
      (d.declareFunction name label).map fun p => (p.1.caseless, p.2.caseless) := by
  unfold declareFunction
  rw [callee?_caseless]
  rcases d.callee? name with _ | (_ | _ | _ | _)
  all_goals simp only [Option.map_none, Option.map_some, Callee.caseless, Except.map, caseless_putCallee]
  · rfl
  · rfl

theorem caseless_modifyFunction {change : Function → Function} (d : Declarations) (name : String)
    (h : ∀ f, (change f).caseless = change f.caseless) :
    (d.modifyFunction name change).caseless = d.caseless.modifyFunction name change := by
  unfold modifyFunction function?
  rw [callee?_caseless]
  rcases d.callee? name with _ | (_ | f | _ | _)
  all_goals simp only [Option.map_none, Option.map_some, Callee.caseless]
  rw [caseless_putCallee, Callee.caseless, h]

theorem modifyFunction_alike {change : Function → Function} (hd : d.caseless = d'.caseless)
    (name : String) (h : ∀ f, (change f).caseless = change f.caseless) :
    (d.modifyFunction name change).caseless = (d'.modifyFunction name change).caseless := by
  rw [caseless_modifyFunction d name h, caseless_modifyFunction d' name h, hd]

theorem callee_caseless (d : Declarations) (name label : String) :
    d.caseless.callee name label.toLower =
      ((d.callee name label).1.caseless, (d.callee name label).2.caseless) := by
  unfold callee
  rw [callee?_caseless]
  cases d.callee? name with
  | some c => rfl
  | none =>
    simp only [Option.map_none, caseless_putCallee]
    rfl

theorem caseless_recordCall (d : Declarations) (name : String) (n : Nat) :
    (d.recordCall name n).caseless = d.caseless.recordCall name n := by
  unfold recordCall
  rw [callee?_caseless]
  rcases d.callee? name with _ | (_ | _ | p | _)
  all_goals simp only [Option.map_none, Option.map_some, Callee.caseless]
  rw [caseless_putCallee]
  rfl

end Declarations

theorem Compiler.caseless_eq_iff {c c' : Compiler} : c.caseless = c'.caseless ↔
    c.declarations.caseless = c'.declarations.caseless ∧ c.current = c'.current ∧
      c.discarded = c'.discarded ∧ c.register = c'.register ∧ c.depth = c'.depth := by
  simp [caseless]

/-! ## Names in lines -/

theorem declaredIn_caseless (ls : List Line) : declaredIn (ls.map Line.caseless) = declaredIn ls := by
  have hline : ∀ l : Line, l.caseless.instr.declared? = l.instr.declared? := by
    rintro ⟨inset, instr⟩
    cases instr <;> rfl
  rw [declaredIn, List.filterMap_map]
  exact congrArg (List.filterMap · ls) (funext hline)

theorem coined_caseless (ls : List Line) : coined (ls.map Line.caseless) = coined ls := by
  have hline : ∀ l : Line, l.caseless.instr.coined? = l.instr.coined? := by
    rintro ⟨inset, instr⟩
    cases instr <;> rfl
  rw [coined, List.filterMap_map]
  exact congrArg (List.filterMap · ls) (funext hline)

end InstallScript
