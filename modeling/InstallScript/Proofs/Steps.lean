import Mathlib.Logic.Relation
import InstallScript.Compile.Work
import InstallScript.Proofs.Declarations
import InstallScript.Proofs.Names

/-!
What compiling can do. Whatever a statement is, and whether it turns out right or wrong, the state
changes by the steps listed in `Compile.Step` and by no others, so that a property of all runs is a
property these steps keep.

* `Compiler.Sound` gathers what every later argument needs of a state: no two variables have one name
  and scope, every variable has one of five origins, the shared variables are declared exactly when
  the compiler remembers them, and a function's parameters are variables of the function.
* `Compile.Step.sound`: every step keeps it.
-/

namespace InstallScript

/-! ## Variables in lines -/

def Piece.var? : Piece → Option Variable
  | text _ => none
  | value v => some v

/-- The variables an operand reads. -/
def Operand.vars : Operand → List Variable
  | var v => [v]
  | joined ps => ps.filterMap Piece.var?
  | literal _ | button _ | omitted => []

/-- The variables a line reads or writes. The line that declares a variable does neither. -/
def Instr.vars : Instr → List Variable
  | copy v x | copyUnlessErrors v x => v :: x.vars
  | perform _ args => args.flatMap Operand.vars
  | push x => x.vars
  | pop v => [v]
  | dialog d => d.message.vars
  | condition _ t => t.operands.flatMap Operand.vars
  | declare _ | clearErrors | call _ | functionBegin _ | functionEnd | leave | label _ | jump _
  | keyword _ => []

/-- Neither a declaration, nor part of a call of a function or of the beginning of one. -/
def Instr.isPlain : Instr → Bool
  | declare _ | push _ | pop _ | call _ | functionBegin _ => false
  | _ => true

/-! ## Sound states -/

/-- Where a declared variable can come from, when `n` names have been generated. -/
inductive Variable.Origin (n : Nat) (v : Variable) : Prop
  | predefined (h : v ∈ Catalogue.vars)
  | named (t : String) (hn : v.name = Text.lower t) (hr : Names.isReserved v.name = false)
      (hp : v.predefined = none)
  | temporary (k : Nat) (hn : v.name = Names.generated k) (hk : k ≤ n) (hp : v.predefined = none)
  | register (h : v = Names.returnRegister)
  | discarded (h : v = Names.discarded)

/-- The function is kept under its name in lower case, and its parameters are local to it. -/
structure Function.Belongs (f : Function) (name : String) (vars : List Variable) : Prop where
  name_eq : f.name = name
  label_eq : Text.lower f.label = name
  params : ∀ v ∈ f.params, v ∈ vars ∧ v.scope = .function name
  nodup : f.params.Nodup

/-- A callee is what it should be under its name. -/
def Callee.Belongs (c : Callee) (name : String) (vars : List Variable) : Prop :=
  match c with
  | .function f => f.Belongs name vars
  | .placeholder p => p.name = name ∧ Text.lower p.label = name
  | _ => True

structure Compiler.Sound (c : Compiler) : Prop where
  keys : c.declarations.vars.Pairwise fun u v => (u.name, u.scope) ≠ (v.name, v.scope)
  origins : ∀ v ∈ c.declarations.vars, v.Origin c.declarations.generated
  register_none : c.register = none → c.declarations.declared? Names.returnRegister.name .global = none
  register_some : ∀ v, c.register = some v → v = Names.returnRegister ∧ v ∈ c.declarations.vars
  discarded_none : c.discarded = none → c.declarations.declared? Names.discarded.name .global = none
  discarded_some : ∀ v, c.discarded = some v → v = Names.discarded ∧ v ∈ c.declarations.vars
  callees : ∀ name callee, c.declarations.callee? name = some callee →
    callee.Belongs name c.declarations.vars

/-! ## Steps -/

namespace Work

abbrev declarations (w : Work) : Declarations := w.compiler.declarations

def withDeclarations (w : Work) (d : Declarations) : Work :=
  { w with compiler := { w.compiler with declarations := d } }

/-- Adds lines at the end. -/
def write (w : Work) (ls : List Line) : Work := { w with lines := w.lines ++ ls }

/-- Declares a variable and writes its declaration. -/
def declare (w : Work) (v : Variable) : Work :=
  (w.withDeclarations (w.declarations.addVariable v)).write [⟨0, .declare v⟩]

/-- The work with one more name generated. -/
def numbered (w : Work) : Work :=
  w.withDeclarations { w.declarations with generated := w.declarations.generated + 1 }

/-- The variable that the next generated name stands for. -/
def temporary (w : Work) : Variable :=
  ⟨Names.generated (w.declarations.generated + 1), w.compiler.scope, none⟩

/-- The variable is declared, and can be seen where the statement stands. -/
def Sees (w : Work) (v : Variable) : Prop :=
  v ∈ w.declarations.vars ∧ (v.scope = .global ∨ v.scope = w.compiler.scope)

/-- A call to the label with `n` arguments is one that the callee of that name accepts, or has been
remembered with its placeholder. -/
def Takes (w : Work) (label : String) (n : Nat) : Prop :=
  (∃ f, w.declarations.callee? (Text.lower label) = some (.function f) ∧ f.label = label ∧
      f.params.length = n) ∨
    ∃ p, w.declarations.callee? (Text.lower label) = some (.placeholder p) ∧ p.label = label ∧
      n ∈ p.calls

end Work

/-- Values are compiled in statements of all kinds but the beginning of a function, which alone
changes the parameters of one. -/
inductive Phase
  | value
  | body
  | header
deriving DecidableEq

/-- One change of the work on a statement. -/
inductive Compile.Step (p : Phase) : Work → Work → Prop
  /-- Reading words, taking notes, and going in and out of a nesting. -/
  | pass {w w' : Work} (hc : w'.compiler = { w.compiler with depth := w'.compiler.depth })
      (hl : w'.lines = w.lines) : Step p w w'
  | write {w : Work} {ls : List Line} (hp : p ≠ .header) (hl : ∀ l ∈ ls, l.instr.isPlain)
      (hv : ∀ l ∈ ls, ∀ v ∈ l.instr.vars, w.Sees v) : Step p w (w.write ls)
  | call {w : Work} {label : String} {args : List Operand} {result : Option Variable}
      (hp : p ≠ .header) (ht : w.Takes label args.length)
      (hv : ∀ l ∈ Callee.labelCall label args result, ∀ v ∈ l.instr.vars, w.Sees v) :
      Step p w (w.write (Callee.labelCall label args result))
  /-- Generated names may be used for other things than variables. -/
  | generate {w : Work} {n : Nat} (hp : p ≠ .header) (hn : w.declarations.generated ≤ n) :
      Step p w (w.withDeclarations { w.declarations with generated := n })
  | temporary {w : Work} (hp : p ≠ .header)
      (hd : ∀ scope, w.declarations.declared? (Names.generated w.declarations.generated) scope = none) :
      Step p w (w.declare ⟨Names.generated w.declarations.generated, w.compiler.scope, none⟩)
  | register {w : Work} (hp : p ≠ .header) (hr : w.compiler.register = none)
      (hd : w.declarations.declared? Names.returnRegister.name .global = none) :
      Step p w { w.declare Names.returnRegister with
        compiler := { (w.declare Names.returnRegister).compiler with
          register := some Names.returnRegister } }
  | discarded {w : Work} (hp : p ≠ .header) (hr : w.compiler.discarded = none)
      (hd : w.declarations.declared? Names.discarded.name .global = none) :
      Step p w { w.declare Names.discarded with
        compiler := { (w.declare Names.discarded).compiler with discarded := some Names.discarded } }
  | introduce {w : Work} {label : String} (hp : p ≠ .header)
      (hn : w.declarations.callee? (Text.lower label) = none) :
      Step p w (w.withDeclarations
        (w.declarations.putCallee (Text.lower label) (.placeholder { name := Text.lower label, label })))
  | record {w : Work} {name : String} {q : Placeholder} {n : Nat} (hp : p ≠ .header)
      (hq : w.declarations.callee? name = some (.placeholder q)) :
      Step p w (w.withDeclarations (w.declarations.recordCall name n))
  | named {w : Work} {t : String} (hp : p = .body) (hr : Names.isReserved (Text.lower t) = false)
      (hd : w.declarations.declared? (Text.lower t) w.compiler.scope = none) :
      Step p w (w.declare ⟨Text.lower t, w.compiler.scope, none⟩)
  | returns {w : Work} {name : String} (hp : p = .body) (hc : w.compiler.current = some name) :
      Step p w (w.withDeclarations (w.declarations.modifyFunction name (·.setReturn)))
  | ended {w : Work} (hp : p = .body) (hc : w.compiler.current.isSome) :
      Step p w { w with compiler := { w.compiler with current := none } }
  | begun {w : Work} {label : String} {f : Function} {d : Declarations} (hp : p = .header)
      (hc : w.compiler.current = none)
      (hd : w.declarations.declareFunction (Text.lower label) label = .ok (f, d)) :
      Step p w { w with
        compiler := { w.compiler with declarations := d, current := some (Text.lower label) } }
  | param {w : Work} {name t : String} {f : Function} (hp : p = .header)
      (hc : w.compiler.current = some name)
      (hf : w.declarations.callee? name = some (.function f))
      (hr : Names.isReserved (Text.lower t) = false)
      (hd : w.declarations.declared? (Text.lower t) (.function name) = none) :
      Step p w ((w.declare ⟨Text.lower t, .function name, none⟩).withDeclarations
        ((w.declare ⟨Text.lower t, .function name, none⟩).declarations.modifyFunction name
          (·.addParam ⟨Text.lower t, .function name, none⟩)))
  | opened {w : Work} {name : String} {f : Function} (hp : p = .header)
      (hc : w.compiler.current = some name)
      (hf : w.declarations.callee? name = some (.function f)) (he : f.checkEarlier = .ok ()) :
      Step p w (w.write (⟨0, .functionBegin f.label⟩ :: f.params.reverse.map fun v => ⟨1, .pop v⟩))

/-- Any number of steps. -/
abbrev Compile.Reach (p : Phase) : Work → Work → Prop := Relation.ReflTransGen (Step p)

/-! ## Steps keep states sound -/

theorem Variable.Origin.mono {m n : Nat} {v : Variable} (h : v.Origin m) (hmn : m ≤ n) : v.Origin n := by
  cases h with
  | predefined h => exact .predefined h
  | named t hn hr hp => exact .named t hn hr hp
  | temporary k hn hk hp => exact .temporary k hn (Nat.le_trans hk hmn) hp
  | register h => exact .register h
  | discarded h => exact .discarded h

theorem Function.Belongs.mono {f : Function} {name : String} {vars vars' : List Variable}
    (h : f.Belongs name vars) (hv : ∀ v ∈ vars, v ∈ vars') : f.Belongs name vars' :=
  ⟨h.name_eq, h.label_eq, fun v hm => ⟨hv v (h.params v hm).1, (h.params v hm).2⟩, h.nodup⟩

theorem Callee.Belongs.mono {c : Callee} {name : String} {vars vars' : List Variable}
    (h : c.Belongs name vars) (hv : ∀ v ∈ vars, v ∈ vars') : c.Belongs name vars' := by
  cases c with
  | function f => exact Function.Belongs.mono h hv
  | placeholder p => exact h
  | command | messageBox => trivial

namespace Compiler.Sound

variable {c c' : Compiler} {v : Variable}

/-- A new variable leaves the shared ones as they were, unless it is one of them. -/
theorem addVariable (hs : c.Sound) (hd : c'.declarations = c.declarations.addVariable v)
    (ho : v.Origin c.declarations.generated) (hn : c.declarations.declared? v.name v.scope = none)
    (hr : c'.register = c.register ∧ v.name ≠ Names.returnRegister.name ∨
      c'.register = some v ∧ v = Names.returnRegister)
    (hx : c'.discarded = c.discarded ∧ v.name ≠ Names.discarded.name ∨
      c'.discarded = some v ∧ v = Names.discarded) : c'.Sound := by
  have hmem : ∀ u ∈ c.declarations.vars, u ∈ c'.declarations.vars := by
    intro u hu
    rw [hd]
    exact List.mem_cons_of_mem v hu
  have hself : v ∈ c'.declarations.vars := by rw [hd]; exact List.mem_cons_self
  have hnone : ∀ {name : String}, v.name ≠ name → c.declarations.declared? name .global = none →
      c'.declarations.declared? name .global = none := by
    intro name hne hu
    rw [hd, Declarations.declared?_eq_none]
    intro u hm
    rcases List.mem_cons.mp hm with rfl | hm
    · exact fun h => hne h.1
    · exact Declarations.declared?_eq_none.mp hu u hm
  refine ⟨?_, ?_, ?_, ?_, ?_, ?_, ?_⟩
  · rw [hd, Declarations.vars_addVariable, List.pairwise_cons]
    refine ⟨fun u hu he => ?_, hs.keys⟩
    obtain ⟨hname, hscope⟩ := Prod.mk.inj he
    exact Declarations.declared?_eq_none.mp hn u hu ⟨hname.symm, hscope.symm⟩
  · intro u hu
    rw [hd] at hu ⊢
    rcases List.mem_cons.mp hu with rfl | hu
    · exact ho
    · exact hs.origins u hu
  · intro h
    rcases hr with ⟨hr, hne⟩ | ⟨hr, -⟩
    · exact hnone hne (hs.register_none (hr ▸ h))
    · rw [hr] at h
      cases h
  · intro u h
    rcases hr with ⟨hr, -⟩ | ⟨hr, rfl⟩
    · obtain ⟨hu, hm⟩ := hs.register_some u (hr ▸ h)
      exact ⟨hu, hmem u hm⟩
    · cases hr.symm.trans h
      exact ⟨rfl, hself⟩
  · intro h
    rcases hx with ⟨hx, hne⟩ | ⟨hx, -⟩
    · exact hnone hne (hs.discarded_none (hx ▸ h))
    · rw [hx] at h
      cases h
  · intro u h
    rcases hx with ⟨hx, -⟩ | ⟨hx, rfl⟩
    · obtain ⟨hu, hm⟩ := hs.discarded_some u (hx ▸ h)
      exact ⟨hu, hmem u hm⟩
    · cases hx.symm.trans h
      exact ⟨rfl, hself⟩
  · intro name callee h
    rw [hd] at h
    exact (hs.callees name callee h).mono hmem

/-- Where the variables stay, the callees need only be in order themselves. -/
theorem ofCallees (hs : c.Sound) (hv : c'.declarations.vars = c.declarations.vars)
    (hg : c.declarations.generated ≤ c'.declarations.generated) (hr : c'.register = c.register)
    (hx : c'.discarded = c.discarded)
    (hc : ∀ name callee, c'.declarations.callee? name = some callee →
      callee.Belongs name c.declarations.vars) : c'.Sound := by
  have hd : ∀ name scope, c'.declarations.declared? name scope = c.declarations.declared? name scope := by
    intro name scope
    rw [Declarations.declared?, Declarations.declared?, hv]
  refine ⟨hv ▸ hs.keys, ?_, ?_, ?_, ?_, ?_, ?_⟩
  · intro v hm
    exact (hs.origins v (hv ▸ hm)).mono hg
  · intro h
    rw [hd]
    exact hs.register_none (hr ▸ h)
  · intro v h
    rw [hv]
    exact hs.register_some v (hr ▸ h)
  · intro h
    rw [hd]
    exact hs.discarded_none (hx ▸ h)
  · intro v h
    rw [hv]
    exact hs.discarded_some v (hx ▸ h)
  · intro name callee h
    rw [hv]
    exact hc name callee h

theorem named (hs : c.Sound) {t : String} {scope : Scope}
    (hr : Names.isReserved (Text.lower t) = false)
    (hd : c.declarations.declared? (Text.lower t) scope = none) :
    ({ c with declarations := c.declarations.addVariable ⟨Text.lower t, scope, none⟩ } :
      Compiler).Sound :=
  hs.addVariable rfl (.named t rfl hr rfl) hd
    (.inl ⟨rfl, Names.ne_of_not_reserved hr Names.isReserved_returnRegister⟩)
    (.inl ⟨rfl, Names.ne_of_not_reserved hr Names.isReserved_discarded⟩)

theorem putCallee (hs : c.Sound) {name : String} {callee : Callee}
    (hd : c'.declarations = c.declarations.putCallee name callee) (hr : c'.register = c.register)
    (hx : c'.discarded = c.discarded) (hc : callee.Belongs name c.declarations.vars) : c'.Sound := by
  refine hs.ofCallees (by rw [hd]; rfl) (by rw [hd]; exact Nat.le_refl _) hr hx ?_
  intro other callee' h
  rw [hd, Declarations.callee?_putCallee] at h
  split at h
  · next he =>
    cases h
    exact he ▸ hc
  · exact hs.callees other callee' h

theorem function (hs : c.Sound) {name : String} {f : Function}
    (h : c.declarations.callee? name = some (.function f)) : f.Belongs name c.declarations.vars :=
  hs.callees name _ h

theorem placeholder (hs : c.Sound) {name : String} {q : Placeholder}
    (h : c.declarations.callee? name = some (.placeholder q)) :
    q.name = name ∧ Text.lower q.label = name :=
  hs.callees name _ h

/-- A function may return a value, if there is a function of that name. -/
theorem setReturn (hs : c.Sound) (name : String) : ({ c with
    declarations := c.declarations.modifyFunction name (·.setReturn) } : Compiler).Sound := by
  cases hf : c.declarations.function? name with
  | none =>
    rw [Declarations.modifyFunction_of_none hf]
    exact hs
  | some f =>
    have hb := hs.function (Declarations.function?_eq_some.mp hf)
    exact hs.putCallee (Declarations.modifyFunction_of hf) rfl rfl
      (show f.setReturn.Belongs name _ from ⟨hb.name_eq, hb.label_eq, hb.params, hb.nodup⟩)

end Compiler.Sound

/-- A function with one more parameter, just declared, is still in order. -/
theorem Function.Belongs.addParam {f : Function} {name : String} {vars : List Variable}
    {v : Variable} (h : f.Belongs name vars) (hv : v ∈ vars) (hs : v.scope = .function name)
    (hn : v ∉ f.params) : (f.addParam v).Belongs name vars where
  name_eq := h.name_eq
  label_eq := h.label_eq
  params u hu := by
    rcases List.mem_append.mp hu with hu | hu
    · exact h.params u hu
    · rw [List.mem_singleton.mp hu]
      exact ⟨hv, hs⟩
  nodup := by
    refine List.nodup_append.mpr ⟨h.nodup, by simp, ?_⟩
    rintro u hu _ hm rfl
    exact hn (List.mem_singleton.mp hm ▸ hu)

/-- No name that is still to be generated has been declared. -/
theorem Compiler.Sound.fresh {c : Compiler} (hs : c.Sound) {k : Nat}
    (hk : c.declarations.generated < k) (scope : Scope) :
    c.declarations.declared? (Names.generated k) scope = none := by
  rw [Declarations.declared?_eq_none]
  rintro v hv ⟨hn, -⟩
  cases hs.origins v hv with
  | predefined h =>
    exact Names.ne_of_not_reserved (Names.isReserved_of_mem_catalogue h) (Names.isReserved_generated k) hn
  | named t _ hr _ => exact Names.ne_of_not_reserved hr (Names.isReserved_generated k) hn
  | temporary j hj hle _ =>
    have := Names.generated_inj (hj.symm.trans hn)
    omega
  | register h => exact Names.generated_ne_returnRegister k (by rw [← hn, h])
  | discarded h => exact Names.generated_ne_discarded k (by rw [← hn, h])

namespace Compile

variable {p : Phase} {w w' : Work}

theorem Step.sound (h : Step p w w') (hs : w.compiler.Sound) : w'.compiler.Sound := by
  cases h with
  | pass hc hl =>
    rw [hc]
    exact hs.ofCallees rfl (Nat.le_refl _) rfl rfl hs.callees
  | write | call | opened => exact hs
  | ended => exact hs.ofCallees rfl (Nat.le_refl _) rfl rfl hs.callees
  | generate _ hn => exact hs.ofCallees rfl hn rfl rfl hs.callees
  | temporary _ hd =>
    exact hs.addVariable rfl (.temporary _ rfl (Nat.le_refl _) rfl) (hd _)
      (.inl ⟨rfl, Names.generated_ne_returnRegister _⟩) (.inl ⟨rfl, Names.generated_ne_discarded _⟩)
  | register _ _ hd =>
    exact hs.addVariable rfl (.register rfl) hd (.inr ⟨rfl, rfl⟩)
      (.inl ⟨rfl, Names.discarded_ne_returnRegister.symm⟩)
  | discarded _ _ hd =>
    exact hs.addVariable rfl (.discarded rfl) hd (.inl ⟨rfl, Names.discarded_ne_returnRegister⟩)
      (.inr ⟨rfl, rfl⟩)
  | named _ hr hd => exact hs.named hr hd
  | introduce => exact hs.putCallee rfl rfl rfl ⟨rfl, rfl⟩
  | record _ hq =>
    obtain ⟨hn, hl⟩ := hs.placeholder hq
    exact hs.putCallee (Declarations.recordCall_of hq) rfl rfl ⟨hn, hl⟩
  | returns => exact hs.setReturn _
  | begun _ _ hd =>
    obtain ⟨earlier, rfl, rfl, -⟩ := Declarations.declareFunction_eq_ok hd
    refine hs.putCallee rfl rfl rfl ?_
    exact ⟨rfl, rfl, fun v hv => absurd hv List.not_mem_nil, List.nodup_nil⟩
  | @param cur t f _ _ hf hr hd =>
    have hs₁ : (w.declare ⟨Text.lower t, .function cur, none⟩).compiler.Sound := hs.named hr hd
    refine hs₁.putCallee (Declarations.modifyFunction_of (Declarations.function?_eq_some.mpr hf))
      rfl rfl ((hs₁.function hf).addParam List.mem_cons_self rfl ?_)
    intro hm
    exact Declarations.declared?_eq_none.mp hd _ ((hs.function hf).params _ hm).1 ⟨rfl, rfl⟩

theorem Reach.sound (h : Reach p w w') (hs : w.compiler.Sound) : w'.compiler.Sound := by
  induction h with
  | refl => exact hs
  | tail _ hstep ih => exact hstep.sound ih

/-- What is done while values are compiled can be done in the body of a statement. -/
theorem Step.ofValue (h : Step .value w w') : Step .body w w' := by
  cases h with
  | pass hc hl => exact .pass hc hl
  | write _ hl hv => exact .write (by decide) hl hv
  | call _ ht hv => exact .call (by decide) ht hv
  | generate _ hn => exact .generate (by decide) hn
  | temporary _ hd => exact .temporary (by decide) hd
  | register _ hr hd => exact .register (by decide) hr hd
  | discarded _ hr hd => exact .discarded (by decide) hr hd
  | introduce _ hn => exact .introduce (by decide) hn
  | record _ hq => exact .record (by decide) hq
  | named hp | returns hp | ended hp | begun hp | param hp | opened hp => cases hp

theorem Reach.ofValue (h : Reach .value w w') : Reach .body w w' :=
  Relation.ReflTransGen.mono (fun _ _ => Step.ofValue) _ _ h

/-! ## What steps leave alone -/

theorem Step.vars (h : Step p w w') {v : Variable} (hv : v ∈ w.declarations.vars) :
    v ∈ w'.declarations.vars := by
  cases h with
  | pass hc _ =>
    rw [Work.declarations, hc]
    exact hv
  | write | call | generate | introduce | ended | opened => exact hv
  | temporary | register | discarded | named => exact List.mem_cons_of_mem _ hv
  | record =>
    rw [Work.withDeclarations, Work.declarations, Declarations.vars_recordCall]
    exact hv
  | returns =>
    rw [Work.withDeclarations, Work.declarations, Declarations.vars_modifyFunction]
    exact hv
  | begun _ _ hd =>
    obtain ⟨_, -, rfl, -⟩ := Declarations.declareFunction_eq_ok hd
    exact hv
  | param =>
    rw [Work.withDeclarations, Work.declarations, Declarations.vars_modifyFunction]
    exact List.mem_cons_of_mem _ hv

theorem Reach.vars (h : Reach p w w') {v : Variable} (hv : v ∈ w.declarations.vars) :
    v ∈ w'.declarations.vars := by
  induction h with
  | refl => exact hv
  | tail _ hstep ih => exact hstep.vars ih

/-- A value does not begin or end a function. -/
theorem Step.current (h : Step .value w w') : w'.compiler.current = w.compiler.current := by
  cases h with
  | pass hc _ => rw [hc]
  | write | call | generate | temporary | register | discarded | introduce | record => rfl
  | named hp | returns hp | ended hp | begun hp | param hp | opened hp => cases hp

theorem Reach.current (h : Reach .value w w') : w'.compiler.current = w.compiler.current := by
  induction h with
  | refl => rfl
  | tail _ hstep ih => exact hstep.current.trans ih

theorem Reach.sees (h : Reach .value w w') {v : Variable} (hv : w.Sees v) : w'.Sees v := by
  refine ⟨h.vars hv.1, ?_⟩
  rw [Compiler.scope, h.current]
  exact hv.2

/-- A value can change nothing of a callee but the calls that are remembered with a placeholder. -/
theorem Step.callee (h : Step .value w w') {name : String} {c : Callee}
    (hc : w.declarations.callee? name = some c) :
    w'.declarations.callee? name = some c ∨
      ∃ q n, c = .placeholder q ∧
        w'.declarations.callee? name = some (.placeholder { q with calls := q.calls ++ [n] }) := by
  cases h with
  | pass hc' _ =>
    rw [Work.declarations, hc']
    exact .inl hc
  | write | call | generate | temporary | register | discarded => exact .inl hc
  | introduce _ hn =>
    refine .inl ?_
    rw [Work.withDeclarations, Work.declarations, Declarations.callee?_putCallee, if_neg ?_]
    · exact hc
    · rintro rfl
      rw [hn] at hc
      cases hc
  | @record other q n _ hq =>
    rw [Work.withDeclarations, Work.declarations, Declarations.recordCall_of hq,
      Declarations.callee?_putCallee]
    by_cases hne : name = other
    · subst hne
      cases hq.symm.trans hc
      exact .inr ⟨q, n, rfl, if_pos rfl⟩
    · exact .inl ((if_neg hne).trans hc)
  | named hp | returns hp | ended hp | begun hp | param hp | opened hp => cases hp

theorem Reach.callee (h : Reach .value w w') {name : String} {c : Callee}
    (hc : w.declarations.callee? name = some c) (hp : ∀ q, c ≠ .placeholder q) :
    w'.declarations.callee? name = some c := by
  induction h with
  | refl => exact hc
  | tail _ hstep ih =>
    rcases hstep.callee ih with h | ⟨q, _, he, -⟩
    · exact h
    · exact absurd he (hp q)

theorem Reach.function (h : Reach .value w w') {name : String} {f : Function}
    (hf : w.declarations.callee? name = some (.function f)) :
    w'.declarations.callee? name = some (.function f) :=
  h.callee hf fun _ he => by cases he

theorem Reach.placeholder (h : Reach .value w w') {name : String} {q : Placeholder}
    (hq : w.declarations.callee? name = some (.placeholder q)) :
    ∃ more, w'.declarations.callee? name = some (.placeholder { q with calls := q.calls ++ more }) := by
  induction h with
  | refl => exact ⟨[], by rw [List.append_nil]; exact hq⟩
  | tail _ hstep ih =>
    obtain ⟨more, hm⟩ := ih
    rcases hstep.callee hm with h | ⟨r, n, he, h⟩
    · exact ⟨more, h⟩
    · cases he
      exact ⟨more ++ [n], by rw [← List.append_assoc]; exact h⟩

theorem Reach.takes (h : Reach .value w w') {label : String} {n : Nat} (ht : w.Takes label n) :
    w'.Takes label n := by
  rcases ht with ⟨f, hf, hl, hn⟩ | ⟨q, hq, hl, hn⟩
  · exact .inl ⟨f, h.function hf, hl, hn⟩
  · obtain ⟨more, hm⟩ := h.placeholder hq
    exact .inr ⟨_, hm, hl, List.mem_append_left more hn⟩

end Compile

end InstallScript
