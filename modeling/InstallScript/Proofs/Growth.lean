import Mathlib.Data.List.Pairwise
import InstallScript.Proofs.GeneratedNames

/-!
What has been declared stays, also where a statement turns out wrong halfway. Variables stay as they
are; a callee can at most be called again before it is declared, be declared, or turn out to return a
value.

* `Compile.Step.extends` and `Compile.Step.advances`: one step of a body at a time.
* `Compile.reach_statement`: a statement goes by such steps, or begins a function whose name was free.
* `declarations_only_grow`: hence over every statement of every run.
-/

namespace InstallScript

/-- Every variable is found as before, and no generated name is taken back. -/
structure Declarations.Extends (d d' : Declarations) : Prop where
  vars : ∀ name scope v, d.declared? name scope = some v → d'.declared? name scope = some v
  generated : d.generated ≤ d'.generated

/-- What can become of what a name calls, unless it is declared: a placeholder is introduced, more
calls are remembered with it, or a function turns out to return a value. -/
inductive Callee.Advances : Option Callee → Option Callee → Prop
  | unknown : Advances none none
  | introduced (p : Placeholder) : Advances none (some (.placeholder p))
  | command (c : Command) : Advances (some (.command c)) (some (.command c))
  | messageBox : Advances (some .messageBox) (some .messageBox)
  | function (f : Function) {hasReturn : Bool} (h : f.hasReturn → hasReturn) :
      Advances (some (.function f)) (some (.function { f with hasReturn }))
  | placeholder (p : Placeholder) (more : List Nat) :
      Advances (some (.placeholder p)) (some (.placeholder { p with calls := p.calls ++ more }))

namespace Declarations

variable {d d' d'' : Declarations}

theorem Extends.refl (d : Declarations) : d.Extends d := ⟨fun _ _ _ h => h, Nat.le_refl _⟩

theorem Extends.trans (h : d.Extends d') (h' : d'.Extends d'') : d.Extends d'' :=
  ⟨fun name scope v hv => h'.vars name scope v (h.vars name scope v hv),
    Nat.le_trans h.generated h'.generated⟩

theorem Extends.of_vars (hv : d'.vars = d.vars) (hg : d.generated ≤ d'.generated) :
    d.Extends d' := by
  refine ⟨fun name scope v h => ?_, hg⟩
  rw [declared?, hv]
  exact h

/-- A new variable hides no other, since there was none of its name and scope. -/
theorem extends_addVariable {v : Variable} (h : d.declared? v.name v.scope = none) :
    d.Extends (d.addVariable v) := by
  refine ⟨fun name scope u hu => ?_, Nat.le_refl _⟩
  have hne : ¬(v.name = name ∧ v.scope = scope) := by
    rintro ⟨rfl, rfl⟩
    rw [h] at hu
    cases hu
  rw [declared?, vars_addVariable, List.find?_cons_of_neg (by simpa using hne)]
  exact hu

theorem extends_putCallee (d : Declarations) (name : String) (c : Callee) :
    d.Extends (d.putCallee name c) :=
  .of_vars rfl (Nat.le_refl _)

theorem extends_modifyFunction (d : Declarations) (name : String) (change : Function → Function) :
    d.Extends (d.modifyFunction name change) :=
  .of_vars vars_modifyFunction (Nat.le_of_eq generated_modifyFunction.symm)

end Declarations

namespace Callee

theorem Advances.refl (c : Option Callee) : Advances c c := by
  match c with
  | none => exact .unknown
  | some (.command c) => exact .command c
  | some .messageBox => exact .messageBox
  | some (.function f) => exact .function f id
  | some (.placeholder p) =>
    have h := Advances.placeholder p []
    rwa [List.append_nil] at h

theorem Advances.trans {a b c : Option Callee} (h : Advances a b) (h' : Advances b c) :
    Advances a c := by
  cases h with
  | unknown | command | messageBox => exact h'
  | introduced p =>
    cases h' with
    | placeholder _ more => exact .introduced _
  | function f hf =>
    cases h' with
    | function _ hg => exact .function f (hg ∘ hf)
  | placeholder p more =>
    cases h' with
    | placeholder _ more' =>
      rw [List.append_assoc]
      exact .placeholder p (more ++ more')

end Callee

/-- Only the callee that is put changes. -/
theorem Declarations.advances_putCallee {d : Declarations} {key : String} {c : Callee}
    (h : Callee.Advances (d.callee? key) (some c)) (name : String) :
    Callee.Advances (d.callee? name) ((d.putCallee key c).callee? name) := by
  rw [callee?_putCallee]
  split
  · next he =>
    rw [he]
    exact h
  · exact .refl _

/-- No other variable has the name and scope of one that is declared. -/
theorem Compiler.Sound.declared?_of_mem {c : Compiler} (hs : c.Sound) {v : Variable}
    (hv : v ∈ c.declarations.vars) : c.declarations.declared? v.name v.scope = some v := by
  cases hd : c.declarations.declared? v.name v.scope with
  | none => exact absurd ⟨rfl, rfl⟩ (Declarations.declared?_eq_none.mp hd v hv)
  | some u =>
    obtain ⟨hu, hname, hscope⟩ := Declarations.mem_of_declared? hd
    have : Std.Symm fun u v : Variable => (u.name, u.scope) ≠ (v.name, v.scope) := ⟨fun _ _ => Ne.symm⟩
    by_contra hne
    refine hs.keys.forall hu hv (fun he => hne (by rw [he])) ?_
    rw [hname, hscope]

namespace Compile

variable {p : Phase} {w w' : Work}

/-! ## Steps -/

theorem Step.extends (h : Step p w w') : w.declarations.Extends w'.declarations := by
  cases h with
  | pass hc _ =>
    rw [Work.declarations, Work.declarations, hc]
    exact .refl _
  | write | call | ended | opened => exact .refl _
  | generate _ hn => exact .of_vars rfl hn
  | temporary _ hd => exact Declarations.extends_addVariable (hd _)
  | register _ _ hd | discarded _ _ hd | named _ _ hd => exact Declarations.extends_addVariable hd
  | introduce => exact Declarations.extends_putCallee ..
  | record _ hq =>
    rw [Work.withDeclarations, Work.declarations, Declarations.recordCall_of hq]
    exact Declarations.extends_putCallee ..
  | returns => exact Declarations.extends_modifyFunction ..
  | begun _ _ hd =>
    obtain ⟨_, -, rfl, -⟩ := Declarations.declareFunction_eq_ok hd
    exact Declarations.extends_putCallee ..
  | @param name t _ _ _ _ _ hd =>
    have hadd := Declarations.extends_addVariable (v := ⟨Text.lower t, .function name, none⟩) hd
    exact hadd.trans (Declarations.extends_modifyFunction ..)

theorem Reach.extends (h : Reach p w w') : w.declarations.Extends w'.declarations := by
  induction h with
  | refl => exact .refl _
  | tail _ hstep ih => exact ih.trans hstep.extends

/-- The body of a statement declares no function and adds no parameter. -/
theorem Step.advances (h : Step .body w w') (name : String) :
    Callee.Advances (w.declarations.callee? name) (w'.declarations.callee? name) := by
  cases h with
  | pass hc _ =>
    rw [Work.declarations, Work.declarations, hc]
    exact .refl _
  | write | call | generate | temporary | register | discarded | named | ended => exact .refl _
  | introduce _ hn =>
    refine Declarations.advances_putCallee ?_ name
    rw [hn]
    exact .introduced _
  | @record _ q n _ hq =>
    rw [Work.withDeclarations, Work.declarations, Declarations.recordCall_of hq]
    refine Declarations.advances_putCallee ?_ name
    rw [hq]
    exact .placeholder q [n]
  | @returns other _ _ =>
    rw [Work.withDeclarations, Work.declarations]
    cases hf : w.declarations.function? other with
    | none =>
      rw [Declarations.modifyFunction_of_none hf]
      exact .refl _
    | some f =>
      rw [Declarations.modifyFunction_of hf]
      refine Declarations.advances_putCallee ?_ name
      rw [Declarations.function?_eq_some.mp hf]
      exact .function f fun _ => rfl
  | begun hp | param hp | opened hp => cases hp

theorem Reach.advances (h : Reach .body w w') (name : String) :
    Callee.Advances (w.declarations.callee? name) (w'.declarations.callee? name) := by
  induction h with
  | refl => exact .refl _
  | tail _ hstep ih => exact ih.trans (hstep.advances name)

/-- Once a function has been begun, its header adds parameters to it, and changes nothing else. -/
structure Headed (f : Function) (w w' : Work) : Prop where
  current : w'.compiler.current = w.compiler.current
  callees : ∃ params, ∀ name, w'.declarations.callee? name =
    if name = f.name then some (.function { f with params }) else w.declarations.callee? name

theorem Reach.headed {f : Function} (h : Reach .header w w')
    (hc : w.compiler.current = some f.name)
    (hf : w.declarations.callee? f.name = some (.function f)) : Headed f w w' := by
  induction h with
  | refl =>
    refine ⟨rfl, f.params, fun name => ?_⟩
    split
    · next he => rw [he, hf]
    · rfl
  | tail _ hstep ih =>
    obtain ⟨hcur, params, hcal⟩ := ih
    cases hstep with
    | pass hw _ => exact ⟨by rw [hw]; exact hcur, params, by rw [Work.declarations, hw]; exact hcal⟩
    | opened => exact ⟨hcur, params, hcal⟩
    | @param other t g _ hother hg _ _ =>
      have he : other = f.name := Option.some.inj (hother.symm.trans (hcur.trans hc))
      subst he
      cases hg.symm.trans ((hcal f.name).trans (if_pos rfl))
      refine ⟨hcur, params ++ [⟨Text.lower t, .function f.name, none⟩], fun name => ?_⟩
      have hgrow := grows_withParam (f := { f with params })
        (v := ⟨Text.lower t, .function f.name, none⟩) hg
      refine (hgrow.callees name).trans ?_
      split
      · rfl
      · next hne => exact (hcal name).trans (if_neg hne)
    | begun _ hnone => cases hnone.symm.trans (hcur.trans hc)
    | write hp | call hp | generate hp | temporary hp | register hp | discarded hp | introduce hp
    | record hp => exact absurd rfl hp
    | named hp | returns hp | ended hp => cases hp

/-- A header fails before it has changed anything, or declares the function and goes on from there. -/
theorem functionBegin_cases (hs : w.compiler.Sound) :
    (∃ e cursor, exec functionBegin w = (.error e, { w with cursor })) ∨
      ∃ word cursor f d, w.compiler.current = none ∧ w.cursor.next? = some (word, cursor) ∧
        w.declarations.declareFunction word.name word.text = .ok (f, d) ∧
        Reach .header (withFunction { w with cursor } f d) (exec functionBegin w).2 := by
  cases hc : w.compiler.current with
  | some name => exact .inl ⟨_, _, exec_functionBegin_of_some hc⟩
  | none =>
    rw [exec_functionBegin hc]
    rcases hnext : w.cursor.next? with _ | ⟨word, cursor⟩
    · exact .inl ⟨_, _, exec_bind_error (exec_nextWord_of_none hnext)⟩
    rw [exec_bind_ok (exec_nextWord hnext)]
    cases hd : w.declarations.declareFunction word.name word.text with
    | error e => exact .inl ⟨e, cursor, exec_header_of_error hd⟩
    | ok fd =>
      obtain ⟨f, d⟩ := fd
      have hreach := reach_withFunction (w := { w with cursor }) hc hd
      refine .inr ⟨word, cursor, f, d, rfl, rfl, hd, ?_⟩
      rw [exec_header (w := { w with cursor }) hd]
      exact (does_header_of_declared (hreach.sound hs) hd).reach

/-- A statement goes by the steps of a body, or declares a function and goes on with its header. -/
theorem reach_statement {c : Compiler} (hs : c.Sound) (ts : List Token) :
    Reach .body (c.work ts) (exec statement (c.work ts)).2 ∨
      ∃ (u : Token) (cursor : Cursor) (f : Function) (d : Declarations),
        Heads u.word.name ts ∧ c.current = none ∧
        c.declarations.declareFunction u.word.name u.word.text = .ok (f, d) ∧
        Reach .header (withFunction { c.work ts with cursor } f d)
          (exec statement (c.work ts)).2 := by
  cases ts with
  | nil =>
    refine .inl ?_
    rw [exec_statement_of_none rfl]
  | cons t rest =>
    have hnext : (c.work (t :: rest)).cursor.next? = some (t.word, ⟨t.tail, rest⟩) := rfl
    have hpass : Reach .body (c.work (t :: rest)) { c.work (t :: rest) with cursor := ⟨t.tail, rest⟩ } :=
      .single (.pass rfl rfl)
    rw [exec_statement hnext]
    rcases does_dispatch t.word t.tail (w := { c.work (t :: rest) with cursor := ⟨t.tail, rest⟩ }) hs rfl
      with h | ⟨hplain, hname, h⟩
    · exact .inl (hpass.trans h.reach)
    rw [h, exec_written]
    rcases functionBegin_cases (w := { c.work (t :: rest) with cursor := ⟨t.tail, rest⟩ }) hs
      with ⟨e, cursor, h⟩ | ⟨word, cursor, f, d, hc, hword, hd, h⟩
    · rw [h]
      exact .inl (hpass.tail (.pass rfl rfl))
    · cases rest with
      | nil => cases hword
      | cons u us =>
        cases hword
        exact .inr ⟨u, _, f, d, ⟨t, u, us, rfl, hplain, hname, rfl⟩, hc, hd, h⟩

end Compile

namespace Compiler

variable {c : Compiler}

theorem extends_compile (hs : c.Sound) (ts : List Token) :
    c.declarations.Extends (c.compile ts).compiler.declarations := by
  rcases Compile.reach_statement hs ts with h | ⟨_, _, _, _, -, -, hf, h⟩
  · exact h.extends
  · obtain ⟨_, -, rfl, -⟩ := Declarations.declareFunction_eq_ok hf
    exact (Declarations.extends_putCallee ..).trans h.extends

/-- A name calls what it called before, unless the statement begins a function of that name. -/
theorem callee?_compile (hs : c.Sound) (ts : List Token) (name : String) :
    Callee.Advances (c.declarations.callee? name)
      ((c.compile ts).compiler.declarations.callee? name) ∨
    Heads name ts ∧ ∃ f, (c.compile ts).compiler.declarations.callee? name = some (.function f) ∧
      f.name = name ∧ f.hasReturn = false ∧
      (c.declarations.callee? name = none ∧ f.earlier = [] ∨
        ∃ p, c.declarations.callee? name = some (.placeholder p) ∧ f.earlier = p.calls) := by
  rcases Compile.reach_statement hs ts with h | ⟨u, _, _, _, hheads, -, hf, h⟩
  · exact .inl (h.advances name)
  · obtain ⟨earlier, rfl, rfl, hfree⟩ := Declarations.declareFunction_eq_ok hf
    obtain ⟨-, params, hcal⟩ := h.headed rfl (Declarations.callee?_putCallee.trans (if_pos rfl))
    rw [compiler_compile]
    by_cases hn : name = u.word.name
    · subst hn
      exact .inr ⟨hheads, _, (hcal _).trans (if_pos rfl), rfl, rfl, hfree⟩
    · refine .inl ?_
      rw [(hcal name).trans (if_neg hn)]
      exact Declarations.callee?_putCallee.trans (if_neg hn) ▸ .refl _

end Compiler

/-- What is declared before a statement stays, whether the statement is right or wrong: every variable
is found as before; a callee stays, but for calls remembered with a placeholder and the remark that a
function returns a value; and only a statement that begins a function of a name makes one of it, where
there was nothing or a placeholder, whose calls the function takes over. -/
theorem declarations_only_grow (predefined : Bool) (before : List Statement) (s : Statement) :
    let c := ((Compiler.start predefined).steps before).2
    let d := c.declarations
    let d' := (c.step s).2.declarations
    (∀ v ∈ d.vars, v ∈ d'.vars ∧ d'.declared? v.name v.scope = some v) ∧
    (∀ name, Callee.Advances (d.callee? name) (d'.callee? name) ∨
      ∃ ts f, s.tokens = .ok ts ∧ Heads name ts ∧ d'.callee? name = some (.function f) ∧
        f.name = name ∧ f.hasReturn = false ∧
        (d.callee? name = none ∧ f.earlier = [] ∨
          ∃ p, d.callee? name = some (.placeholder p) ∧ f.earlier = p.calls)) ∧
    d.generated ≤ d'.generated := by
  intro c
  have hs : c.Sound := Compiler.sound_steps predefined before
  cases hts : s.tokens with
  | error e =>
    rw [Compiler.step_of_fault hts]
    exact ⟨fun v hv => ⟨hv, hs.declared?_of_mem hv⟩, fun _ => .inl (.refl _), Nat.le_refl _⟩
  | ok ts =>
    rw [Compiler.step_of_tokens hts]
    have hext := Compiler.extends_compile hs ts
    refine ⟨fun v hv => ?_, fun name => ?_, hext.generated⟩
    · have hd := hext.vars _ _ v (hs.declared?_of_mem hv)
      exact ⟨(Declarations.mem_of_declared? hd).1, hd⟩
    · refine (Compiler.callee?_compile hs ts name).imp_right ?_
      rintro ⟨hheads, f, h⟩
      exact ⟨ts, f, rfl, hheads, h⟩

/-- A header that fails at its second parameter has declared the function with the first, and has
handed on to it the calls made so far. -/
theorem declarations_only_grow_of_failing_header :
    let c := ((Compiler.start false).steps (program ["x = 1\nf(x, 2)\nf()"])).2
    let s : Statement := ⟨4, "", "Function f(a, 1)", Scan.statement "Function f(a, 1)".toList⟩
    let x : Variable := ⟨"x", .global, none⟩
    c.declarations.callee? "f" = some (.placeholder ⟨"f", "f", [2, 0]⟩) ∧
    (c.step s).1.result = .error (.parameterName "1") ∧
    (c.step s).2.declarations.callee? "f" =
      some (.function ⟨"f", "f", [⟨"a", .function "f", none⟩], false, [2, 0]⟩) ∧
    (c.step s).2.declarations.declared? x.name x.scope = some x := by
  intro c s x
  have hx : x ∈ c.declarations.vars := by decide +kernel
  obtain ⟨hvars, -, -⟩ := declarations_only_grow false (program ["x = 1\nf(x, 2)\nf()"]) s
  exact ⟨by decide +kernel, by decide +kernel, by decide +kernel, (hvars x hx).2⟩

end InstallScript
