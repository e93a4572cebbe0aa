import InstallScript.Proofs.Execution

/-!
Results by error flag. A primitive that only sets the error flag is called with the result 1 written
beforehand, which a success replaces by 0. So the primitive meets arguments in which the variable for
the result is 1 already, and the result is the right one exactly if no argument reads this variable
(`errorFlag_result_right_iff`).
-/

namespace InstallScript

open Compile

/-- Whatever the memory is, the instructions leave in `r` the result for the values of the arguments
before them, 0 for a success and 1 for a failure, and every other variable as it was. -/
def Platform.Answers (m : Platform) (p : Primitive) (args : List Operand) (r : Variable)
    (is : List Instr) : Prop :=
  ∀ μ : Memory, ∃ errors, m.run? is μ = some ⟨Function.update μ.values r
    (if (m.perform p (args.map (·.eval m μ.values))).fails then "1" else "0"), errors⟩

section

variable {k : Command} {xs : List Operand} {r : Variable} {is : List Instr}

/-- If the primitive is called where `r` is 1, the result is right for all primitives only if this
makes no difference to the arguments: a primitive can fail for the values it meets alone. -/
theorem answers_iff (m : Platform)
    (h : ∀ perform (μ : Memory), ∃ errors, { m with perform }.run? is μ =
      some ⟨Function.update μ.values r (if (perform k.primitive
        (xs.map (·.eval m (Function.update μ.values r "1")))).fails then "1" else "0"), errors⟩) :
    (∀ perform, { m with perform }.Answers k.primitive xs r is) ↔
      ∀ x ∈ xs, ∀ σ, x.eval m (Function.update σ r "1") = x.eval m σ := by
  constructor
  · intro hright x hx σ
    let met := xs.map (·.eval m (Function.update σ r "1"))
    obtain ⟨errors, hrun⟩ := h (fun _ vs => ⟨"", vs = met⟩) ⟨σ, false⟩
    obtain ⟨errors', hrun'⟩ := hright (fun _ vs => ⟨"", vs = met⟩) ⟨σ, false⟩
    have hresult := congrFun (congrArg Memory.values (Option.some.inj (hrun.symm.trans hrun'))) r
    simp only [Function.update_self] at hresult
    have hmet : xs.map (·.eval m σ) = met := by
      by_contra hne
      have hfails : decide (xs.map (·.eval m (Function.update σ r "1")) = met) = true :=
        decide_eq_true rfl
      rw [hfails, if_pos rfl, if_neg] at hresult
      · exact absurd hresult (by decide)
      · exact fun he => hne (of_decide_eq_true he)
    exact (List.map_inj_left.mp hmet x hx).symm
  · intro hsame perform μ
    obtain ⟨errors, hrun⟩ := h perform μ
    refine ⟨errors, hrun.trans ?_⟩
    have hmet : xs.map (·.eval m (Function.update μ.values r "1")) = xs.map (·.eval m μ.values) :=
      List.map_congr_left fun x hx => hsame x hx _
    rw [hmet]
    rfl

end

/-- The result of a call by error flag. The lines of the call give 0 or 1 as the primitive succeeds
or fails where the variable for the result is 1, and change no other variable. That is the result for
the values before the call, for every primitive and all values, exactly if no argument depends on the
variable; where texts stand for themselves, exactly if no argument reads it. -/
theorem errorFlag_result_right_iff {k : Command} (hk : k ∈ Catalogue.commands)
    (hc : k.convention = .errorFlag) (args : List Operand) (r : Variable) (w : Work) :
    let given := args.filter (!·.isOmitted)
    ∃ ls, exec (emitCall (.command k) args (some r)) w = (.ok (), w.write ls) ∧
      (∀ (m : Platform) (μ : Memory), ∃ errors, m.run? (ls.map Line.instr) μ =
        some ⟨Function.update μ.values r (if (m.perform k.primitive
          (given.map (·.eval m (Function.update μ.values r "1")))).fails then "1" else "0"), errors⟩) ∧
      (∀ m : Platform, (∀ perform, { m with perform }.Answers k.primitive given r (ls.map Line.instr)) ↔
        ∀ x ∈ given, ∀ σ, x.eval m (Function.update σ r "1") = x.eval m σ) ∧
      ((∀ perform, (Platform.literal perform).Answers k.primitive given r (ls.map Line.instr)) ↔
        ∀ x ∈ given, r ∉ x.vars) := by
  intro given
  have hinstr : k.instr args (some r) = .perform k.primitive given := by
    have hslot : k.hasSlot = false := by simp [Command.hasSlot, hc]
    rw [Command.instr, Command.spliced, hslot]
    rfl
  let ls : List Line := [⟨0, .copy r (.ofInt 1)⟩, ⟨0, .clearErrors⟩, ⟨0, .perform k.primitive given⟩,
    ⟨0, .copyUnlessErrors r (.ofInt 0)⟩]
  have hexec : exec (emitCall (.command k) args (some r)) w = (.ok (), w.write ls) := by
    unfold emitCall
    rw [show (Callee.command k).convention = .errorFlag from hc]
    show (_, ((w.write [⟨0, .copy r (.ofInt 1)⟩, ⟨0, .clearErrors⟩]).write
      [⟨0, k.instr args (some r)⟩]).write [⟨0, .copyUnlessErrors r (.ofInt 0)⟩]) = _
    rw [hinstr, Work.write, Work.write, Work.write, List.append_assoc, List.append_assoc]
    rfl
  have hrun : ∀ (m : Platform) (μ : Memory), ∃ errors, m.run? (ls.map Line.instr) μ =
      some ⟨Function.update μ.values r (if (m.perform k.primitive
        (given.map (·.eval m (Function.update μ.values r "1")))).fails then "1" else "0"), errors⟩ := by
    intro m μ
    have h := Command.run?_errorFlag hk hc m given r μ
    simp only [Command.result, hc, if_true] at h
    exact ⟨_, h⟩
  refine ⟨ls, hexec, hrun, fun m => answers_iff m fun perform => hrun { m with perform }, ?_⟩
  have hliteral := answers_iff (.literal fun _ _ => ⟨"", false⟩) fun perform => hrun (.literal perform)
  exact hliteral.trans (forall₂_congr fun x _ => Operand.eval_update_iff)

/-- Where the result goes to another variable than the argument is read from, the call is right for
every platform on which texts stand for themselves. -/
theorem errorFlag_result_right_iff_of_Delete :
    let k := Command.instruction "Delete" 1 1 .errorFlag 0
    let x : Variable := ⟨"x", .global, none⟩
    let r : Variable := ⟨"r", .global, none⟩
    let args := [Operand.joined [.text "C:/", .value x]]
    (k ∈ Catalogue.commands ∧ k.convention = .errorFlag) ∧
    ∃ ls, exec (emitCall (.command k) args (some r)) (({} : Compiler).work []) =
        (.ok (), (({} : Compiler).work []).write ls) ∧
      ∀ perform, (Platform.literal perform).Answers k.primitive args r (ls.map Line.instr) := by
  intro k x r args
  have hk : k ∈ Catalogue.commands := by decide
  obtain ⟨ls, hexec, -, -, hright⟩ := errorFlag_result_right_iff hk rfl args r (({} : Compiler).work [])
  exact ⟨⟨hk, rfl⟩, ls, hexec, hright.mpr (by decide)⟩

/-- The file named by a variable is deleted and the result goes to the variable: what is deleted is the
file named 1. A platform that has the file `a` alone leaves 1 in the variable, for a failure. -/
theorem deletes_by_overwritten_name :
    let x : Variable := ⟨"x", .global, none⟩
    let delete : Primitive := .instruction "Delete"
    let hasOnly : Primitive → List String → Effect := fun _ vs => ⟨"", vs ≠ ["a"]⟩
    let is := ((Compiler.start true).output (statements "x = \"a\"\nx = Delete(x)")).map Line.instr
    is = [.declare x, .copy x (.literal "\"a\""), .copy x (.literal "1"), .clearErrors,
        .perform delete [.var x], .copyUnlessErrors x (.literal "0")] ∧
      (hasOnly delete ["a"]).fails = false ∧
      ((Platform.literal hasOnly).run? is ⟨fun _ => "", false⟩).map (·.values x) = some "1" := by
  decide +kernel

end InstallScript
