import InstallScript.Proofs.BuiltinCalls
import InstallScript.Proofs.StraightCalls
import InstallScript.Proofs.ValueSpans

/-!
Assignments at work. An assignment that begins with a call gives the result to the assigned variable
before it reads what is joined to the call. That is the same as holding the result in a variable of its
own exactly if nothing that is joined reads the assigned variable, whatever the arguments of the call are
(`direct_binding_agrees_iff`).
-/

namespace InstallScript

/-! ## Words joined to a call -/

/-- An item with words joined to it. -/
def Expr.chain (i : Item) : List Word → Expr
  | [] => .single i
  | w :: ws => .join i (chain (.word w) ws)

/-- An operand with others joined to it. -/
def Operand.joinAll (x : Operand) (ys : List Operand) : Operand := ys.foldl Operand.join x

theorem Operand.eval_joinAll (p : Platform) (σ : Variable → String) (x : Operand) (ys : List Operand) :
    (x.joinAll ys).eval p σ = x.eval p σ ++ String.join (ys.map (·.eval p σ)) := by
  induction ys generalizing x with
  | nil => exact String.append_empty.symm
  | cons y ys ih =>
    rw [joinAll, List.foldl_cons, List.map_cons, String.join_cons, ← String.append_assoc, ← eval_join]
    exact ih (x.join y)

theorem Operand.vars_joinAll (x : Operand) (ys : List Operand) :
    (x.joinAll ys).vars = x.vars ++ ys.flatMap Operand.vars := by
  induction ys generalizing x with
  | nil => exact (List.append_nil _).symm
  | cons y ys ih =>
    rw [joinAll, List.foldl_cons, List.flatMap_cons, ← List.append_assoc, ← Compile.vars_join]
    exact ih (x.join y)

namespace Expr

variable {env : Env}

theorem join_operand_chain (x : Operand) (w : Word) (ws : List Word) (n : Nat) :
    x.join ((chain (.word w) ws).operand env n) = x.joinAll ((w :: ws).map env.operand) := by
  induction ws generalizing x w n with
  | nil => rfl
  | cons w' ws ih =>
    rw [chain, operand, ← Compile.join_assoc, ih]
    rfl

theorem calls_chain (w : Word) (ws : List Word) (n : Nat) :
    (chain (.word w) ws).calls env n = [] := by
  induction ws generalizing w n with
  | nil => rw [chain, calls, Item.calls]
  | cons w' ws ih => rw [chain, calls, Item.calls, ih, List.append_nil]

end Expr

namespace Command

/-- A call that gives its result to `v`, to which what is joined to the call is added afterwards. -/
def bound (k : Command) (xs : List Operand) (v : Variable) (joins : Bool) (ys : List Operand) :
    List Instr :=
  .perform k.primitive (xs.take k.slot ++ [.var v] ++ xs.drop k.slot) ::
    if joins then [.copy v ((Operand.var v).joinAll ys)] else []

/-- A call that gives its result to `t`, from where it is copied to `v` with what is joined to it. -/
def held (k : Command) (xs : List Operand) (v t : Variable) (ys : List Operand) : List Instr :=
  [.perform k.primitive (xs.take k.slot ++ [.var t] ++ xs.drop k.slot),
    .copy v ((Operand.var t).joinAll ys)]

variable {k : Command} {xs ys : List Operand} {v t : Variable}

theorem run?_bound (perform : Primitive → List String → Effect) (hk : k ∈ Catalogue.commands)
    (hs : k.hasSlot) (hx : k.slot ≤ xs.length) {joins : Bool} (hj : joins = false → ys = [])
    (v : Variable) (μ : Memory) :
    let p := Platform.literal perform
    let r := (perform k.primitive (xs.map (·.eval p μ.values))).result
    ∃ errors, p.run? (k.bound xs v joins ys) μ = some ⟨Function.update μ.values v
      (r ++ String.join (ys.map (·.eval p (Function.update μ.values v r)))), errors⟩ := by
  intro p r
  unfold bound
  rw [Platform.run?, Platform.exec?, performed_spliced hk hs hx]
  cases joins with
  | false =>
    rw [hj rfl]
    exact ⟨_, congrArg (fun s => some (Memory.mk (Function.update μ.values v s) _))
      String.append_empty.symm⟩
  | true =>
    rw [if_pos rfl, Option.bind_some, Platform.run?, Platform.exec?, Memory.set, Operand.eval_joinAll,
      Operand.eval_var]
    dsimp only
    rw [Function.update_self, Function.update_idem]
    exact ⟨_, rfl⟩

theorem run?_held (perform : Primitive → List String → Effect) (hk : k ∈ Catalogue.commands)
    (hs : k.hasSlot) (hx : k.slot ≤ xs.length) (ys : List Operand) (v t : Variable) (μ : Memory) :
    let p := Platform.literal perform
    let r := (perform k.primitive (xs.map (·.eval p μ.values))).result
    ∃ errors, p.run? (k.held xs v t ys) μ = some ⟨Function.update (Function.update μ.values t r) v
      (r ++ String.join (ys.map (·.eval p (Function.update μ.values t r)))), errors⟩ := by
  intro p r
  unfold held
  rw [Platform.run?, Platform.exec?, performed_spliced hk hs hx, Option.bind_some, Platform.run?,
    Platform.exec?, Memory.set, Operand.eval_joinAll, Operand.eval_var]
  dsimp only
  rw [Function.update_self]
  exact ⟨_, rfl⟩

end Command

/-- Operands that are joined read a variable exactly if its value counts for what they are together. -/
theorem joined_update_iff {perform : Primitive → List String → Effect} {ys : List Operand}
    {v : Variable} :
    (∀ σ, String.join (ys.map (·.eval (.literal perform) (Function.update σ v "1"))) =
      String.join (ys.map (·.eval (.literal perform) σ))) ↔ ∀ y ∈ ys, v ∉ y.vars := by
  have heval : ∀ σ, ((Operand.joined []).joinAll ys).eval (.literal perform) σ =
      String.join (ys.map (·.eval (.literal perform) σ)) := fun σ =>
    (Operand.eval_joinAll _ σ _ ys).trans String.empty_append
  simp only [← heval]
  rw [Operand.eval_update_iff, Operand.vars_joinAll]
  simp [Operand.vars]

/-- What an assignment of a call with words joined to it becomes, behind the calls of the arguments. -/
def Command.binding (k : Command) (env : Env) (n : Nat) (v : Variable) (args : Args) (ws : List Word) :
    List Instr :=
  if args.isNone && !ws.isEmpty then
    k.held (args.operands env n) v (env.temp (n + 1)) (ws.map env.operand)
  else k.bound (args.operands env n) v (!ws.isEmpty) (ws.map env.operand)

theorem Expr.instrs_plan_chain {d : Declarations} {f : Word} {k : Command} (env : Env) (n : Nat)
    (v : Variable) (args : Args) (ws : List Word) (hk : d.callee? f.name = some (.command k))
    (hs : k.hasSlot) : ((chain (.call f args) ws).plan env v n).instrs d =
      (args.calls env n).flatMap d.block ++ k.binding env n v args ws := by
  have hblock : ∀ xs v, d.block ⟨f, xs, v⟩ =
      [.perform k.primitive (xs.take k.slot ++ [.var v] ++ xs.drop k.slot)] := by
    intro xs v
    have hflag : k.convention ≠ .errorFlag := by
      intro h
      simp [Command.hasSlot, h] at hs
    rw [Declarations.block, hk]
    exact if_neg hflag
  rw [Plan.instrs, Command.binding]
  cases ws with
  | nil =>
    rw [chain, plan, List.flatMap_append, List.flatMap_singleton, hblock, List.append_nil,
      List.isEmpty_nil, Bool.not_true, Bool.and_false]
    rfl
  | cons w ws =>
    cases args with
    | none =>
      have hdirect : (join (.call f .none) (chain (.word w) ws)).direct? = none := rfl
      rw [chain, plan_of_direct?_eq_none hdirect, calls, calls_chain, Item.calls, Args.calls, operand]
      dsimp only
      rw [Item.operand, join_operand_chain, List.append_nil, List.nil_append, List.flatMap_singleton,
        hblock]
      rfl
    | cons a more =>
      rw [chain, plan, calls_chain, join_operand_chain]
      dsimp only
      rw [List.append_nil, List.flatMap_append, List.flatMap_singleton, hblock, List.append_assoc]
      rfl

namespace Command

variable {k : Command} {d : Declarations} {env : Env} {n : Nat} {xs ys : List Operand} {v : Variable}
  {args : Args} {ws : List Word} {holds : Bool} {is : List Instr}

theorem evals_congr {perform : Primitive → List String → Effect} {σ τ : Variable → String}
    (h : ∀ y ∈ ys, ∀ u ∈ y.vars, σ u = τ u) :
    ys.map (·.eval (.literal perform) σ) = ys.map (·.eval (.literal perform) τ) :=
  List.map_congr_left fun y hy => Operand.eval_congr (h y hy)

/-- Where the joined operands are read: `v` has the result already, unless a variable of its own holds
it. -/
def joinStore (holds : Bool) (v : Variable) (r : String) (σ : Variable → String) : Variable → String :=
  if holds then σ else Function.update σ v r

/-- This makes no difference exactly if the result is held or nothing joined reads `v`. -/
theorem joined_joinStore_iff :
    (∀ perform σ r, String.join (ys.map (·.eval (.literal perform) (joinStore holds v r σ))) =
      String.join (ys.map (·.eval (.literal perform) σ))) ↔ (holds ∨ ∀ y ∈ ys, v ∉ y.vars) := by
  cases holds with
  | true => simp only [joinStore, if_true, true_or, implies_true]
  | false =>
    simp only [joinStore, Bool.false_eq_true, if_false, false_or]
    constructor
    · exact fun h => joined_update_iff.mp fun σ => h (fun _ _ => ⟨"", false⟩) σ "1"
    · intro h perform σ r
      refine congrArg String.join (evals_congr fun y hy u hu => Function.update_of_ne ?_ _ _)
      rintro rfl
      exact h y hy hu

/-- The instructions give `v` the result of the call and what is joined to it, and leave alone all
variables but those generated behind the `n`-th. -/
def Delivers (k : Command) (env : Env) (n : Nat) (xs : List Operand) (v : Variable) (holds : Bool)
    (ys : List Operand) (is : List Instr) : Prop :=
  ∀ (perform : Primitive → List String → Effect) (μ : Memory),
    let p := Platform.literal perform
    let r := (perform k.primitive (xs.map (·.eval p μ.values))).result
    ∃ μ', p.run? is μ = some μ' ∧
      μ'.values v = r ++ String.join (ys.map (·.eval p (joinStore holds v r μ.values))) ∧
      ∀ u ≠ v, (∀ j, n < j → u ≠ env.temp j) → μ'.values u = μ.values u

/-- The instructions leave the same values as those that hold the result of the call in a variable `t`
of its own, but for the variables generated behind the `n`-th. -/
def AgreesHeld (k : Command) (env : Env) (n : Nat) (xs : List Operand) (v t : Variable)
    (ys : List Operand) (is : List Instr) : Prop :=
  ∀ (perform : Primitive → List String → Effect) (μ : Memory), ∃ μ₁ μ₂,
    (Platform.literal perform).run? is μ = some μ₁ ∧
    (Platform.literal perform).run? (k.held xs v t ys) μ = some μ₂ ∧
    ∀ u ≠ t, (∀ j, n < j → u ≠ env.temp j) → μ₁.values u = μ₂.values u

section

variable (hk : k ∈ Catalogue.commands) (hs : k.hasSlot) (hx : k.slot ≤ xs.length)

include hk hs hx

theorem delivers_held (v : Variable)
    (hys : ∀ y ∈ ys, ∀ u ∈ y.vars, ∀ j, n < j → u ≠ env.temp j) :
    k.Delivers env n xs v true ys (k.held xs v (env.temp (n + 1)) ys) := by
  intro perform μ p r
  obtain ⟨errors, hrun⟩ := run?_held perform hk hs hx ys v (env.temp (n + 1)) μ
  refine ⟨_, hrun, ?_, fun u hu hj => ?_⟩
  · refine (Function.update_self ..).trans (congrArg (fun vs => r ++ String.join vs) (evals_congr ?_))
    exact fun y hy u hu => Function.update_of_ne (hys y hy u hu (n + 1) (Nat.lt_succ_self n)) _ _
  · exact (Function.update_of_ne hu _ _).trans
      (Function.update_of_ne (hj (n + 1) (Nat.lt_succ_self n)) _ _)

theorem delivers_bound (env : Env) (n : Nat) (v : Variable) {joins : Bool}
    (hj : joins = false → ys = []) : k.Delivers env n xs v false ys (k.bound xs v joins ys) := by
  intro perform μ p r
  obtain ⟨errors, hrun⟩ := run?_bound perform hk hs hx hj v μ
  exact ⟨_, hrun, Function.update_self .., fun u hu _ => Function.update_of_ne hu _ _⟩

theorem Delivers.agreesHeld_iff (h : k.Delivers env n xs v holds ys is) {t : Variable}
    (hv : ∀ j, n < j → v ≠ env.temp j) (ht : t ≠ v) (hty : ∀ y ∈ ys, t ∉ y.vars) :
    k.AgreesHeld env n xs v t ys is ↔ (holds ∨ ∀ y ∈ ys, v ∉ y.vars) := by
  have hread : ∀ (perform : Primitive → List String → Effect) (σ : Variable → String) (r : String),
      ys.map (·.eval (.literal perform) (Function.update σ t r)) =
        ys.map (·.eval (.literal perform) σ) := by
    intro perform σ r
    refine evals_congr fun y hy u hu => Function.update_of_ne ?_ _ _
    rintro rfl
    exact hty y hy hu
  rw [← joined_joinStore_iff]
  constructor
  · intro hagrees perform σ r
    obtain ⟨μ₁, μ₂, h₁, h₂, hsame⟩ := hagrees (fun _ _ => ⟨r, false⟩) ⟨σ, false⟩
    obtain ⟨μ', h', hvalue, -⟩ := h (fun _ _ => ⟨r, false⟩) ⟨σ, false⟩
    obtain ⟨errors, hheld⟩ := run?_held (fun _ _ => ⟨r, false⟩) hk hs hx ys v t ⟨σ, false⟩
    cases h₁.symm.trans h'
    cases h₂.symm.trans hheld
    have hv := (hvalue.symm.trans (hsame v ht.symm hv)).trans (Function.update_self ..)
    rw [hread] at hv
    exact (String.append_right_inj r).mp hv
  · intro hjoined perform μ
    obtain ⟨μ₁, h₁, hvalue, hothers⟩ := h perform μ
    obtain ⟨errors, hheld⟩ := run?_held perform hk hs hx ys v t μ
    refine ⟨μ₁, _, h₁, hheld, fun u hu hj => ?_⟩
    by_cases huv : u = v
    · dsimp only
      rw [huv, hvalue, hjoined, Function.update_self, hread]
    · rw [hothers u huv hj]
      exact ((Function.update_of_ne huv _ _).trans (Function.update_of_ne hu _ _)).symm

end

variable (hk : k ∈ Catalogue.commands) (hs : k.hasSlot) (hx : k.slot ≤ args.length)
  (hws : ∀ y ∈ ws.map env.operand, ∀ u ∈ y.vars, ∀ j, n < j → u ≠ env.temp j)

include hk hs hx hws

theorem delivers_binding (v : Variable) : k.Delivers env n (args.operands env n) v args.isNone
    (ws.map env.operand) (k.binding env n v args ws) := by
  have hlen : k.slot ≤ (args.operands env n).length := by
    rw [Compile.length_operands]
    exact hx
  unfold binding
  by_cases hheld : (args.isNone && !ws.isEmpty) = true
  · rw [if_pos hheld, (Bool.and_eq_true_iff.mp hheld).1]
    exact delivers_held hk hs hlen v hws
  · rw [if_neg hheld]
    cases ws with
    | nil => exact delivers_bound hk hs hlen env n v fun _ => rfl
    | cons w ws =>
      have hargs : args.isNone = false := Bool.eq_false_iff.mpr fun h => hheld (by rw [h]; rfl)
      rw [hargs]
      exact delivers_bound hk hs hlen env n v fun h => by cases h

/-- The lines give `v` the result of the call, and what is joined to it has had for values before. -/
theorem binding_right_iff (hargs : args.Straight d env n) :
    (∀ perform μ, ∃ μ', (Platform.literal perform).run?
        ((args.calls env n).flatMap d.block ++ k.binding env n v args ws) μ = some μ' ∧
      μ'.values v = (perform k.primitive (args.values (.literal perform) d env μ.values)).result ++
        String.join ((ws.map env.operand).map (·.eval (.literal perform) μ.values)) ∧
      ∀ u ≠ v, (∀ j, n < j → u ≠ env.temp j) → μ'.values u = μ.values u) ↔
    (args.isNone ∨ ∀ y ∈ ws.map env.operand, v ∉ y.vars) := by
  have hrun : ∀ perform (μ : Memory), ∃ μ', (Platform.literal perform).run?
        ((args.calls env n).flatMap d.block ++ k.binding env n v args ws) μ = some μ' ∧
      (let r := (perform k.primitive (args.values (.literal perform) d env μ.values)).result
       μ'.values v = r ++ String.join ((ws.map env.operand).map
        (·.eval (.literal perform) (joinStore args.isNone v r μ.values)))) ∧
      ∀ u ≠ v, (∀ j, n < j → u ≠ env.temp j) → μ'.values u = μ.values u := by
    intro perform μ
    obtain ⟨μ₁, hcalls, hkeep, hvalues⟩ := args.run?_calls perform n μ (Nat.le_refl n) hargs
    obtain ⟨μ₂, hbinding, hvalue, hothers⟩ := delivers_binding hk hs hx hws v perform μ₁
    rw [hvalues] at hvalue
    refine ⟨μ₂, ?_, hvalue.trans ?_, fun u hu hj => (hothers u hu hj).trans (hkeep u hj)⟩
    · rw [Platform.run?_append, hcalls]
      exact hbinding
    · refine congrArg (fun vs => _ ++ String.join vs) (evals_congr fun y hy u hu => ?_)
      have hu := hkeep u (hws y hy u hu)
      unfold joinStore
      split
      · exact hu
      · by_cases huv : u = v
        · rw [huv, Function.update_self, Function.update_self]
        · rw [Function.update_of_ne huv, Function.update_of_ne huv, hu]
  rw [← joined_joinStore_iff]
  constructor
  · intro h perform σ r
    obtain ⟨μ₁, h₁, hright, -⟩ := h (fun _ _ => ⟨r, false⟩) ⟨σ, false⟩
    obtain ⟨μ', h', hvalue, -⟩ := hrun (fun _ _ => ⟨r, false⟩) ⟨σ, false⟩
    cases h₁.symm.trans h'
    exact (String.append_right_inj r).mp (hvalue.symm.trans hright)
  · intro h perform μ
    obtain ⟨μ', h', hvalue, hothers⟩ := hrun perform μ
    refine ⟨μ', h', hvalue.trans ?_, hothers⟩
    rw [h]

end Command

/-! ## Assignments -/

namespace Compiler

variable {c : Compiler}

theorem callee?_assigning (c : Compiler) (name other : String) :
    (c.assigning name).callee? other = c.declarations.callee? other := by
  unfold assigning
  split <;> rfl

/-- The primitives are the same ones when the lines of the assignment have been written. -/
theorem callee?_compile_assigning (hs : c.Sound) (name : String) {other : String}
    (h : ∃ k, c.declarations.callee? other = some (.command k)) (ts : List Token) :
    (c.compile ts).compiler.declarations.callee? other = (c.assigning name).callee? other := by
  obtain ⟨k, hk⟩ := h
  rw [c.callee?_assigning, hk]
  exact (c.callee?_compile_command hs ts other k).mpr hk

theorem assigned_ne_temp {name : String} (hr : Names.isReserved name = false) (env : Env) (j : Nat) :
    c.assigned name ≠ env.temp j := by
  intro h
  refine Names.ne_of_not_reserved hr (Names.isReserved_generated j) ?_
  rw [← c.name_assigned name, h]
  rfl

/-- The names that are generated for an assignment are new. -/
theorem assigning_ne_temp (hs : c.Sound) {name : String} (hr : Names.isReserved name = false)
    (env : Env) :
    ∀ v ∈ (c.assigning name).vars, ∀ j, c.declarations.generated < j → v ≠ env.temp j := by
  intro v hv j hj he
  have hold : v ∉ c.declarations.vars := fun hv =>
    Declarations.declared?_eq_none.mp (hs.fresh hj v.scope) v hv ⟨congrArg Variable.name he, rfl⟩
  unfold assigning at hv
  split at hv
  · exact hold hv
  · rcases List.mem_cons.mp hv with rfl | hv
    · exact Names.ne_of_not_reserved hr (Names.isReserved_generated j) (congrArg Variable.name he)
    · exact hold hv

end Compiler

theorem Expr.fits_chain {env : Env} {d : Declarations} {current : Option String} {i : Item}
    {ws : List Word} (h : (chain i ws).Fits env d current) :
    i.Fits env d current ∧ ∀ w ∈ ws, (Item.word w).Fits env d current := by
  induction ws generalizing i with
  | nil =>
    rw [chain, Expr.Fits] at h
    exact ⟨h, fun _ hw => nomatch hw⟩
  | cons w ws ih =>
    rw [chain, Expr.Fits] at h
    obtain ⟨hw, hws⟩ := ih h.2
    exact ⟨h.1, List.forall_mem_cons.mpr ⟨hw, hws⟩⟩

theorem Command.CallsLast.actions {k : Command} {v : Variable} {ls : List Line} (h : k.CallsLast v ls) :
    ∃ as, ∃ xs : List Operand, k.slot ≤ xs.length ∧ actions ls =
      as ++ [.perform k.primitive (xs.take k.slot ++ [.var v] ++ xs.drop k.slot)] := by
  obtain ⟨before, xs, hx, rfl⟩ := h
  exact ⟨InstallScript.actions before, xs, hx, Compile.actions_append _ _⟩

namespace Compile

variable {w w' : Work} {env : Env} {k : Command} {f : Word} {t : Tail} {vs : List Token} {v : Variable}

/-- Words that are joined and not called are operands as they stand, and nothing is written for them. -/
theorem gives_chain_words (call : Word → Compile Operand) (n : Nat) (left : Operand)
    (hvs : ∀ u ∈ w.cursor.ahead, u.opens = false ∧
      (Item.word u.word).Fits env w.declarations w.compiler.current) :
    Gives (chain call n left) w fun x w' => w'.lines = w.lines ∧
      (Ends w' → x = left.joinAll (w.cursor.ahead.map (env.operand ·.word))) := by
  have hstop : ∀ {w : Work} {left : Operand}, Ends w →
      left = left.joinAll (w.cursor.ahead.map (env.operand ·.word)) := by
    intro w left h
    rw [h]
    rfl
  induction n generalizing w left with
  | zero =>
    unfold chain
    refine .read (a := w.cursor.tail) rfl ?_
    split
    · exact .pure ⟨rfl, hstop⟩
    · exact .fail
  | succ n ih =>
    unfold chain
    refine .read (a := w.cursor.tail) rfl ?_
    split
    · exact .pure ⟨rfl, hstop⟩
    refine .bind gives_nextWord ?_
    rintro word _ ⟨cursor, hn, rfl⟩
    rw [ahead_of_next? hn] at hvs ⊢
    obtain ⟨⟨ho, hfit⟩, hmore⟩ := List.forall_mem_cons.mp hvs
    have ho : cursor.tail.opens = false := ho
    refine .read (a := cursor.tail) rfl ?_
    dsimp only
    rw [ho]
    exact .read (exec_resolve (w := { w with cursor := cursor }) hfit 0) (ih _ hmore)

theorem gives_copy (v : Variable) (x : Operand) : Gives (do expectEnd; emit [⟨0, .copy v x⟩]) w
    fun _ w' => Ends w ∧ actions w'.lines = actions w.lines ++ [.copy v x] := by
  refine .bind gives_expectEnd ?_
  rintro _ _ ⟨rfl, he⟩
  exact .of_exec (a := ()) rfl ⟨he, actions_append _ _⟩

/-- What is joined to a call when it has been written. -/
theorem gives_valueFrom_words (hsound : w.compiler.Sound)
    (hvs : ∀ u ∈ vs, u.opens = false ∧ (Item.word u.word).Fits env w.declarations w.compiler.current)
    (hreach : Reach .value w w') (hcursor : w'.cursor = ⟨t, vs⟩) (left : Operand) :
    Gives (valueFrom left) w' fun x w'' => w''.lines = w'.lines ∧
      (Ends w'' → x = left.joinAll (vs.map (env.operand ·.word))) := by
  have hvs' : ∀ u ∈ w'.cursor.ahead, u.opens = false ∧
      (Item.word u.word).Fits env w'.declarations w'.compiler.current := by
    rw [hcursor]
    exact fun u hu => (hvs u hu).imp_right (fits_item hreach hsound _)
  refine .read (a := w'.cursor.ahead.length) rfl ((gives_chain_words _ _ left hvs').mono fun _ _ h => ?_)
  rwa [hcursor] at h

/-- A call ends with its line, and only what is joined to it is left of the words. -/
theorem gives_callInto_reads (hk : k ∈ Catalogue.commands) (hs : k.hasSlot) (hsound : w.compiler.Sound)
    (hword : w.declarations.callee? f.name = some (.command k)) (ho : w.cursor.tail.opens = true)
    (hread : w.cursor.Reads .item ⟨t, vs⟩) (hv : w.Sees v) :
    Gives (callInto f (some v)) w fun _ w' =>
      w'.cursor = ⟨t, vs⟩ ∧ Reach .value w w' ∧ k.CallsLast v w'.lines := by
  intro r w' he
  have hreach := (does_callInto f hsound fun _ h => Option.some.inj h ▸ hv).reach
  rw [he] at hreach
  exact ⟨(reads_callInto f _ w ho r w' he).unique hread, hreach,
    gives_callInto_command hsound hk hs hword v r w' he⟩

section

variable (hk : k ∈ Catalogue.commands) (hs : k.hasSlot) (hsound : w.compiler.Sound)
  (hword : w.declarations.callee? f.name = some (.command k)) (ho : w.cursor.tail.opens = true)
  (hread : w.cursor.Reads .item ⟨t, vs⟩)
  (hvs : ∀ u ∈ vs, u.opens = false ∧ (Item.word u.word).Fits env w.declarations w.compiler.current)

include hk hs hsound hword ho hread hvs

/-- A call whose result goes to `v` itself. -/
theorem gives_rightSide_bound (hv : w.Sees v) (hj : w.cursor.tail.joins = false) :
    Gives (rightSide v f) w fun _ w' => (t.joins = false → vs = []) ∧ ∃ as, ∃ xs : List Operand,
      k.slot ≤ xs.length ∧
        actions w'.lines = as ++ k.bound xs v t.joins (vs.map (env.operand ·.word)) := by
  unfold rightSide
  refine .read (a := w.cursor.tail) rfl ?_
  rw [hj, ho]
  refine .bind (gives_callInto_reads hk hs hsound hword ho hread hv) ?_
  rintro _ w₁ ⟨hcursor, hreach, hcall⟩
  obtain ⟨as, xs, hx, hlines⟩ := hcall.actions
  refine .read (a := w₁.cursor.tail) rfl ?_
  rw [hcursor]
  cases htj : t.joins with
  | false =>
    refine gives_expectEnd.mono ?_
    rintro _ _ ⟨rfl, he⟩
    rw [Ends, hcursor] at he
    exact ⟨fun _ => he, as, xs, hx, hlines⟩
  | true =>
    refine .bind (gives_valueFrom_words hsound hvs hreach hcursor _) ?_
    rintro x w₂ ⟨hsame, hjoined⟩
    refine (gives_copy v x).mono ?_
    rintro _ w₃ ⟨he, hcopy⟩
    refine ⟨(fun h => by cases h), as, xs, hx, ?_⟩
    rw [hcopy, hsame, hlines, hjoined he, List.append_assoc]
    rfl

/-- A value that is a call with words joined to it. -/
theorem gives_value_call (hscope : w.compiler.scope = env.scope) :
    Gives (value f) w fun x w' => k.CallsLast (env.temp (w.declarations.generated + 1)) w'.lines ∧
      (Ends w' → x = (Operand.var (env.temp (w.declarations.generated + 1))).joinAll
        (vs.map (env.operand ·.word))) := by
  have hin : Reach .value w (w.atDepth (w.compiler.depth + 1)) := .single (.pass rfl rfl)
  obtain ⟨w₁, he₁, hw₁, hcur₁, hsees⟩ := exec_hold (w := w.atDepth (w.compiler.depth + 1)) env f
    (fun v => callInto f (some v) >>= fun _ => valueFrom (.var v)) (hin.sound hsound) hscope
  have hreach₁ : Reach .value w w₁ := hin.trans hw₁.reach
  have hcall := gives_callInto_reads hk hs (hreach₁.sound hsound)
    (hreach₁.callee hword fun _ h => by cases h) (hcur₁ ▸ ho) (hcur₁ ▸ hread) hsees
  refine .congr (exec_value_call f ho) (.nested (.congr he₁ (.bind hcall ?_)))
  rintro _ w₂ ⟨hcursor, hreach₂, hlast⟩
  refine (gives_valueFrom_words hsound hvs (hreach₁.trans hreach₂) hcursor _).mono ?_
  rintro x w₃ ⟨hsame, hjoined⟩ n
  exact ⟨hsame ▸ hlast, hjoined⟩

/-- A call with a variable of its own for the result, which is copied to `v`. -/
theorem gives_rightSide_held (hscope : w.compiler.scope = env.scope) (hj : w.cursor.tail.joins = true) :
    Gives (rightSide v f) w fun _ w' => ∃ as, ∃ xs : List Operand, k.slot ≤ xs.length ∧
      actions w'.lines = as ++ k.held xs v (env.temp (w.declarations.generated + 1))
        (vs.map (env.operand ·.word)) := by
  unfold rightSide
  refine .read (a := w.cursor.tail) rfl ?_
  rw [hj]
  refine .bind (gives_value_call hk hs hsound hword ho hread hvs hscope) ?_
  rintro x w₁ ⟨hcall, hjoined⟩
  obtain ⟨as, xs, hx, hlines⟩ := hcall.actions
  refine (gives_copy v x).mono ?_
  rintro _ w₂ ⟨he, hcopy⟩
  refine ⟨as, xs, hx, ?_⟩
  rw [hcopy, hlines, hjoined he, List.append_assoc]
  rfl

end

/-- The last lines of an assignment that begins with a call, whatever the arguments are. -/
theorem actions_of_assigned_call {c : Compiler} (hc : c.Sound) {x : Word} (hx : x.isName)
    (hr : Names.isReserved x.name = false) (hk : k ∈ Catalogue.commands) (hs : k.hasSlot)
    (hf : c.declarations.callee? f.name = some (.command k)) {tx tf : Tail} {us : List Token}
    {ls : List Line} (htx : tx.assigns) (ho : tf.opens)
    (hok : (c.compile (⟨x, tx⟩ :: ⟨f, tf⟩ :: us)).result = .ok (.lines ls))
    (hread : Cursor.Reads .item ⟨tf, us⟩ ⟨t, vs⟩)
    (hvs : ∀ u ∈ vs, u.opens = false ∧
      (Item.word u.word).Fits (c.assigningEnv x.name) (c.assigning x.name) c.current) :
    let ys := vs.map ((c.assigningEnv x.name).operand ·.word)
    let temp := (c.assigningEnv x.name).temp (c.declarations.generated + 1)
    (tf.joins = false → t.joins = false → vs = []) ∧ ∃ as, ∃ xs : List Operand, k.slot ≤ xs.length ∧
      actions ls = as ++ if tf.joins then k.held xs (c.assigned x.name) temp ys
        else k.bound xs (c.assigned x.name) t.joins ys := by
  intro ys temp
  obtain ⟨w', he, -⟩ := exec_dispatch_of_compile hok
  rw [dispatch, if_pos htx] at he
  obtain ⟨w, hright, hcursor, hw⟩ := exec_assignment_rightSide
    (w := { compiler := c, cursor := ⟨tx, ⟨f, tf⟩ :: us⟩ }) hc hx hr rfl
  have hword : w.declarations.callee? f.name = some (.command k) := by
    rw [hw.declarations]
    exact (c.callee?_assigning _ _).trans hf
  have hscope : w.compiler.scope = (c.assigningEnv x.name).scope := by
    rw [Compiler.scope, hw.current]
    rfl
  have hgen : w.declarations.generated = c.declarations.generated := by
    rw [hw.declarations]
    exact c.generated_assigning x.name
  have hvs' : ∀ u ∈ vs, u.opens = false ∧
      (Item.word u.word).Fits (c.assigningEnv x.name) w.declarations w.compiler.current := by
    rw [hw.declarations, hw.current]
    exact hvs
  cases hj : tf.joins with
  | false => 
    have hg := gives_rightSide_bound hk hs hw.sound hword (by rw [hcursor]; exact ho)
      (by rw [hcursor]; exact hread) hvs' hw.sees (by rw [hcursor]; exact hj)
    obtain ⟨hl, hjoins, hlines⟩ := gives_written (.congr hright hg) _ w' he
    cases hl
    exact ⟨fun _ => hjoins, hlines⟩
  | true =>
    have hg := gives_rightSide_held (v := c.assigned x.name) hk hs hw.sound hword (by rw [hcursor]; exact ho)
      (by rw [hcursor]; exact hread) hvs' hscope (by rw [hcursor]; exact hj)
    obtain ⟨hl, hlines⟩ := gives_written (.congr hright hg) _ w' he
    cases hl
    rw [hgen] at hlines
    exact ⟨(fun h => by cases h), hlines⟩

end Compile

/-- All lines of an assignment that begins with a call, where the arguments have no message boxes. -/
theorem Compiler.actions_of_assigned_tree {c : Compiler} (hc : c.Sound) (hd : c.depth = 0) {x f : Word}
    {k : Command} (hx : x.isName) (hr : Names.isReserved x.name = false)
    (hk : c.declarations.callee? f.name = some (.command k)) (hs : k.hasSlot) {args : Args}
    {ws : List Word}
    (hfit : (Expr.chain (.call f args) ws).Fits (c.assigningEnv x.name) (c.assigning x.name) c.current)
    (hdepth : (Expr.chain (.call f args) ws).assignedDepth ≤ Compile.maxNesting) :
    let compiled := c.compile (⟨x, { assigns := true }⟩ :: (Expr.chain (.call f args) ws).tokens {})
    ∃ ls, compiled.result = .ok (.lines ls) ∧ actions ls =
      (args.calls (c.assigningEnv x.name) c.declarations.generated).flatMap
        compiled.compiler.declarations.block ++
      k.binding (c.assigningEnv x.name) c.declarations.generated (c.assigned x.name) args ws := by
  intro compiled
  have hcallee := c.callee?_compile_command hc
    (⟨x, { assigns := true }⟩ :: (Expr.chain (.call f args) ws).tokens {})
  obtain ⟨w, he, hcarries⟩ := Compile.exec_statement_assignment hc hd hx hr hfit hdepth
  refine ⟨w.lines, congrArg Prod.fst he, ?_⟩
  rw [← Expr.instrs_plan_chain _ _ _ args ws ((hcallee f.name k).mpr hk) hs, Compiler.compiler_compile, he]
  exact hcarries.lines

/-- An assignment that begins with a call of a primitive ends with the call and the join, whatever the
arguments of the call are. The call has the assigned variable for the result, unless a join is marked
right behind its name, as it is where something is joined to a call without arguments: then the result is
held in a generated variable. These lines leave the same values as to hold the result in a variable of
its own exactly if it is held or nothing that is joined reads the assigned variable. Where the arguments
have no message boxes in them, the lines of their calls are known as well. Under the same condition, if
they call primitives only, the whole assignment gives the variable the result, with the values from before
joined to it, and leaves alone all that is not generated. -/
theorem direct_binding_agrees_iff {c : Compiler} (hc : c.Reachable) {x f : Word} {k : Command}
    (hx : x.isName) (hr : Names.isReserved x.name = false)
    (hk : c.declarations.callee? f.name = some (.command k)) (hs : k.hasSlot) :
    let v := c.assigned x.name
    let env := c.assigningEnv x.name
    let n := c.declarations.generated
    (∀ tx tf t us vs ls, tx.assigns → tf.opens →
      (c.compile (⟨x, tx⟩ :: ⟨f, tf⟩ :: us)).result = .ok (.lines ls) →
      Cursor.Reads .item ⟨tf, us⟩ ⟨t, vs⟩ →
      (∀ u ∈ vs, u.opens = false ∧ (Item.word u.word).Fits env (c.assigning x.name) c.current) →
      let ys := vs.map (env.operand ·.word)
      ∃ as xs is, actions ls = as ++ is ∧ k.slot ≤ xs.length ∧
        is = (if tf.joins then k.held xs v (env.temp (n + 1)) ys else k.bound xs v t.joins ys) ∧
        ∀ t' ≠ v, (∀ y ∈ ys, t' ∉ y.vars) →
          (k.AgreesHeld env n xs v t' ys is ↔ (tf.joins ∨ ∀ y ∈ ys, v ∉ y.vars))) ∧
    ∀ args ws, (Expr.chain (.call f args) ws).Fits env (c.assigning x.name) c.current →
      (Expr.chain (.call f args) ws).assignedDepth ≤ Compile.maxNesting →
      let ys := ws.map env.operand
      let compiled := c.compile (⟨x, { assigns := true }⟩ :: (Expr.chain (.call f args) ws).tokens {})
      ∃ ls, compiled.result = .ok (.lines ls) ∧
        actions ls = (args.calls env n).flatMap compiled.compiler.declarations.block ++
          k.binding env n v args ws ∧
        (∀ t ≠ v, (∀ y ∈ ys, t ∉ y.vars) →
          (k.AgreesHeld env n (args.operands env n) v t ys (k.binding env n v args ws) ↔
            (args.isNone ∨ ∀ y ∈ ys, v ∉ y.vars))) ∧
        ((∀ g ∈ args.callees, ∃ k, c.declarations.callee? g.name = some (.command k)) →
          ((∀ perform μ, ∃ μ', (Platform.literal perform).run? (ls.map Line.instr) μ = some μ' ∧
            μ'.values v = (perform k.primitive
                (args.values (.literal perform) (c.assigning x.name) env μ.values)).result ++
              String.join (ys.map (·.eval (.literal perform) μ.values)) ∧
            ∀ u ≠ v, (∀ j, n < j → u ≠ env.temp j) → μ'.values u = μ.values u) ↔
          (args.isNone ∨ ∀ y ∈ ys, v ∉ y.vars))) := by
  intro v env n
  obtain ⟨hsound, hd⟩ : c.Sound ∧ c.depth = 0 := by
    obtain ⟨predefined, ss, rfl⟩ := hc
    exact ⟨Compiler.sound_steps predefined ss, Compiler.depth_steps predefined ss⟩
  have hmem : k ∈ Catalogue.commands := Compiler.command_mem_catalogue hc hk
  have hv : ∀ j, n < j → v ≠ env.temp j := fun j _ => Compiler.assigned_ne_temp hr env j
  have hvars := Compiler.assigning_ne_temp hsound hr env
  refine ⟨fun tx tf t us vs ls htx ho hok hread hvs => ?_, fun args ws hfit hdepth => ?_⟩
  · intro ys
    obtain ⟨hjoins, as, xs, hslot, hlines⟩ :=
      Compile.actions_of_assigned_call hsound hx hr hmem hs hk htx ho hok hread hvs
    have hys : ∀ y ∈ ys, ∀ u ∈ y.vars, ∀ j, n < j → u ≠ env.temp j := by
      intro y hy
      obtain ⟨u, hu, rfl⟩ := List.mem_map.mp hy
      exact env.operand_ne_temp hvars (hvs u hu).2
    refine ⟨as, xs, _, hlines, hslot, rfl, fun t' ht hty => ?_⟩
    cases hj : tf.joins with
    | false =>
      have hnone : t.joins = false → ys = [] := fun h => congrArg _ (hjoins hj h)
      exact (Command.delivers_bound hmem hs hslot env n v hnone).agreesHeld_iff hmem hs hslot hv ht hty
    | true => exact (Command.delivers_held hmem hs hslot v hys).agreesHeld_iff hmem hs hslot hv ht hty
  · intro ys compiled
    obtain ⟨hcall, hwords⟩ := Expr.fits_chain hfit
    rw [Item.Fits, Declarations.Permits, c.callee?_assigning, hk] at hcall
    have hslot : k.slot ≤ args.length := Nat.le_trans (Catalogue.slot_le_least hmem) hcall.1.2.1
    have hys : ∀ y ∈ ys, ∀ u ∈ y.vars, ∀ j, n < j → u ≠ env.temp j := by
      intro y hy
      obtain ⟨w, hw, rfl⟩ := List.mem_map.mp hy
      exact env.operand_ne_temp hvars (hwords w hw)
    obtain ⟨ls, hls, hlines⟩ := Compiler.actions_of_assigned_tree hsound hd hx hr hk hs hfit hdepth
    refine ⟨ls, hls, hlines, fun t ht hty => ?_, fun hcalls => ?_⟩
    · have hlen : k.slot ≤ (args.operands env n).length := by
        rw [Compile.length_operands]
        exact hslot
      exact (Command.delivers_binding hmem hs hslot hys v).agreesHeld_iff hmem hs hlen hv ht hty
    · have hsame := fun g hg => Compiler.callee?_compile_assigning hsound x.name (hcalls g hg)
      have hstraight : args.Straight (c.assigning x.name) env n :=
        args.straight_of_fits hvars
          (fun _ _ h => Compiler.command_mem_catalogue hc ((c.callee?_assigning _ _).symm.trans h))
          hcall.2 fun g hg => (hcalls g hg).imp fun _ h => (c.callee?_assigning _ _).trans h
      have hblocks : actions ls =
          (args.calls env n).flatMap (c.assigning x.name).block ++ k.binding env n v args ws := by
        rw [← args.flatMap_block_congr env n fun g hg => hsame g hg _]
        exact hlines
      simp only [Platform.run?_actions, hblocks]
      exact Command.binding_right_iff hmem hs hslot hys hstraight

/-- The lines of `x = StrLen(MsgBox("OK", "a")) & $INSTDIR & y`, where `x` is new. -/
def boxedLines : List Line :=
  let x : Variable := ⟨"x", .global, none⟩
  let held : Variable := ⟨"bridle_1", .global, none⟩
  [⟨0, .declare x⟩, ⟨0, .declare held⟩, ⟨0, .dialog ⟨["OK"], .literal "\"a\"", none, []⟩⟩,
    ⟨1, .copy held (.literal "\"OK\"")⟩, ⟨1, .jump "msgbox_bridle_2"⟩, ⟨1, .label "msgbox_bridle_2"⟩,
    ⟨0, .perform (.instruction "StrLen") [.var x, .var held]⟩,
    ⟨0, .copy x (.joined [.value x, .text "$INSTDIR", .value ⟨"y", .global, none⟩])⟩]

/-- `x = StrLen(MsgBox("OK", "a")) & $INSTDIR & y`, where `x` is new, ends with lines that agree with
those that hold the length, and `x = StrLen(StrLen(y) & "b") & y & "c"` has the right value. -/
theorem direct_binding_agrees_iff_of_StrLen :
    let c := ((Compiler.start true).steps (program ["y = \"1\""])).2
    let x : Word := ⟨.name, "x"⟩
    let y : Word := ⟨.name, "y"⟩
    let f : Word := ⟨.name, "StrLen"⟩
    let v : Variable := ⟨"x", .global, none⟩
    let k := Command.instruction "StrLen" 1 1 .required 0
    let env := c.assigningEnv x.name
    let boxed : List Token := [⟨⟨.name, "MsgBox"⟩, { opens := true }⟩,
      ⟨⟨.quoted, "\"OK\""⟩, { separates := true }⟩, ⟨⟨.quoted, "\"a\""⟩, { joins := true, closes := 2 }⟩]
    let joined : List Token := [⟨⟨.special, "$INSTDIR"⟩, { joins := true }⟩, ⟨y, {}⟩]
    let args : Args := .cons (.join (.call f (.cons (.single (.word y)) .none))
      (.single (.word ⟨.quoted, "\"b\""⟩))) .none
    let ws : List Word := [y, ⟨.quoted, "\"c\""⟩]
    let e := Expr.chain (.call f args) ws
    (c.declarations.callee? f.name = some (.command k) ∧ e.Fits env (c.assigning x.name) c.current ∧
      e.assignedDepth ≤ Compile.maxNesting) ∧
    ((c.compile (⟨x, { assigns := true }⟩ :: ⟨f, { opens := true }⟩ :: (boxed ++ joined))).result =
        .ok (.lines boxedLines) ∧
      ∃ as xs is, actions boxedLines = as ++ is ∧ ∀ t ≠ v, t ≠ ⟨"y", .global, none⟩ →
        k.AgreesHeld env 0 xs v t [.literal "$INSTDIR", .var ⟨"y", .global, none⟩] is) ∧
    ∃ ls, (c.compile (⟨x, { assigns := true }⟩ :: e.tokens {})).result = .ok (.lines ls) ∧
      ∀ perform μ, ∃ μ', (Platform.literal perform).run? (ls.map Line.instr) μ = some μ' ∧
        μ'.values v =
          (perform k.primitive (args.values (.literal perform) (c.assigning x.name) env μ.values)).result ++
            String.join ((ws.map env.operand).map (·.eval (.literal perform) μ.values)) := by
  intro c x y f v k env boxed joined args ws e
  have h : c.declarations.callee? f.name = some (.command k) ∧ e.Fits env (c.assigning x.name) c.current ∧
      e.assignedDepth ≤ Compile.maxNesting := by
    decide +kernel
  have hnew : c.assigned x.name = v := by decide +kernel
  obtain ⟨hwords, htree⟩ := direct_binding_agrees_iff ⟨true, _, rfl⟩ (c := c) (x := x) (by decide)
    (by decide +kernel) h.1 rfl
  refine ⟨h, ?_, ?_⟩
  · obtain ⟨cursor, hread, hcursor⟩ : ∃ cursor, Cursor.Reads .item
        ⟨{ opens := true }, boxed ++ joined⟩ cursor ∧ cursor = ⟨{ joins := true }, joined⟩ :=
      ⟨_, .call rfl (.last rfl rfl (.value (.call rfl (.next rfl rfl (.value (.word rfl) (.stop rfl)) rfl
        (.last rfl rfl (.value (.word rfl) (.stop rfl)) rfl)) rfl) (.stop rfl)) rfl) rfl, rfl⟩
    rw [hcursor] at hread
    have hok : (c.compile (⟨x, { assigns := true }⟩ :: ⟨f, { opens := true }⟩ ::
        (boxed ++ joined))).result = .ok (.lines boxedLines) := by decide +kernel
    have hys : joined.map (env.operand ·.word) = [.literal "$INSTDIR", .var ⟨"y", .global, none⟩] := by
      decide +kernel
    have hgenerated : c.declarations.generated = 0 := by decide +kernel
    obtain ⟨as, xs, is, hlines, -, -, hagrees⟩ := hwords { assigns := true } { opens := true } _ _ _ _
      rfl rfl hok hread (by decide +kernel)
    rw [hys, hnew, hgenerated] at hagrees
    refine ⟨hok, as, xs, is, hlines, fun t ht hy => (hagrees t ht ?_).mpr (.inr (by decide))⟩
    simpa [Operand.vars] using hy
  · have hcallees : ∀ g ∈ args.callees, g = f := by decide +kernel
    obtain ⟨ls, hls, -, -, hright⟩ := htree args ws h.2.1 h.2.2
    refine ⟨ls, hls, fun perform μ => ?_⟩
    obtain ⟨μ', hrun, hvalue, -⟩ := (hright fun g hg => ⟨k, by rw [hcallees g hg, h.1]⟩).mpr
      (.inr (by decide +kernel)) perform μ
    rw [hnew] at hvalue
    exact ⟨μ', hrun, hvalue⟩

/-- The variable is overwritten with the length before it is joined: `22`, not `2a`. -/
theorem joins_overwritten_variable :
    let x : Variable := ⟨"x", .global, none⟩
    let lengths : Primitive → List String → Effect := fun _ vs => ⟨toString (String.join vs).length, false⟩
    let is := ((Compiler.start true).output (statements "x = \"a\"\nx = StrLen(\"ab\") & x")).map Line.instr
    is = [.declare x, .copy x (.literal "\"a\""),
        .perform (.instruction "StrLen") [.var x, .literal "\"ab\""],
        .copy x (.joined [.value x, .value x])] ∧
      ((Platform.literal lengths).run? is ⟨fun _ => "", false⟩).map (·.values x) = some "22" := by
  decide +kernel

end InstallScript
