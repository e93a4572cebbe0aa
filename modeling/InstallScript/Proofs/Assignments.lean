import InstallScript.Proofs.PostOrder
import InstallScript.Proofs.Rendering

/-!
Assignments of expressions, from their text to the lines they become.

* `Expr.plan`: the calls of an assignment in the order they are made, and what is copied at the end.
* `Compile.exec_rightSide`: the right side of an assignment is compiled as planned.
* `assignment_calls_in_post_order`: so is the statement, in every state that a run can reach.

The call that begins the right side gives its result to the assigned variable itself, except a call
without arguments to which more is joined. That one is read like a word of a chain, since the marks
behind its name call for another item.
-/

namespace InstallScript

/-! ## Plans -/

/-- What an assignment becomes, apart from declarations. -/
structure Plan where
  calls : List Call
  copies : List Instr

def Plan.instrs (p : Plan) (d : Declarations) : List Instr := p.calls.flatMap d.block ++ p.copies

namespace Expr

/-- The call that gives its result to the assigned variable itself, with its arguments. -/
def direct? : Expr → Option (Word × Args)
  | single (.call f args) => some (f, args)
  | join (.call f (.cons e more)) _ => some (f, .cons e more)
  | _ => none

/-- The plan of an assignment to `v` when `n` names have been generated before. -/
def plan (env : Env) (v : Variable) (n : Nat) : Expr → Plan
  | single (.call f args) => ⟨args.calls env n ++ [⟨f, args.operands env n, v⟩], []⟩
  | join (.call f (.cons a more)) e =>
    let args := Args.cons a more
    ⟨args.calls env n ++ [⟨f, args.operands env n, v⟩] ++ e.calls env (n + args.count),
      [.copy v ((Operand.var v).join (e.operand env (n + args.count)))]⟩
  | e => ⟨e.calls env n, [.copy v (e.operand env n)]⟩

/-- How many calls give their result to a variable of their own. -/
def held : Expr → Nat
  | single (.call _ args) => args.count
  | join (.call _ (.cons a more)) e => (Args.cons a more).count + e.count
  | e => e.count

/-- How deep calls and expressions are nested when the expression is assigned. -/
def assignedDepth : Expr → Nat
  | single i => i.depth
  | join (.call f (.cons a more)) e => (join (.call f (.cons a more)) e).inner
  | e => e.depth

end Expr

mutual

/-- The names that are called, those of the arguments before the call they belong to. -/
def Item.callees : Item → List Word
  | .word _ => []
  | .call f args => args.callees ++ [f]

def Args.callees : Args → List Word
  | .none => []
  | .cons e more => e.callees ++ more.callees

def Expr.callees : Expr → List Word
  | .single i => i.callees
  | .join i e => i.callees ++ e.callees

end

mutual

theorem Item.callees_calls (env : Env) : ∀ (i : Item) (n : Nat),
    (i.calls env n).map Call.callee = i.callees
  | .word _, n => by rw [Item.calls, Item.callees, List.map_nil]
  | .call f args, n => by
    rw [Item.calls, Item.callees, List.map_append, args.callees_calls env, List.map_singleton]

theorem Args.callees_calls (env : Env) : ∀ (args : Args) (n : Nat),
    (args.calls env n).map Call.callee = args.callees
  | .none, n => by rw [Args.calls, Args.callees, List.map_nil]
  | .cons e more, n => by
    rw [Args.calls, Args.callees, List.map_append, e.callees_calls env, more.callees_calls env]

theorem Expr.callees_calls (env : Env) : ∀ (e : Expr) (n : Nat),
    (e.calls env n).map Call.callee = e.callees
  | .single i, n => by rw [Expr.calls, Expr.callees, i.callees_calls env]
  | .join i e, n => by
    rw [Expr.calls, Expr.callees, List.map_append, i.callees_calls env, e.callees_calls env]

end

namespace Expr

variable {env : Env} {v : Variable} {n : Nat}

theorem direct_cases (e : Expr) : (∃ f args, e = single (.call f args)) ∨
    (∃ f a more e', e = join (.call f (.cons a more)) e') ∨ e.direct? = none := by
  match e with
  | single (.word _) | join (.word _) _ | join (.call _ .none) _ => exact .inr (.inr rfl)
  | single (.call f args) => exact .inl ⟨f, args, rfl⟩
  | join (.call f (.cons a more)) e' => exact .inr (.inl ⟨f, a, more, e', rfl⟩)

/-- Without a call that gives its result to the assigned variable, the expression is compiled as it
would be elsewhere. -/
theorem plan_of_direct?_eq_none {e : Expr} (h : e.direct? = none) :
    e.plan env v n = ⟨e.calls env n, [.copy v (e.operand env n)]⟩ := by
  match e with
  | single (.word _) | join (.word _) _ | join (.call _ .none) _ => rfl
  | single (.call _ _) | join (.call _ (.cons _ _)) _ => cases h

theorem held_of_direct?_eq_none {e : Expr} (h : e.direct? = none) : e.held = e.count := by
  match e with
  | single (.word _) | join (.word _) _ | join (.call _ .none) _ => rfl
  | single (.call _ _) | join (.call _ (.cons _ _)) _ => cases h

theorem assignedDepth_of_direct?_eq_none {e : Expr} (h : e.direct? = none) :
    e.assignedDepth = e.depth := by
  match e with
  | single (.word _) => rw [assignedDepth, Item.depth, Expr.depth]
  | join (.word _) _ | join (.call _ .none) _ => rfl
  | single (.call _ _) | join (.call _ (.cons _ _)) _ => cases h

/-- A plan makes every call once, in the order of the names. -/
theorem callees_plan (e : Expr) : (e.plan env v n).calls.map Call.callee = e.callees := by
  rcases e.direct_cases with ⟨f, args, rfl⟩ | ⟨f, a, more, e, rfl⟩ | h
  · rw [plan, Expr.callees, Item.callees, List.map_append, Args.callees_calls, List.map_singleton]
  · rw [plan, Expr.callees, Item.callees, List.map_append, List.map_append, Args.callees_calls,
      Expr.callees_calls, List.map_singleton]
  · rw [plan_of_direct?_eq_none h]
    exact e.callees_calls env n

theorem mem_plan_of_direct? {e : Expr} {f : Word} {args : Args} (h : e.direct? = some (f, args)) :
    ⟨f, args.operands env n, v⟩ ∈ (e.plan env v n).calls := by
  rcases e.direct_cases with ⟨f', args', rfl⟩ | ⟨f', a, more, e, rfl⟩ | hd
  · cases h
    exact List.mem_append_right _ List.mem_cons_self
  · cases h
    exact List.mem_append_left _ (List.mem_append_right _ List.mem_cons_self)
  · rw [hd] at h
    cases h

/-- The results of a plan go to the assigned variable, if a call gives its result to it, and to the
next generated ones. -/
theorem results_plan (e : Expr) : ((e.plan env v n).calls.map Call.result).Perm
    ((e.direct?.map fun _ => v).toList ++ env.temps n e.held) := by
  rcases e.direct_cases with ⟨f, args, rfl⟩ | ⟨f, a, more, e, rfl⟩ | h
  · rw [plan, List.map_append]
    exact (List.perm_append_singleton _ _).trans (.cons _ (args.results_perm env n))
  · rw [plan, held, ← env.temps_append, List.map_append, List.map_append]
    have hcall := (List.perm_append_singleton v _).trans
      (.cons v ((Args.cons a more).results_perm env n))
    exact hcall.append (e.results_perm env _)
  · rw [plan_of_direct?_eq_none h, held_of_direct?_eq_none h, h]
    exact e.results_perm env n

end Expr

/-! ## Right sides -/

namespace Compile

variable {w w' : Work} {env : Env} {v : Variable}

/-- Compiles the right side of an assignment to `v`, which begins with `word`. -/
def rightSide (v : Variable) (word : Word) : Compile Unit := do
  let t ← tail
  if !t.joins && t.opens then
    callInto word (some v)
    if !(← tail).joins then expectEnd
    else
      let x ← valueFrom (.var v)
      expectEnd
      emit [⟨0, .copy v x⟩]
  else
    let x ← if t.joins then value word else resolve word
    expectEnd
    emit [⟨0, .copy v x⟩]

theorem exec_assignment {x : Word} (hx : x.isName) (hr : Names.isReserved x.name = false) :
    exec (assignment x) w =
      exec (assigned x.name >>= fun v => nextWord >>= fun word => rightSide v word) w := by
  unfold assignment
  rw [hx, Names.check, hr]
  rfl

/-- The calls of the plan have been written, then its copies, and no word is left. -/
structure Carries (w : Work) (p : Plan) (w' : Work) : Prop where
  known : ∀ k ∈ p.calls, ∃ c, w'.declarations.callee? k.callee.name = some c
  lines : actions w'.lines = actions w.lines ++ p.instrs w'.declarations
  ahead : w'.cursor.ahead = []

theorem exec_expectEnd (h : w.cursor.ahead = []) : exec expectEnd w = (.ok (), w) := by
  unfold expectEnd
  rw [exec_bind_ok (exec_hasNext w), Cursor.hasNext, h]
  rfl

/-- The value is copied when all calls are written. -/
theorem exec_copy {calls : List Call} {n : Nat} (v : Variable) (x : Operand) {after : Tail}
    (hw : Writes w calls n w') (hstand : Stands w' after []) :
    ∃ w'', exec (expectEnd >>= fun _ => emit [⟨0, .copy v x⟩]) w' = (.ok (), w'') ∧
      Carries w ⟨calls, [.copy v x]⟩ w'' := by
  refine ⟨w'.write [⟨0, .copy v x⟩], exec_bind_ok (exec_expectEnd hstand.1), hw.known, ?_, hstand.1⟩
  show actions (w'.lines ++ [⟨0, .copy v x⟩]) = _
  rw [actions_append, hw.lines, List.append_assoc]
  rfl

/-- A call that gives its result to `v` itself; what follows it may be joined to the result. -/
theorem exec_rightSide_call {f : Word} {args : Args} {after : Tail} {more : List Token}
    (hroom : Room env w levels (args.depth + 1))
    (hfit : (Item.call f args).Fits env w.declarations w.compiler.current) (hv : w.Sees v)
    (ha : after.opens = false) (hj : (Tail.calling args after).joins = false)
    (hcur : w.cursor = ⟨.calling args after, args.tokens after.closing ++ more⟩) :
    ∃ w', exec (rightSide v f) w = exec (if !after.joins then expectEnd else
        valueFrom (.var v) >>= fun x => expectEnd >>= fun _ => emit [⟨0, .copy v x⟩]) w' ∧
      Writes w (args.calls env w.declarations.generated ++
        [⟨f, args.operands env w.declarations.generated, v⟩]) args.count w' ∧
      Stands w' after more := by
  obtain ⟨w₁, he, hw, hstand⟩ := call_written (args_compile args) hroom hfit ha hcur hv
  refine ⟨w₁, ?_, hw, hstand⟩
  unfold rightSide
  rw [exec_bind_ok (exec_tail_of_cursor hcur), hj, opens_calling]
  refine (exec_bind_ok he).trans ?_
  rw [exec_bind_ok (exec_tail w₁), ← hstand.2]

/-- Anything else is compiled to an operand, which is copied to `v`. -/
theorem exec_rightSide_value {e : Expr} (hd : e.direct? = none) (hroom : Room env w levels e.depth)
    (hfit : e.Fits env w.declarations w.compiler.current)
    (hcur : w.cursor = ⟨e.tail {}, e.rest {}⟩) :
    ∃ w', exec (rightSide v e.first) w = (.ok (), w') ∧
      Carries w ⟨e.calls env w.declarations.generated,
        [.copy v (e.operand env w.declarations.generated)]⟩ w' := by
  have hcur' : w.cursor = ⟨e.tail {}, e.rest {} ++ []⟩ := by
    rw [List.append_nil]
    exact hcur
  obtain ⟨w₁, he, hw, hstand⟩ := expr_compiles e hroom hfit (show Stops {} from ⟨rfl, rfl⟩)
    hcur'
  obtain ⟨w₂, he₂, hc⟩ := exec_copy v (e.operand env w.declarations.generated) hw hstand
  refine ⟨w₂, ?_, hc⟩
  have htail : ((e.tail {}).opens || ((e.tail {}).joins && !(e.tail {}).isClosing)) = (e.tail {}).joins ∧
      (!(e.tail {}).joins && (e.tail {}).opens) = false := by
    match e with
    | .single (.word _) | .join (.word _) _ | .join (.call _ .none) _ => exact ⟨rfl, rfl⟩
    | .single (.call _ _) | .join (.call _ (.cons _ _)) _ => cases hd
  rw [htail.1] at he
  unfold rightSide
  rw [exec_bind_ok (exec_tail_of_cursor hcur), htail.2]
  exact (exec_ite_bind _ _ _ _ _).trans ((exec_bind_ok he).trans he₂)

/-- The right side of an assignment is compiled as planned. -/
theorem exec_rightSide {e : Expr} (hroom : Room env w levels e.assignedDepth)
    (hfit : e.Fits env w.declarations w.compiler.current) (hv : w.Sees v)
    (hcur : w.cursor = ⟨e.tail {}, e.rest {}⟩) :
    ∃ w', exec (rightSide v e.first) w = (.ok (), w') ∧
      Carries w (e.plan env v w.declarations.generated) w' := by
  rcases e.direct_cases with ⟨f, args, rfl⟩ | ⟨f, a, more, e, rfl⟩ | hd
  · rw [Expr.assignedDepth, Item.depth] at hroom
    rw [Expr.Fits] at hfit
    have hcur' : w.cursor = ⟨.calling args {}, args.tokens (Tail.closing {}) ++ []⟩ := by
      rw [List.append_nil]
      exact hcur
    obtain ⟨w₁, he, hw, hstand⟩ := exec_rightSide_call hroom hfit hv rfl (by cases args <;> rfl) hcur'
    refine ⟨w₁, he.trans (exec_expectEnd hstand.1), hw.known, ?_, hstand.1⟩
    rw [hw.lines]
    exact congrArg _ (List.append_nil _).symm
  · rw [Expr.assignedDepth, Expr.inner, Item.depth] at hroom
    rw [Expr.Fits] at hfit
    obtain ⟨w₁, he₁, hw₁, hstand₁⟩ := exec_rightSide_call
      (hroom.mono (Nat.le_max_left _ _)) hfit.1 hv (show Tail.joining.opens = false from rfl) rfl hcur
    have hlen : e.length ≤ w₁.cursor.ahead.length := by
      rw [hstand₁.1]
      exact e.length_le_tokens {}
    have hstand₁' : Stands w₁ .joining (e.tokens {} ++ []) := by
      rw [List.append_nil]
      exact hstand₁
    obtain ⟨w₂, he₂, hw₂, hstand₂⟩ := expr_chains e (.var v) ((hroom.after hw₁).mono (Nat.le_max_right _ _))
      (fits_expr hw₁.reach hroom.sound e hfit.2) (show Stops {} from ⟨rfl, rfl⟩) hstand₁' hlen
    rw [hw₁.generated] at he₂ hw₂
    obtain ⟨w₃, he₃, hc⟩ := exec_copy v _ (hw₁.trans hw₂) hstand₂
    exact ⟨w₃, he₁.trans ((exec_bind_ok he₂).trans he₃), hc⟩
  · rw [Expr.assignedDepth_of_direct?_eq_none hd] at hroom
    rw [Expr.plan_of_direct?_eq_none hd]
    exact exec_rightSide_value hd hroom hfit hcur

end Compile

/-! ## Assignments -/

namespace Compiler

/-- Some statements lead to this state, whatever went wrong in them. -/
def Reachable (c : Compiler) : Prop := ∃ predefined ss, ((start predefined).steps ss).2 = c

/-- The variable that an assignment to a name means: one that can be seen, or else a new one. -/
def assigned (c : Compiler) (name : String) : Variable :=
  (c.declarations.find? name c.current).getD ⟨name, c.scope, none⟩

/-- What is declared where the right side of the assignment is compiled. -/
def assigning (c : Compiler) (name : String) : Declarations :=
  if (c.declarations.find? name c.current).isSome then c.declarations
  else c.declarations.addVariable ⟨name, c.scope, none⟩

/-- What names mean there. -/
def assigningEnv (c : Compiler) (name : String) : Env where
  look other := ((c.assigning name).find? other c.current).getD (c.assigned name)
  scope := c.scope

variable {c : Compiler}

theorem generated_assigning (c : Compiler) (name : String) :
    (c.assigning name).generated = c.declarations.generated := by
  unfold assigning
  split <;> rfl

theorem name_assigned (c : Compiler) (name : String) : (c.assigned name).name = name := by
  unfold assigned
  cases h : c.declarations.find? name c.current with
  | none => rfl
  | some v => exact (Declarations.mem_of_find? h).2.1

theorem declared?_of_find? {name : String} (h : c.declarations.find? name c.current = none) :
    c.declarations.declared? name c.scope = none := by
  unfold Compiler.scope
  cases hc : c.current with
  | none =>
    rw [hc] at h
    exact h
  | some f =>
    rw [hc] at h
    exact (Option.or_eq_none_iff.mp h).1

end Compiler

namespace Compile

variable {w w' : Work}

/-- The variable is there before the right side is looked at. -/
theorem exec_assigned (w : Work) (name : String) :
    ∃ w', exec (assigned name) w = (.ok (w.compiler.assigned name), w') ∧
      w'.declarations = w.compiler.assigning name ∧ w'.cursor = w.cursor ∧
      actions w'.lines = actions w.lines ∧ w'.compiler.current = w.compiler.current := by
  unfold assigned
  rw [exec_bind_ok (exec_declarations w),
    exec_bind_ok (exec_current w), Compiler.assigned,
    Compiler.assigning, show w.compiler.declarations.find? name w.compiler.current =
      w.declarations.find? name w.compiler.current from rfl]
  cases hf : w.declarations.find? name w.compiler.current with
  | some v => exact ⟨w, rfl, rfl, rfl, rfl, rfl⟩
  | none =>
    refine ⟨_, exec_declare (Compiler.declared?_of_find? hf), rfl, rfl, ?_, rfl⟩
    show actions (w.lines ++ [⟨0, .declare _⟩]) = actions w.lines
    rw [actions_append]
    exact List.append_nil _

/-- The variable `name` is there, and nothing else has been done for the assignment to it. -/
structure Prepared (w : Work) (name : String) (w' : Work) : Prop where
  declarations : w'.declarations = w.compiler.assigning name
  lines : actions w'.lines = actions w.lines
  current : w'.compiler.current = w.compiler.current
  depth : w'.compiler.depth = w.compiler.depth
  sound : w'.compiler.Sound
  sees : w'.Sees (w.compiler.assigned name)

/-- The variable is declared before the right side is compiled, which may read it. -/
theorem exec_assignment_rightSide {x f : Word} {t : Tail} {us : List Token} (hs : w.compiler.Sound)
    (hx : x.isName) (hr : Names.isReserved x.name = false) (hahead : w.cursor.ahead = ⟨f, t⟩ :: us) :
    ∃ w', exec (assignment x) w = exec (rightSide (w.compiler.assigned x.name) f) w' ∧
      w'.cursor = ⟨t, us⟩ ∧ Prepared w x.name w' := by
  obtain ⟨w₁, he, hdecl, hcur, hlines, hcurrent⟩ := exec_assigned w x.name
  have hdoes : Does .body (assigned x.name) w fun v w' => w'.Sees v := does_assigned hr
  obtain ⟨hreach, hdepth, hsees⟩ := hdoes
  have hv := hsees _ (congrArg Prod.fst he)
  rw [he] at hreach hdepth hv
  have hnext : exec nextWord w₁ = (.ok f, { w₁ with cursor := ⟨t, us⟩ }) :=
    exec_nextWord_cons (by rw [hcur, hahead])
  refine ⟨{ w₁ with cursor := ⟨t, us⟩ }, ?_, rfl, hdecl, hlines, hcurrent, hdepth, hreach.sound hs, hv⟩
  rw [exec_assignment hx hr, exec_bind_ok he, exec_bind_ok hnext]

/-- The words of an assignment are compiled as planned. -/
theorem exec_statement_assignment {c : Compiler} (hs : c.Sound) (hd : c.depth = 0) {x : Word} {e : Expr}
    (hx : x.isName) (hr : Names.isReserved x.name = false)
    (hfit : e.Fits (c.assigningEnv x.name) (c.assigning x.name) c.current)
    (hdepth : e.assignedDepth ≤ maxNesting) :
    ∃ w, exec statement (c.work (⟨x, { assigns := true }⟩ :: e.tokens {})) =
        (.ok (.lines w.lines), w) ∧
      Carries (c.work []) (e.plan (c.assigningEnv x.name) (c.assigned x.name)
        c.declarations.generated) w := by
  let w₀ : Work := { c.work [] with cursor := ⟨{ assigns := true }, e.tokens {}⟩ }
  obtain ⟨w₂, he₂, hcur, hb⟩ := exec_assignment_rightSide (w := w₀) hs hx hr (e.tokens_eq {})
  have hroom : Room (c.assigningEnv x.name) w₂ levels e.assignedDepth := by
    refine ⟨hb.sound, ?_, Nat.le_trans hdepth (Nat.le_succ _), ?_⟩
    · rw [Compiler.scope, hb.current]
      rfl
    · rw [hb.depth, show w₀.compiler.depth = 0 from hd, Nat.zero_add]
      exact hdepth
  have hfit₂ : e.Fits (c.assigningEnv x.name) w₂.declarations w₂.compiler.current := by
    rw [hb.declarations, hb.current]
    exact hfit
  have hg : w₂.declarations.generated = c.declarations.generated := by
    rw [hb.declarations]
    exact c.generated_assigning x.name
  obtain ⟨w₃, he₃, hc⟩ := exec_rightSide (v := c.assigned x.name) hroom hfit₂ hb.sees hcur
  rw [hg] at hc
  refine ⟨w₃, ?_, hc.known, ?_, hc.ahead⟩
  · rw [exec_statement rfl]
    show exec (written (assignment x)) w₀ = _
    unfold written
    rw [exec_bind_ok (he₂.trans he₃)]
    rfl
  · rw [hc.lines, hb.lines]

end Compile

/-- Generated variables are new, and none of them is a variable that a script names. -/
theorem temps_fresh {c : Compiler} (hs : c.Sound) {env : Env} {v : Variable}
    (hv : Names.isReserved v.name = false) (count : Nat) :
    (v :: env.temps c.declarations.generated count).Nodup ∧
      ∀ t ∈ env.temps c.declarations.generated count, ∀ u ∈ c.declarations.vars, u.name ≠ t.name := by
  have hmem : ∀ t ∈ env.temps c.declarations.generated count,
      ∃ k, c.declarations.generated < k ∧ t = env.temp k := by
    intro t ht
    obtain ⟨k, hk, rfl⟩ := List.mem_map.mp ht
    exact ⟨k, (List.mem_range'_1.mp hk).1, rfl⟩
  refine ⟨List.nodup_cons.mpr ⟨fun hm => ?_, env.temps_nodup _ _⟩, fun t ht u hu hname => ?_⟩
  · obtain ⟨k, -, rfl⟩ := hmem v hm
    exact Names.ne_of_not_reserved hv (Names.isReserved_generated k) rfl
  · obtain ⟨k, hk, rfl⟩ := hmem t ht
    exact Declarations.declared?_eq_none.mp (hs.fresh hk u.scope) u hu ⟨hname, rfl⟩

/-- The text of an assignment of `e` to `x` has the words `ts` and compiles to the lines `ls`, which
carry out the plan of the assignment. -/
structure Compiler.Assigns (c : Compiler) (x : Word) (e : Expr) (ts : List Token) (ls : List Line) :
    Prop where
  words : (statements (e.assignmentTo x)).map Statement.tokens = [.ok ts]
  result : (c.compile ts).result = .ok (.lines ls)
  consumed : (c.compile ts).cursor.hasNext = false
  written : (c.steps (statements (e.assignmentTo x))).1.map Step.result =
    [.ok (.text (Line.writeAll "" ls))]
  /-- The lines are the calls in the order of the plan, and what is copied at the end. -/
  lines : actions ls = (e.plan (c.assigningEnv x.name) (c.assigned x.name)
    c.declarations.generated).instrs (c.compile ts).compiler.declarations
  known : ∀ f ∈ e.callees, ((c.compile ts).compiler.declarations.callee? f.name).isSome
  /-- Each variable that is used was there before, or is declared further up, once. -/
  uses : UsesDeclared c.declarations.vars ls
  once : (declaredIn ls).Nodup

/-- The calls of a plan are those of the expression, each once and behind those of its arguments, with
arguments that are written as they stand in the source; the one that `Expr.direct?` finds gives its
result to `v`, and each other one to a variable of its own that is not among `vars`. -/
structure Expr.PlansPostOrder (e : Expr) (env : Env) (v : Variable) (n : Nat) (vars : List Variable) :
    Prop where
  callees : (e.plan env v n).calls.map Call.callee = e.callees
  arguments : ∀ (a : Expr) (m : Nat), (a.operand env m).write = a.text env m
  direct : ∀ f args, e.direct? = some (f, args) →
    ⟨f, args.operands env n, v⟩ ∈ (e.plan env v n).calls
  results : ((e.plan env v n).calls.map Call.result).Perm
    ((e.direct?.map fun _ => v).toList ++ env.temps n e.held)
  distinct : (v :: env.temps n e.held).Nodup
  fresh : ∀ t ∈ env.temps n e.held, ∀ u ∈ vars, u.name ≠ t.name

/-- In every state that can be reached, an assignment of an expression whose names are visible and
whose calls are permitted compiles, with no word left, to the calls of the expression in the order in
which they have to be made. -/
theorem assignment_calls_in_post_order {c : Compiler} (hc : c.Reachable) {x : Word} {e : Expr}
    (hx : x.isName) (hsx : x.isSpelled) (hr : Names.isReserved x.name = false) (hse : e.isSpelled)
    (hfit : e.Fits (c.assigningEnv x.name) (c.assigning x.name) c.current)
    (hdepth : e.assignedDepth ≤ Compile.maxNesting) :
    (∃ ts ls, c.Assigns x e ts ls) ∧
      e.PlansPostOrder (c.assigningEnv x.name) (c.assigned x.name) c.declarations.generated
        c.declarations.vars := by
  obtain ⟨predefined, ss, rfl⟩ := hc
  have hs := Compiler.sound_steps predefined ss
  have hd := Compiler.depth_steps predefined ss
  generalize ((Compiler.start predefined).steps ss).2 = c at *
  obtain ⟨w, he, hcarries⟩ := Compile.exec_statement_assignment hs hd hx hr hfit hdepth
  have hresult : (c.compile (⟨x, { assigns := true }⟩ :: e.tokens {})).result = .ok (.lines w.lines) :=
    congrArg Prod.fst he
  have hreg := registered_compile hs (.initial _) hresult
  have htext := statements_assignmentTo hx hsx hse
  refine ⟨⟨⟨x, { assigns := true }⟩ :: e.tokens {}, w.lines, ?_⟩, ?_⟩
  · refine ⟨by rw [htext]; rfl, hresult, ?_, ?_, ?_, fun f hf => ?_, hreg.uses, hreg.nodup⟩
    · rw [Compiler.cursor_compile, he, Cursor.hasNext, hcarries.ahead]
      rfl
    · rw [htext, Compiler.steps_cons, Compiler.step_of_tokens rfl, hresult]
      rfl
    · rw [Compiler.compiler_compile, he]
      exact hcarries.lines
    · rw [← e.callees_plan] at hf
      obtain ⟨k, hk, rfl⟩ := List.mem_map.mp hf
      obtain ⟨callee, hcallee⟩ := hcarries.known k hk
      rw [Compiler.compiler_compile, he]
      exact Option.isSome_of_eq_some hcallee
  · have hv : Names.isReserved (c.assigned x.name).name = false := by
      rw [c.name_assigned]
      exact hr
    obtain ⟨hnodup, hfresh⟩ := temps_fresh hs hv e.held
    exact ⟨e.callees_plan, fun a m => a.write_operand _ m, fun _ _ => e.mem_plan_of_direct?, e.results_plan,
      hnodup, hfresh⟩

/-- An expression with calls in arguments, in a chain and in an argument of a chain, one of them to a
function that is not declared: `join(join(GetParameters(), y & "b"), 3) & other(y) & "c"`. -/
def nestedCalls : Expr :=
  let y : Item := .word ⟨.name, "y"⟩
  let inner : Item := .call ⟨.name, "join"⟩
    (.cons (.single (.call ⟨.name, "GetParameters"⟩ .none))
      (.cons (.join y (.single (.word ⟨.quoted, "\"b\""⟩))) .none))
  .join (.call ⟨.name, "join"⟩ (.cons (.single inner) (.cons (.single (.word ⟨.integer, "3"⟩)) .none)))
    (.join (.call ⟨.name, "other"⟩ (.cons (.single y) .none)) (.single (.word ⟨.quoted, "\"c\""⟩)))

theorem assignment_calls_in_post_order_of_nestedCalls :
    let ss := program ["Function join(a, b)\nReturn a & b\nFunctionEnd\ny = \"1\""]
    let c := ((Compiler.start true).steps ss).2
    let x : Word := ⟨.name, "x"⟩
    (nestedCalls.isSpelled ∧ nestedCalls.assignedDepth ≤ Compile.maxNesting ∧
      nestedCalls.Fits (c.assigningEnv x.name) (c.assigning x.name) c.current ∧
      nestedCalls.assignmentTo x =
        "x = join(join(GetParameters(), y & \"b\"), 3) & other(y) & \"c\"") ∧
    (∃ ts ls, c.Assigns x nestedCalls ts ls) ∧
      nestedCalls.PlansPostOrder (c.assigningEnv x.name) (c.assigned x.name) c.declarations.generated
        c.declarations.vars := by
  intro ss c x
  have h : nestedCalls.isSpelled ∧ nestedCalls.assignedDepth ≤ Compile.maxNesting ∧
      nestedCalls.Fits (c.assigningEnv x.name) (c.assigning x.name) c.current ∧
      nestedCalls.assignmentTo x =
        "x = join(join(GetParameters(), y & \"b\"), 3) & other(y) & \"c\"" := by
    decide +kernel
  exact ⟨h, assignment_calls_in_post_order ⟨true, ss, rfl⟩ (by decide) (by decide) (by decide) h.1 h.2.2.1
    h.2.1⟩

/-- A call without arguments does not give its result to the assigned variable when more is joined to
it. -/
theorem empty_call_in_front_is_held :
    let x : Variable := ⟨"x", .global, none⟩
    let t : Variable := ⟨"bridle_1", .global, none⟩
    let out := ((Compiler.start true).output (statements "x = GetParameters() & \"a\"")).map Line.instr
    out = [.declare x, .declare t, .perform (.header "GetParameters") [.var t],
        .copy x (.joined [.value t, .text "a"])] ∧
      .perform (.header "GetParameters") [.var x] ∉ out := by
  decide +kernel

end InstallScript
