import InstallScript.Proofs.Trees

/-!
Expressions are compiled to their calls in the order of `Expr.calls`, and to the operand
`Expr.operand`. The marks behind a word are not kept in order, and an inner call takes its closing
parenthesis off them, so what has to be shown is that each call finds its own marks: every part of a
tree leaves behind exactly the marks that follow it.
-/

namespace InstallScript

/-! ## What values leave alone -/

namespace Declarations

variable {d : Declarations} {name : String} {v : Variable}

theorem find?_addVariable (h : v.name ≠ name) (current : Option String) :
    (d.addVariable v).find? name current = d.find? name current := by
  have hd : ∀ scope, (d.addVariable v).declared? name scope = d.declared? name scope := by
    intro scope
    simp [declared?, addVariable, h]
  cases current with
  | none => exact hd _
  | some f => simp only [find?, hd]

theorem find?_eq_none (h : ∀ scope, d.declared? name scope = none) (current : Option String) :
    d.find? name current = none := by
  cases current with
  | none => exact h _
  | some f => simp only [find?, h, Option.or_none]

theorem Permits.putPlaceholder {n : Nat} (h : d.Permits name n) (other : String) (q : Placeholder) :
    (d.putCallee other (.placeholder q)).Permits name n := by
  rw [Permits, callee?_putCallee]
  by_cases he : name = other
  · rw [if_pos he]
    trivial
  · rw [if_neg he]
    exact h

end Declarations

/-- A shared variable that is not declared for the whole script is declared nowhere. -/
theorem Compiler.Sound.shared_free {c : Compiler} (hs : c.Sound) {v : Variable}
    (hv : v = Names.returnRegister ∨ v = Names.discarded)
    (hn : c.declarations.declared? v.name .global = none) (scope : Scope) :
    c.declarations.declared? v.name scope = none := by
  rw [Declarations.declared?_eq_none] at hn ⊢
  rintro u hu ⟨hname, -⟩
  have hres : Names.isReserved v.name = true := by
    rcases hv with rfl | rfl
    · exact Names.isReserved_returnRegister
    · exact Names.isReserved_discarded
  have hg : u.scope = .global := by
    cases hs.origins u hu with
    | predefined h =>
      exact absurd hname (Names.ne_of_not_reserved (Names.isReserved_of_mem_catalogue h) hres)
    | named _ _ hr => exact absurd hname (Names.ne_of_not_reserved hr hres)
    | temporary k hk =>
      rcases hv with rfl | rfl
      · exact absurd (hk.symm.trans hname) (Names.generated_ne_returnRegister k)
      · exact absurd (hk.symm.trans hname) (Names.generated_ne_discarded k)
    | register h => rw [h]; rfl
    | discarded h => rw [h]; rfl
  exact hn u hu ⟨hname, hg⟩

namespace Compile

variable {w w' : Work}

/-- A value declares no variable that hides one. -/
theorem Step.find? (h : Step .value w w') (hs : w.compiler.Sound) {name : String} {v : Variable}
    (hf : w.declarations.find? name w.compiler.current = some v) :
    w'.declarations.find? name w'.compiler.current = some v := by
  have hadd : ∀ {u : Variable}, (∀ scope, w.declarations.declared? u.name scope = none) →
      (w.declarations.addVariable u).find? name w.compiler.current = some v := by
    intro u hu
    rw [Declarations.find?_addVariable ?_ w.compiler.current]
    · exact hf
    · rintro rfl
      rw [Declarations.find?_eq_none hu] at hf
      cases hf
  cases h with
  | pass hc _ =>
    rw [Work.declarations, hc]
    exact hf
  | write | call | generate | introduce => exact hf
  | record _ hq =>
    rw [Work.withDeclarations, Work.declarations, Declarations.recordCall_of hq]
    exact hf
  | temporary _ hd => exact hadd hd
  | register _ _ hd => exact hadd (hs.shared_free (.inl rfl) hd)
  | discarded _ _ hd => exact hadd (hs.shared_free (.inr rfl) hd)
  | named hp | returns hp | ended hp | begun hp | param hp | opened hp => cases hp

theorem Reach.find? (h : Reach .value w w') (hs : w.compiler.Sound) {name : String} {v : Variable}
    (hf : w.declarations.find? name w.compiler.current = some v) :
    w'.declarations.find? name w'.compiler.current = some v := by
  induction h with
  | refl => exact hf
  | tail hreach hstep ih => exact hstep.find? (Reach.sound hreach hs) ih

theorem Step.permits (h : Step .value w w') {name : String} {n : Nat}
    (hp : w.declarations.Permits name n) : w'.declarations.Permits name n := by
  cases h with
  | pass hw _ =>
    rw [Work.declarations, hw]
    exact hp
  | write | call | generate | temporary | register | discarded => exact hp
  | introduce => exact hp.putPlaceholder _ _
  | record _ hq =>
    rw [Work.withDeclarations, Work.declarations, Declarations.recordCall_of hq]
    exact hp.putPlaceholder _ _
  | named hp | returns hp | ended hp | begun hp | param hp | opened hp => cases hp

theorem Reach.permits (h : Reach .value w w') {name : String} {n : Nat}
    (hp : w.declarations.Permits name n) : w'.declarations.Permits name n := by
  induction h with
  | refl => exact hp
  | tail _ hstep ih => exact hstep.permits ih

/-- What is found under a name keeps its instructions. -/
theorem Reach.block (h : Reach .value w w') {name : String} {c : Callee}
    (hc : w.declarations.callee? name = some c) :
    ∃ c', w'.declarations.callee? name = some c' ∧ c'.block = c.block := by
  induction h with
  | refl => exact ⟨c, hc, rfl⟩
  | tail _ hstep ih =>
    obtain ⟨c', hc', hb⟩ := ih
    rcases hstep.callee hc' with h | ⟨q, n, rfl, h⟩
    · exact ⟨c', h, hb⟩
    · exact ⟨_, h, hb⟩

mutual

/-- A tree that fits goes on fitting while values are compiled. -/
theorem fits_item (hr : Reach .value w w') (hs : w.compiler.Sound) {env : Env} :
    ∀ i : Item, i.Fits env w.declarations w.compiler.current →
      i.Fits env w'.declarations w'.compiler.current
  | .word x, h => by
    rw [Item.Fits] at h ⊢
    exact fun hx => Reach.find? hr hs (h hx)
  | .call f args, h => by
    rw [Item.Fits] at h ⊢
    exact ⟨Reach.permits hr h.1, fits_args hr hs args h.2⟩

theorem fits_args (hr : Reach .value w w') (hs : w.compiler.Sound) {env : Env} :
    ∀ args : Args, args.Fits env w.declarations w.compiler.current →
      args.Fits env w'.declarations w'.compiler.current
  | .none, _ => by
    rw [Args.Fits]
    trivial
  | .cons e more, h => by
    rw [Args.Fits] at h ⊢
    exact ⟨fits_expr hr hs e h.1, fits_args hr hs more h.2⟩

theorem fits_expr (hr : Reach .value w w') (hs : w.compiler.Sound) {env : Env} :
    ∀ e : Expr, e.Fits env w.declarations w.compiler.current →
      e.Fits env w'.declarations w'.compiler.current
  | .single i, h => by
    rw [Expr.Fits] at h ⊢
    exact fits_item hr hs i h
  | .join i e, h => by
    rw [Expr.Fits] at h ⊢
    exact ⟨fits_item hr hs i h.1, fits_expr hr hs e h.2⟩

end

/-! ## Calls that are written -/

theorem actions_append (ls ms : List Line) : actions (ls ++ ms) = actions ls ++ actions ms := by
  rw [actions, List.map_append, List.filter_append]
  rfl

/-- From `w` to `w'` the calls have been written, and `count` names generated for them. -/
structure Writes (w : Work) (calls : List Call) (count : Nat) (w' : Work) : Prop where
  reach : Reach .value w w'
  depth : w'.compiler.depth = w.compiler.depth
  generated : w'.declarations.generated = w.declarations.generated + count
  known : ∀ k ∈ calls, ∃ c, w'.declarations.callee? k.callee.name = some c
  lines : actions w'.lines = actions w.lines ++ calls.flatMap w'.declarations.block

namespace Writes

variable {calls more : List Call} {m n : Nat} {w'' : Work}

/-- Some names are generated, and nothing is called. -/
theorem quiet (hr : Reach .value w w') (hd : w'.compiler.depth = w.compiler.depth)
    (hg : w'.declarations.generated = w.declarations.generated + n)
    (hl : actions w'.lines = actions w.lines) : Writes w [] n w' :=
  ⟨hr, hd, hg, fun k hk => absurd hk List.not_mem_nil, by rw [hl]; exact (List.append_nil _).symm⟩

theorem refl (w : Work) : Writes w [] 0 w := quiet .refl rfl rfl rfl

theorem trans (h : Writes w calls m w') (h' : Writes w' more n w'') :
    Writes w (calls ++ more) (m + n) w'' := by
  have hblock : ∀ k ∈ calls, w''.declarations.block k = w'.declarations.block k := by
    intro k hk
    obtain ⟨c, hc⟩ := h.known k hk
    obtain ⟨c', hc', hb⟩ := Reach.block h'.reach hc
    rw [Declarations.block, Declarations.block, hc, hc']
    show c'.block k.args k.result = c.block k.args k.result
    rw [hb]
  refine ⟨h.reach.trans h'.reach, h'.depth.trans h.depth, ?_, fun k hk => ?_, ?_⟩
  · rw [h'.generated, h.generated, Nat.add_assoc]
  · rcases List.mem_append.mp hk with hk | hk
    · obtain ⟨c, hc⟩ := h.known k hk
      obtain ⟨c', hc', -⟩ := Reach.block h'.reach hc
      exact ⟨c', hc'⟩
    · exact h'.known k hk
  · have hcalls : calls.flatMap w''.declarations.block = calls.flatMap w'.declarations.block :=
      congrArg List.flatten (List.map_congr_left hblock)
    rw [h'.lines, h.lines, List.flatMap_append, List.append_assoc, hcalls]

theorem nil_trans (h : Writes w [] 0 w') (h' : Writes w' calls n w'') : Writes w calls n w'' := by
  have := h.trans h'
  rwa [List.nil_append, Nat.zero_add] at this

theorem trans_nil (h : Writes w calls n w') (h' : Writes w' [] 0 w'') : Writes w calls n w'' := by
  have := h.trans h'
  rwa [List.append_nil] at this

/-- Going in and out of a nesting writes nothing. -/
theorem nested (h : Writes (w.atDepth (w.compiler.depth + 1)) calls n w') :
    Writes w calls n (w'.atDepth w.compiler.depth) where
  reach := by
    have hin : Reach .value w (w.atDepth (w.compiler.depth + 1)) := .single (.pass rfl rfl)
    exact (hin.trans h.reach).tail (.pass rfl rfl)
  depth := rfl
  generated := h.generated
  known := h.known
  lines := h.lines

end Writes

/-- The work stands before the words `more`, with the marks `after`; whether a parenthesis opens is of no
account there. -/
def Stands (w : Work) (after : Tail) (more : List Token) : Prop :=
  w.cursor.ahead = more ∧ { w.cursor.tail with opens := false } = after

/-! ## The lines of one call -/

section

variable {xs : List Operand} {v : Variable} {k : Command}

theorem filter_omitted (h : ∀ x ∈ xs, x.isOmitted = false) : xs.filter (!·.isOmitted) = xs :=
  List.filter_eq_self.mpr fun x hx => by rw [h x hx]; rfl

theorem filter_replicate_omitted (n : Nat) :
    (List.replicate n Operand.omitted).filter (!·.isOmitted) = [] := by
  rw [List.filter_replicate]
  rfl

/-- Arguments that were left out are not written, wherever the result stands. -/
theorem instr_pad (h : ∀ x ∈ xs, x.isOmitted = false) (hk : k.hasSlot) :
    k.instr ((Callee.command k).pad xs) (some v) =
      .perform k.primitive (xs.take k.slot ++ [.var v] ++ xs.drop k.slot) := by
  have htake : ∀ x ∈ xs.take k.slot, x.isOmitted = false := fun x hx => h x (List.mem_of_mem_take hx)
  have hdrop : ∀ x ∈ xs.drop k.slot, x.isOmitted = false := fun x hx => h x (List.mem_of_mem_drop hx)
  simp only [Command.instr, Command.spliced, hk, if_true, Callee.pad, List.take_append,
    List.drop_append, List.filter_append, List.take_replicate, List.drop_replicate,
    filter_replicate_omitted, filter_omitted htake, filter_omitted hdrop, List.append_nil]
  rfl

theorem instr_pad_of_not_hasSlot (h : ∀ x ∈ xs, x.isOmitted = false) (hk : k.hasSlot = false) :
    k.instr ((Callee.command k).pad xs) (some v) = .perform k.primitive xs := by
  simp only [Command.instr, Command.spliced, hk, Callee.pad, List.filter_append,
    filter_replicate_omitted, filter_omitted h, List.append_nil, Bool.false_eq_true, if_false]

end

/-- Instructions have been written, and nothing else has changed but what is declared. -/
structure Adds (w : Work) (is : List Instr) (w' : Work) : Prop where
  cursor : w'.cursor = w.cursor
  depth : w'.compiler.depth = w.compiler.depth
  callees : w'.declarations.callees = w.declarations.callees
  generated : w'.declarations.generated = w.declarations.generated
  actions : actions w'.lines = actions w.lines ++ is

theorem Adds.trans {is js : List Instr} {w'' : Work} (h : Adds w is w') (h' : Adds w' js w'') :
    Adds w (is ++ js) w'' where
  cursor := h'.cursor.trans h.cursor
  depth := h'.depth.trans h.depth
  callees := h'.callees.trans h.callees
  generated := h'.generated.trans h.generated
  actions := by rw [h'.actions, h.actions, List.append_assoc]

/-- One more call behind those that are written. -/
theorem Writes.add {calls : List Call} {n : Nat} {w'' : Work} {k : Call} {c : Callee}
    (h : Writes w calls n w') (hr : Reach .value w w'')
    (hc : w'.declarations.callee? k.callee.name = some c)
    (ha : Adds w' (c.block k.args k.result) w'') : Writes w (calls ++ [k]) n w'' := by
  have hcallee : ∀ name, w''.declarations.callee? name = w'.declarations.callee? name := by
    intro name
    rw [Declarations.callee?, ha.callees]
    rfl
  have hblock : w''.declarations.block = w'.declarations.block := by
    funext j
    rw [Declarations.block, Declarations.block, hcallee]
  refine ⟨hr, ha.depth.trans h.depth, ha.generated.trans h.generated, fun j hj => ?_, ?_⟩
  · rw [hcallee]
    rcases List.mem_append.mp hj with hj | hj
    · exact h.known j hj
    · rw [List.mem_singleton.mp hj]
      exact ⟨c, hc⟩
  · have hk : w'.declarations.block k = c.block k.args k.result := by rw [Declarations.block, hc]; rfl
    rw [ha.actions, h.lines, hblock, List.flatMap_append, List.append_assoc, List.flatMap_singleton, hk]

theorem adds_write (w : Work) (ls : List Line) : Adds w (actions ls) (w.write ls) :=
  ⟨rfl, rfl, rfl, rfl, actions_append w.lines ls⟩

theorem adds_ensureRegister (hs : w.compiler.Sound) :
    ∃ w', exec ensureRegister w = (.ok (), w') ∧ Adds w [] w' := by
  cases h : w.compiler.register with
  | some v => exact ⟨w, exec_ensureRegister h, rfl, rfl, rfl, rfl, (List.append_nil _).symm⟩
  | none =>
    refine ⟨_, exec_ensureRegister_of_none h (hs.register_none h), rfl, rfl, rfl, rfl, ?_⟩
    exact actions_append w.lines [⟨0, .declare Names.returnRegister⟩]

theorem actions_labelCall (label : String) (args : List Operand) (v : Variable) :
    actions (Callee.labelCall label args (some v)) =
      args.map .push ++ [.call label, .copy v (.var Names.returnRegister)] := by
  have hpush : actions (args.map fun x => ⟨0, .push x⟩) = args.map .push := by
    rw [actions, List.map_map]
    exact List.filter_eq_self.mpr fun i hi => by
      obtain ⟨x, -, rfl⟩ := List.mem_map.mp hi
      rfl
  rw [Callee.labelCall, actions_append, actions_append, hpush, List.append_assoc]
  rfl

/-- A call to a function of the script, declared or not. -/
theorem adds_labelCall {c : Callee} {label : String} {xs : List Operand} (v : Variable)
    (hs : w.compiler.Sound) (hr : c.returnsByRegister) (hc : c.convention = .optional)
    (hl : ∀ n, c.lines xs (some v) n = .ok (Callee.labelCall label xs (some v), n)) :
    ∃ w', exec (emitCall c xs (some v)) w = (.ok (), w') ∧
      Adds w (xs.map .push ++ [.call label, .copy v (.var Names.returnRegister)]) w' := by
  obtain ⟨w₁, he, h₁⟩ := adds_ensureRegister hs
  refine ⟨w₁.write (Callee.labelCall label xs (some v)), ?_, ?_⟩
  · unfold emitCall
    rw [hc, hr]
    show exec (ensureRegister >>= fun _ => emitLines c xs (some v)) w = _
    rw [exec_bind_ok he]
    unfold emitLines
    rw [exec_bind_ok (exec_declarations w₁), hl]
    rfl
  · rw [← actions_labelCall]
    exact h₁.trans (adds_write w₁ _)

theorem adds_command {k : Command} {xs : List Operand} (v : Variable)
    (hv : k.convention ≠ .void) (hx : ∀ x ∈ xs, x.isOmitted = false) :
    ∃ w', exec (emitCall (.command k) ((Callee.command k).pad xs) (some v)) w = (.ok (), w') ∧
      Adds w ((Callee.command k).block xs v) w' := by
  have hconv : (Callee.command k).convention = k.convention := rfl
  unfold emitCall
  rw [hconv]
  cases hk : k.convention with
  | void => exact absurd hk hv
  | optional | required =>
    have hblock : (Callee.command k).block xs v =
        actions [⟨0, k.instr ((Callee.command k).pad xs) (some v)⟩] := by
      rw [instr_pad hx (by simp [Command.hasSlot, hk])]
      exact if_neg (by simp [hk])
    rw [hblock]
    exact ⟨_, rfl, adds_write w _⟩
  | errorFlag =>
    have hblock : (Callee.command k).block xs v =
        actions [⟨0, .copy v (.ofInt 1)⟩, ⟨0, .clearErrors⟩] ++
          actions [⟨0, k.instr ((Callee.command k).pad xs) (some v)⟩] ++
          actions [⟨0, .copyUnlessErrors v (.ofInt 0)⟩] := by
      rw [instr_pad_of_not_hasSlot hx (by simp [Command.hasSlot, hk])]
      exact if_pos hk
    rw [hblock]
    exact ⟨_, rfl, ((adds_write w _).trans (adds_write _ _)).trans (adds_write _ _)⟩

/-- The lines of a call are those of its block, and what has to be declared for them. -/
theorem adds_emitCall {c : Callee} {xs : List Operand} (v : Variable) (hs : w.compiler.Sound)
    (hm : c ≠ .messageBox) (hv : c.convention ≠ .void) (hn : c.checkCount xs.length = .ok ())
    (hx : ∀ x ∈ xs, x.isOmitted = false) :
    ∃ w', exec (emitCall c (c.pad xs) (some v)) w = (.ok (), w') ∧ Adds w (c.block xs v) w' := by
  cases c with
  | messageBox => exact absurd rfl hm
  | function f =>
    rw [pad_function (checkCount_function hn)]
    exact adds_labelCall v hs rfl rfl fun n => rfl
  | placeholder q =>
    rw [pad_placeholder]
    exact adds_labelCall v hs rfl rfl fun n => rfl
  | command k => exact adds_command v hv hx

/-! ## Trees -/

/-- The marks end an expression: no further item is called for, or a parenthesis is closed first. -/
def Stops (after : Tail) : Prop :=
  after.opens = false ∧ (after.joins && !after.isClosing) = false

theorem stops_closing {after : Tail} (h : after.opens = false) : Stops after.closing := by
  have hc : after.closing.isClosing = true := by simp [Tail.isClosing, Tail.closing]
  refine ⟨h, ?_⟩
  rw [hc]
  exact Bool.and_false _

/-- There is room for some levels of nesting, with `m` to bound the recursion. -/
structure Room (env : Env) (w : Work) (m levels : Nat) : Prop where
  sound : w.compiler.Sound
  scope : w.compiler.scope = env.scope
  bound : levels ≤ m
  nesting : w.compiler.depth + levels ≤ maxNesting

namespace Room

variable {env : Env} {m levels less : Nat} {calls : List Call} {n : Nat}

theorem mono (h : Room env w m levels) (hl : less ≤ levels) : Room env w m less :=
  ⟨h.sound, h.scope, Nat.le_trans hl h.bound, Nat.le_trans (Nat.add_le_add_left hl _) h.nesting⟩

theorem after (h : Room env w m levels) (hw : Writes w calls n w') : Room env w' m levels := by
  refine ⟨Reach.sound hw.reach h.sound, ?_, h.bound, hw.depth ▸ h.nesting⟩
  rw [Compiler.scope, Reach.current hw.reach]
  exact h.scope

theorem bound_succ (h : Room env w m (levels + 1)) : ∃ j, m = j + 1 :=
  Nat.exists_eq_add_one.mpr (Nat.zero_lt_of_lt h.bound)

theorem deeper (h : Room env w (m + 1) (levels + 1)) :
    w.compiler.depth < maxNesting ∧ Room env (w.atDepth (w.compiler.depth + 1)) m levels := by
  have hin : Reach .value w (w.atDepth (w.compiler.depth + 1)) := .single (.pass rfl rfl)
  have hn := h.nesting
  refine ⟨by omega, hin.sound h.sound, h.scope, Nat.le_of_succ_le_succ h.bound, ?_⟩
  show w.compiler.depth + 1 + levels ≤ maxNesting
  omega

end Room

/-- An item is compiled to its operand, its calls are written, and its marks are left. -/
def ItemCompiles (env : Env) (i : Item) : Prop :=
  ∀ {m : Nat} {w : Work} {after : Tail} {more : List Token}, Room env w m i.depth →
    i.Fits env w.declarations w.compiler.current → after.opens = false →
    w.cursor = ⟨i.tail after, i.rest after ++ more⟩ →
    ∃ w', exec (if (i.tail after).opens then heldCall (arguments m) i.first else resolve i.first) w =
        (.ok (i.operand env w.declarations.generated), w') ∧
      Writes w (i.calls env w.declarations.generated) i.count w' ∧ Stands w' after more

/-- The arguments of a call are compiled up to the parenthesis that ends them. -/
def ArgsCompile (env : Env) (args : Args) : Prop :=
  ∀ {m n : Nat} {w : Work} {after : Tail} {more : List Token}, Room env w m args.depth →
    args.Fits env w.declarations w.compiler.current → args.isNone = false → Stops after →
    after.isClosing → w.cursor.ahead = args.tokens after ++ more → args.length ≤ n →
    ∃ w', exec (argumentList (expression m) n) w =
        (.ok (args.operands env w.declarations.generated), w') ∧
      Writes w (args.calls env w.declarations.generated) args.count w' ∧ Stands w' after more

/-- An expression is compiled as an argument. -/
def ExprCompiles (env : Env) (e : Expr) : Prop :=
  ∀ {m : Nat} {w : Work} {after : Tail} {more : List Token}, Room env w m e.depth →
    e.Fits env w.declarations w.compiler.current → Stops after →
    w.cursor = ⟨e.tail after, e.rest after ++ more⟩ →
    ∃ w', exec (if (e.tail after).opens || ((e.tail after).joins && !(e.tail after).isClosing) then
          expression m e.first else resolve e.first) w =
        (.ok (e.operand env w.declarations.generated), w') ∧
      Writes w (e.calls env w.declarations.generated) e.count w' ∧ Stands w' after more

/-- An expression is added to the operand on its left. -/
def ExprChains (env : Env) (e : Expr) : Prop :=
  ∀ {m n : Nat} {w : Work} {after : Tail} {more : List Token} (left : Operand),
    Room env w m e.inner → e.Fits env w.declarations w.compiler.current → Stops after →
    Stands w .joining (e.tokens after ++ more) → e.length ≤ n →
    ∃ w', exec (chain (heldCall (arguments m)) n left) w =
        (.ok (left.join (e.operand env w.declarations.generated)), w') ∧
      Writes w (e.calls env w.declarations.generated) e.count w' ∧ Stands w' after more

variable {env : Env}

theorem exec_resolve {x : Word} (h : (Item.word x).Fits env w.declarations w.compiler.current)
    (n : Nat) : exec (resolve x) w = (.ok ((Item.word x).operand env n), w) := by
  rw [Item.Fits] at h
  unfold resolve
  rw [Item.operand]
  split
  · next hx =>
    have hl : exec (lookup x.name) w = (.ok (env.look x.name), w) := by
      unfold lookup
      rw [exec_bind_ok (exec_declarations w), exec_bind_ok (exec_current w), exec_ofExcept,
        Declarations.find, h hx]
    rw [exec_bind_ok hl]
    rfl
  · rfl

theorem word_compiles (x : Word) : ItemCompiles env (.word x) := by
  intro m w after more _ hfit ha hc
  refine ⟨w, ?_, ?_, ?_⟩
  · rw [show (Item.word x).tail after = after from rfl, ha]
    exact exec_resolve hfit _
  · rw [Item.calls, Item.count]
    exact .refl w
  · rw [Stands, hc]
    refine ⟨rfl, ?_⟩
    show { after with opens := false } = after
    rw [← ha]

/-- The parenthesis of a call is taken off the marks, and nothing is written. -/
theorem exec_closeArguments {c : Callee} {xs : List Operand} (ht : w.cursor.tail.isClosing)
    (hn : c.checkCount xs.length = .ok ())
    (hq : ∀ q, c = .placeholder q →
      ∃ q', w.declarations.callee? q.name = some (.placeholder q')) :
    ∃ w', exec (closeArguments c xs) w = (.ok (c.pad xs), w') ∧ Writes w [] 0 w' ∧
      w'.cursor = w.cursor.closeOne := by
  have hclose : Reach .value w { w with cursor := w.cursor.closeOne } := .single (.pass rfl rfl)
  unfold closeArguments
  rw [exec_bind_ok (exec_tail w), ht, hn]
  cases c with
  | placeholder q =>
    obtain ⟨q', hq'⟩ := hq q rfl
    refine ⟨_, rfl, .quiet (hclose.tail (.record (by decide) hq')) rfl ?_ rfl, rfl⟩
    exact Declarations.generated_recordCall
  | command | function | messageBox => exact ⟨_, rfl, .quiet hclose rfl rfl rfl, rfl⟩

/-- What a permitted call finds: a callee that gives a result and takes the arguments. -/
theorem exec_introduce_permitted {f : Word} {n : Nat} (h : w.declarations.Permits f.name n) :
    ∃ c w', exec (introduce f) w = (.ok c, w') ∧ Writes w [] 0 w' ∧ w'.cursor = w.cursor ∧
      w'.declarations.callee? f.name = some c ∧ c ≠ .messageBox ∧ c.convention ≠ .void ∧
      c.checkCount n = .ok () := by
  rw [Declarations.Permits] at h
  cases hc : w.declarations.callee? f.name with
  | none =>
    refine ⟨_, _, exec_introduce_of_none hc, ?_, rfl, ?_, ?_, ?_, ?_⟩
    · exact .quiet (.single (.introduce (by decide) hc)) rfl rfl rfl
    · exact Declarations.callee?_putCallee.trans (if_pos rfl)
    · exact Callee.noConfusion
    · exact Convention.noConfusion
    · rfl
  | some c =>
    rw [hc] at h
    refine ⟨c, w, exec_introduce hc, .refl w, rfl, hc, ?_⟩
    cases c with
    | placeholder q => exact ⟨Callee.noConfusion, Convention.noConfusion, rfl⟩
    | messageBox => exact absurd h id
    | function g =>
      refine ⟨Callee.noConfusion, Convention.noConfusion, ?_⟩
      have hn : g.params.length = n := h
      simp [Callee.checkCount, Callee.most, Callee.least, hn]
    | command k =>
      obtain ⟨hv, hl, hm⟩ := h
      refine ⟨Callee.noConfusion, hv, ?_⟩
      simp [Callee.checkCount, Callee.most, Callee.least, Nat.not_lt.mpr hl, Nat.not_lt.mpr hm]

theorem length_operands (args : Args) (n : Nat) : (args.operands env n).length = args.length := by
  fun_induction Args.operands env args n with
  | case1 => rfl
  | case2 e more n ih => rw [List.length_cons, ih, Args.length]

/-- Taking the parenthesis off leaves the marks that stood behind it. -/
theorem closeOne_closing (t after : Tail) (h : { t with opens := false } = after.closing) :
    t.isClosing ∧ { t.closeOne with opens := false } = after := by
  have hc : t.closes = after.closes + 1 := congrArg Tail.closes h
  have he : { t.closeOne with opens := false } = Tail.closeOne after.closing := by
    rw [← h]
    rfl
  refine ⟨by simp [Tail.isClosing, hc], he.trans ?_⟩
  simp [Tail.closeOne, Tail.closing]

theorem args_collected {args : Args} (hargs : ArgsCompile env args) {c : Callee} {v : Variable}
    {m : Nat} {name : String} {after : Tail} {more : List Token} (hroom : Room env w m args.depth)
    (hfit : args.Fits env w.declarations w.compiler.current) (ha : after.opens = false)
    (hcur : w.cursor = ⟨.calling args after, args.tokens after.closing ++ more⟩)
    (hv : c.convention ≠ .void) (hn : c.checkCount args.length = .ok ())
    (hc : w.declarations.callee? name = some c) :
    ∃ w', exec (arguments (m + 1) c (some v)) w =
        (.ok (c.pad (args.operands env w.declarations.generated)), w') ∧
      Writes w (args.calls env w.declarations.generated) args.count w' ∧ Stands w' after more := by
  have hstart : exec (arguments (m + 1) c (some v)) w =
      exec (if w.cursor.tail.isClosing then pure [] >>= closeArguments c
        else wordsAhead >>= fun n => argumentList (expression m) n >>= closeArguments c) w := by
    rw [show arguments (m + 1) c (some v) = argumentsWith (expression m) c (some v) from rfl,
      argumentsWith_eq]
    simp only [hv, decide_false, Bool.false_and, Bool.false_eq_true, if_false]
    rfl
  obtain ⟨w₁, he, hw, hstand⟩ : ∃ w₁, exec (arguments (m + 1) c (some v)) w =
      exec (closeArguments c (args.operands env w.declarations.generated)) w₁ ∧
      Writes w (args.calls env w.declarations.generated) args.count w₁ ∧
      Stands w₁ after.closing more := by
    cases args with
    | none =>
      have hclosing : w.cursor.tail.isClosing := by
        rw [hcur]
        simp [Tail.calling, Args.isNone, Tail.isClosing]
      refine ⟨w, ?_, ?_, ?_⟩
      · rw [hstart, if_pos hclosing]
        rfl
      · rw [Args.calls, Args.count]
        exact .refl w
      · rw [Stands, hcur]
        simp [Tail.calling, Args.isNone, Tail.closing, ha, Args.tokens]
    | cons e rest =>
      have hopen : ¬w.cursor.tail.isClosing := by
        rw [hcur]
        simp [Tail.calling, Args.isNone, Tail.isClosing]
      have hlen : (Args.cons e rest).length ≤ w.cursor.ahead.length := by
        rw [hcur, List.length_append]
        exact Nat.le_trans (Args.length_le_tokens _ _) (Nat.le_add_right _ _)
      obtain ⟨w₁, he, hw, hstand⟩ := hargs hroom hfit rfl (stops_closing ha)
        (by simp [Tail.isClosing, Tail.closing]) (by rw [hcur]) hlen
      refine ⟨w₁, ?_, hw, hstand⟩
      rw [hstart, if_neg hopen,
        exec_bind_ok (exec_wordsAhead w),
        exec_bind_ok he]
  obtain ⟨hclosing, htail⟩ := closeOne_closing _ _ hstand.2
  obtain ⟨w₂, he₂, hw₂, hcur₂⟩ := exec_closeArguments hclosing
    (show c.checkCount (args.operands env w.declarations.generated).length = _ by
      rw [length_operands]
      exact hn) (fun q hq => by
      subst hq
      obtain ⟨calls, hcalls⟩ := Reach.placeholder hw.reach hc
      rw [(hroom.sound.placeholder hc).1]
      exact ⟨_, hcalls⟩)
  refine ⟨w₂, he.trans he₂, hw.trans_nil hw₂, ?_⟩
  rw [Stands, hcur₂]
  exact ⟨hstand.1, htail⟩

theorem isOmitted_operand (e : Expr) (n : Nat) : (e.operand env n).isOmitted = false := by
  cases e with
  | join i e => rfl
  | single i =>
    cases i with
    | call f args => rfl
    | word x =>
      show (if x.isName then Operand.var (env.look x.name) else Operand.ofWord x).isOmitted = false
      split <;> rfl

theorem isOmitted_operands (args : Args) (n : Nat) :
    ∀ x ∈ args.operands env n, x.isOmitted = false := by
  fun_induction Args.operands env args n with
  | case1 => exact fun x hx => absurd hx List.not_mem_nil
  | case2 e more n ih =>
    intro x hx
    rcases List.mem_cons.mp hx with rfl | hx
    · exact isOmitted_operand e n
    · exact ih x hx

/-- A call is written behind the calls of its arguments, whatever its result is given to. -/
theorem call_written {f : Word} {args : Args} (hargs : ArgsCompile env args) {v : Variable} {m : Nat}
    {after : Tail} {more : List Token} (hroom : Room env w (m + 1) (args.depth + 1))
    (hfit : (Item.call f args).Fits env w.declarations w.compiler.current) (ha : after.opens = false)
    (hcur : w.cursor = ⟨.calling args after, args.tokens after.closing ++ more⟩) (hv : w.Sees v) :
    ∃ w', exec (callWith (arguments (m + 1)) f (some v)) w = (.ok (), w') ∧
      Writes w (args.calls env w.declarations.generated ++
        [⟨f, args.operands env w.declarations.generated, v⟩]) args.count w' ∧
      Stands w' after more := by
  rw [Item.Fits] at hfit
  obtain ⟨c, w₁, he₁, hw₁, hcur₁, hc₁, hm, hconv, hcount⟩ := exec_introduce_permitted hfit.1
  obtain ⟨notes, he₂⟩ := exec_noteCall (w := w₁) f c (some v)
  have hg : w₁.declarations.generated = w.declarations.generated := hw₁.generated
  have hw₂ : Writes w [] 0 { w₁ with notes := notes } :=
    .quiet (hw₁.reach.tail (.pass rfl rfl)) hw₁.depth hg (hw₁.lines.trans (List.append_nil _))
  obtain ⟨hlt, hroom₃⟩ := (hroom.after hw₂).deeper
  have hfit₂ := fits_args hw₂.reach hroom.sound args hfit.2
  obtain ⟨w₃, he₃, hw₃, hstand₃⟩ := args_collected (v := v) hargs hroom₃ hfit₂ ha
    (hcur₁.trans hcur) hconv hcount hc₁
  have he₄ := exec_nested_ok hlt he₃ hw₃.depth
  have hw₄ := hw₂.nil_trans hw₃.nested
  change Writes w (args.calls env w₁.declarations.generated) args.count _ at hw₄
  change exec (nested (arguments (m + 1) c (some v))) _ =
    (.ok (c.pad (args.operands env w₁.declarations.generated)), _) at he₄
  rw [hg] at hw₄ he₄
  obtain ⟨w₅, he₅, hadds⟩ := adds_emitCall v (Reach.sound hw₄.reach hroom.sound) hm hconv
    (show c.checkCount (args.operands env w.declarations.generated).length = _ by
      rw [length_operands]
      exact hcount)
    (isOmitted_operands args _)
  have he : exec (callWith (arguments (m + 1)) f (some v)) w = (.ok (), w₅) := by
    unfold callWith
    rw [exec_bind_ok he₁, exec_bind_ok he₂, exec_bind_ok he₄, he₅]
  have hreach := (does_callWith (compiles_and_collects (m + 1)).2 f hroom.sound
    fun u (hu : some v = some u) => by cases hu; exact hv).reach
  rw [he] at hreach
  refine ⟨w₅, he, ?_, ?_⟩
  · obtain ⟨c', hc', hb⟩ := Reach.block hw₃.reach hc₁
    refine hw₄.add hreach hc' ?_
    rw [hb]
    exact hadds
  · rw [Stands, hadds.cursor]
    exact hstand₃

/-- A call whose result is held begins by declaring the variable for it. -/
theorem exec_hold {α : Type} (env : Env) (f : Word) (act : Variable → Compile α) (hs : w.compiler.Sound)
    (hscope : w.compiler.scope = env.scope) :
    ∃ w', exec (do
        let v ← declareTemporary
        note (.holdsResult f.text v.target)
        act v) w = exec (act (env.temp (w.declarations.generated + 1))) w' ∧
      Writes w [] 1 w' ∧ w'.cursor = w.cursor ∧
      w'.Sees (env.temp (w.declarations.generated + 1)) := by
  have htemp : w.temporary = env.temp (w.declarations.generated + 1) := by
    rw [Env.temp, ← hscope]
    rfl
  have hd := does_declareTemporary hs
  have he := exec_declareTemporary hs
  rw [htemp] at he
  have hreach := hd.reach
  obtain ⟨hsees, -⟩ := hd.returns _ (congrArg Prod.fst he)
  rw [he] at hreach hsees
  refine ⟨_, exec_bind_ok he, ?_, rfl, hsees⟩
  refine .quiet (hreach.tail (.pass rfl rfl)) rfl rfl ?_
  show actions (w.lines ++ [⟨0, .declare _⟩]) = actions w.lines
  rw [actions_append]
  exact List.append_nil _

theorem opens_calling (args : Args) (after : Tail) : (Tail.calling args after).opens = true := by
  cases args <;> rfl

theorem call_compiles (f : Word) {args : Args} (hargs : ArgsCompile env args) :
    ItemCompiles env (.call f args) := by
  intro m w after more hroom hfit ha hcur
  rw [Item.depth] at hroom
  obtain ⟨m, rfl⟩ := hroom.bound_succ
  obtain ⟨w₁, he₁, hw₁, hcur₁, hsees⟩ := exec_hold env f
    (fun v => callWith (arguments (m + 1)) f (some v) >>= fun _ => pure (Operand.var v))
    hroom.sound hroom.scope
  obtain ⟨w₂, he₂, hw₂, hstand⟩ := call_written hargs (hroom.after hw₁)
    (fits_item hw₁.reach hroom.sound _ hfit) ha (hcur₁.trans hcur) hsees
  refine ⟨w₂, ?_, ?_, hstand⟩
  · rw [show (Item.call f args).tail after = .calling args after from rfl, opens_calling, if_pos rfl]
    exact he₁.trans (exec_bind_ok he₂)
  · rw [hw₁.generated] at hw₂
    rw [Item.calls, Item.count, Nat.add_comm args.count]
    exact hw₁.trans hw₂

/-! ### Chains -/

theorem exec_ite_bind {α β : Type} (b : Prop) [Decidable b] (act act' : Compile α)
    (k : α → Compile β) (w : Work) :
    exec (if b then act >>= k else act' >>= k) w = exec ((if b then act else act') >>= k) w := by
  split <;> rfl

theorem continues_of_stands {after : Tail} {more : List Token} (h : Stands w after more) :
    continues w.cursor.tail = continues after := by
  rw [← h.2]
  rfl

theorem exec_chain_of_stops (call : Word → Compile Operand) (n : Nat) (left : Operand) {after : Tail}
    {more : List Token} (hs : Stops after) (h : Stands w after more) :
    exec (chain call n left) w = (.ok left, w) := by
  have hc : continues w.cursor.tail = false := by
    rw [continues_of_stands h, continues, hs.2]
    rfl
  unfold chain
  rw [exec_bind_ok (exec_tail w), hc]
  rfl

/-- One item is added to the operand on its left. -/
theorem exec_chain_item {i : Item} (hi : ItemCompiles env i) {m n : Nat} {after : Tail}
    {more : List Token} (left : Operand) (hroom : Room env w m i.depth)
    (hfit : i.Fits env w.declarations w.compiler.current) (ha : after.opens = false)
    (hstand : Stands w .joining (i.tokens after ++ more)) :
    ∃ w', exec (chain (heldCall (arguments m)) (n + 1) left) w =
        exec (chain (heldCall (arguments m)) n
          (left.join (i.operand env w.declarations.generated))) w' ∧
      Writes w (i.calls env w.declarations.generated) i.count w' ∧ Stands w' after more := by
  have hahead : w.cursor.ahead = ⟨i.first, i.tail after⟩ :: (i.rest after ++ more) := by
    rw [hstand.1, i.tokens_eq]
    rfl
  have hpass : Writes w [] 0 { w with cursor := ⟨i.tail after, i.rest after ++ more⟩ } :=
    .quiet (.single (.pass rfl rfl)) rfl rfl rfl
  have hc : continues w.cursor.tail = true := continues_of_stands hstand
  obtain ⟨w₁, he, hw, hstand₁⟩ := hi (hroom.after hpass) (fits_item hpass.reach hroom.sound i hfit) ha rfl
  refine ⟨w₁, ?_, hpass.nil_trans hw, hstand₁⟩
  rw [chain, exec_bind_ok (exec_tail w), hc]
  show exec (nextWord >>= _) w = _
  rw [exec_bind_ok (exec_nextWord_cons hahead)]
  refine (exec_bind_ok (exec_tail_of_cursor rfl)).trans ?_
  exact (exec_ite_bind _ _ _ _ _).trans (exec_bind_ok he)

theorem single_chains {i : Item} (hi : ItemCompiles env i) : ExprChains env (.single i) := by
  intro m n w after more left hroom hfit hstops hstand hn
  obtain ⟨n, rfl⟩ := Nat.exists_eq_add_one.mpr hn
  rw [Expr.Fits] at hfit
  rw [Expr.tokens] at hstand
  rw [Expr.inner] at hroom
  obtain ⟨w₁, he, hw, hstand₁⟩ := exec_chain_item (n := n) hi left hroom hfit hstops.1 hstand
  refine ⟨w₁, he.trans (exec_chain_of_stops _ _ _ hstops hstand₁), ?_, hstand₁⟩
  rw [Expr.calls, Expr.count]
  exact hw

theorem join_assoc (x y z : Operand) : (x.join y).join z = x.join (y.join z) :=
  congrArg Operand.joined (List.append_assoc _ _ _)

theorem join_chains {i : Item} {e : Expr} (hi : ItemCompiles env i) (he : ExprChains env e) :
    ExprChains env (.join i e) := by
  intro m n w after more left hroom hfit hstops hstand hn
  obtain ⟨n, rfl⟩ := Nat.exists_eq_add_one.mpr (Nat.zero_lt_of_lt hn)
  rw [Expr.Fits] at hfit
  rw [Expr.tokens, List.append_assoc] at hstand
  rw [Expr.inner] at hroom
  obtain ⟨w₁, he₁, hw₁, hstand₁⟩ := exec_chain_item (n := n) hi left
    (hroom.mono (Nat.le_max_left _ _)) hfit.1 rfl hstand
  obtain ⟨w₂, he₂, hw₂, hstand₂⟩ := he (left.join (i.operand env w.declarations.generated))
    ((hroom.after hw₁).mono (Nat.le_max_right _ _)) (fits_expr hw₁.reach hroom.sound e hfit.2) hstops
    hstand₁ (Nat.le_of_succ_le_succ hn)
  rw [hw₁.generated] at he₂ hw₂
  refine ⟨w₂, ?_, ?_, hstand₂⟩
  · rw [he₁, he₂, join_assoc]
    rfl
  · rw [Expr.calls, Expr.count]
    exact hw₁.trans hw₂

/-! ### Expressions and arguments -/

/-- An expression of more than a word goes one level deeper, compiles its first item and adds the
others to it. -/
theorem exec_expression {i : Item} (hi : ItemCompiles env i) {m levels : Nat} {after : Tail}
    {more : List Token} (hroom : Room env w (m + 1) (levels + 1)) (hl : i.depth ≤ levels)
    (hfit : i.Fits env w.declarations w.compiler.current) (ha : after.opens = false)
    (ht : (i.tail after).opens || (i.tail after).joins)
    (hcur : w.cursor = ⟨i.tail after, i.rest after ++ more⟩) :
    ∃ w₁, Writes (w.atDepth (w.compiler.depth + 1)) (i.calls env w.declarations.generated) i.count w₁ ∧
      Stands w₁ after more ∧
      ∀ x w₂, exec (concatenation (heldCall (arguments m))
          (i.operand env w.declarations.generated)) w₁ = (.ok x, w₂) →
        w₂.compiler.depth = w₁.compiler.depth →
        exec (expression (m + 1) i.first) w = (.ok x, w₂.atDepth w.compiler.depth) := by
  obtain ⟨hlt, hroom₁⟩ := hroom.deeper
  obtain ⟨w₁, he, hw, hstand⟩ := hi (hroom₁.mono hl) hfit ha hcur
  refine ⟨w₁, hw, hstand, fun x w₂ hx hd => exec_nested_ok hlt ?_ (hd.trans hw.depth)⟩
  rw [exec_bind_ok (exec_tail_of_cursor (w := w.atDepth (w.compiler.depth + 1)) hcur)]
  split at he
  · next ho =>
    rw [if_pos ho, exec_bind_ok he]
    exact hx
  · next ho =>
    have hj : (i.tail after).joins = true := by simpa [ho] using ht
    rw [if_neg ho, if_pos hj, exec_bind_ok he]
    exact hx

theorem word_argument (x : Word) : ExprCompiles env (.single (.word x)) := by
  intro m w after more hroom hfit hstops hcur
  rw [Expr.Fits] at hfit
  obtain ⟨w', he, hw, hstand⟩ := word_compiles x hroom hfit hstops.1 hcur
  refine ⟨w', ?_, ?_, hstand⟩
  · rw [show (Item.word x).tail after = after from rfl, hstops.1] at he
    rw [show (Expr.single (.word x)).tail after = after from rfl, hstops.1, hstops.2]
    exact he
  · rw [Expr.calls, Expr.count]
    exact hw

theorem call_argument {f : Word} {args : Args} (hi : ItemCompiles env (.call f args)) :
    ExprCompiles env (.single (.call f args)) := by
  intro m w after more hroom hfit hstops hcur
  rw [Expr.Fits] at hfit
  rw [Expr.depth] at hroom
  obtain ⟨m, rfl⟩ := hroom.bound_succ
  have ho : ((Item.call f args).tail after).opens = true := opens_calling args after
  obtain ⟨w₁, hw, hstand, hexpr⟩ := exec_expression hi hroom (Nat.le_refl _) hfit hstops.1
    (by rw [ho]; rfl) hcur
  refine ⟨w₁.atDepth w.compiler.depth, ?_, ?_, hstand⟩
  · rw [show (Expr.single (.call f args)).tail after = (Item.call f args).tail after from rfl, ho]
    exact hexpr _ _ (exec_chain_of_stops _ _ _ hstops hstand) rfl
  · rw [Expr.calls, Expr.count]
    exact hw.nested

theorem opens_or_joins (i : Item) : ((i.tail .joining).opens ||
    ((i.tail .joining).joins && !(i.tail .joining).isClosing)) = true := by
  cases i with
  | word x => rfl
  | call f args => rw [Item.tail, opens_calling]; rfl

theorem join_argument {i : Item} {e : Expr} (hi : ItemCompiles env i) (he : ExprChains env e) :
    ExprCompiles env (.join i e) := by
  intro m w after more hroom hfit hstops hcur
  rw [Expr.Fits] at hfit
  rw [Expr.depth] at hroom
  obtain ⟨m, rfl⟩ := hroom.bound_succ
  have ht := opens_or_joins i
  have hcur' : w.cursor = ⟨i.tail .joining, i.rest .joining ++ (e.tokens after ++ more)⟩ := by
    rw [hcur, Expr.rest, List.append_assoc]
    rfl
  obtain ⟨w₁, hw₁, hstand₁, hexpr⟩ := exec_expression hi hroom (Nat.le_max_left _ _) hfit.1 rfl
    (by cases h : (i.tail .joining).opens <;> simp_all) hcur'
  have hroom₁ := hroom.deeper.2.after hw₁
  have hlen : e.length ≤ w₁.cursor.ahead.length := by
    rw [hstand₁.1, List.length_append]
    exact Nat.le_trans (e.length_le_tokens after) (Nat.le_add_right _ _)
  obtain ⟨w₂, he₂, hw₂, hstand₂⟩ := he (i.operand env w.declarations.generated)
    (hroom₁.mono (Nat.le_max_right _ _)) (fits_expr hw₁.reach hroom.deeper.2.sound e hfit.2) hstops hstand₁
    hlen
  rw [hw₁.generated] at he₂ hw₂
  refine ⟨w₂.atDepth w.compiler.depth, ?_, ?_, hstand₂⟩
  · rw [show (Expr.join i e).tail after = i.tail .joining from rfl, ht, if_pos rfl]
    exact hexpr _ _ he₂ hw₂.depth
  · rw [Expr.calls, Expr.count]
    exact (hw₁.trans hw₂).nested

/-- One argument is read, and the marks behind it decide about more. -/
theorem exec_argumentList_expr {e : Expr} (he : ExprCompiles env e) {m n : Nat} {after : Tail}
    {more : List Token} (hroom : Room env w m e.depth)
    (hfit : e.Fits env w.declarations w.compiler.current) (hstops : Stops after)
    (hahead : w.cursor.ahead = e.tokens after ++ more) :
    ∃ w', exec (argumentList (expression m) (n + 1)) w =
        exec (if after.separates && !after.isClosing then
          argumentList (expression m) n >>= fun xs =>
            pure (e.operand env w.declarations.generated :: xs)
          else pure [e.operand env w.declarations.generated]) w' ∧
      Writes w (e.calls env w.declarations.generated) e.count w' ∧ Stands w' after more := by
  have hcons : w.cursor.ahead = ⟨e.first, e.tail after⟩ :: (e.rest after ++ more) := by
    rw [hahead, e.tokens_eq]
    rfl
  have hpass : Writes w [] 0 { w with cursor := ⟨e.tail after, e.rest after ++ more⟩ } :=
    .quiet (.single (.pass rfl rfl)) rfl rfl rfl
  obtain ⟨w₁, he₁, hw₁, hstand⟩ := he (hroom.after hpass) (fits_expr hpass.reach hroom.sound e hfit)
    hstops rfl
  refine ⟨w₁, ?_, hpass.nil_trans hw₁, hstand⟩
  rw [argumentList, exec_bind_ok (exec_nextWord_cons hcons)]
  refine (exec_bind_ok (exec_tail_of_cursor rfl)).trans ?_
  refine (exec_ite_bind _ _ _ _ _).trans ((exec_bind_ok he₁).trans ?_)
  refine (exec_bind_ok (exec_tail w₁)).trans ?_
  rw [← hstand.2]
  rfl

theorem none_compiles : ArgsCompile env .none := fun _ _ h => by cases h

theorem cons_compiles {e : Expr} {rest : Args} (he : ExprCompiles env e)
    (hrest : ArgsCompile env rest) : ArgsCompile env (.cons e rest) := by
  intro m n w after more hroom hfit _ hstops hclosing hahead hn
  obtain ⟨n, rfl⟩ := Nat.exists_eq_add_one.mpr (Nat.zero_lt_of_lt hn)
  rw [Args.Fits] at hfit
  rw [Args.depth] at hroom
  rw [Args.tokens, List.append_assoc] at hahead
  have hroom₁ := hroom.mono (Nat.le_max_left _ _)
  cases rest with
  | none =>
    obtain ⟨w₁, he₁, hw₁, hstand⟩ := exec_argumentList_expr (n := n) he hroom₁ hfit.1 hstops hahead
    refine ⟨w₁, ?_, ?_, ?_⟩
    · rw [he₁, hclosing, Bool.not_true, Bool.and_false]
      rfl
    · rw [Args.calls, Args.count, Args.calls, Args.count, List.append_nil]
      exact hw₁
    · rw [Args.tokens] at hstand
      exact hstand
  | cons e' rest =>
    obtain ⟨w₁, he₁, hw₁, hstand₁⟩ := exec_argumentList_expr (n := n) he hroom₁ hfit.1
      (show Stops .separating from ⟨rfl, rfl⟩) hahead
    obtain ⟨w₂, he₂, hw₂, hstand₂⟩ := hrest ((hroom.after hw₁).mono (Nat.le_max_right _ _))
      (fits_args hw₁.reach hroom.sound _ hfit.2) rfl hstops hclosing hstand₁.1 (Nat.le_of_succ_le_succ hn)
    rw [hw₁.generated] at he₂ hw₂
    refine ⟨w₂, ?_, ?_, hstand₂⟩
    · rw [he₁]
      exact exec_bind_ok he₂
    · rw [Args.calls, Args.count]
      exact hw₁.trans hw₂

mutual

theorem item_compiles : ∀ i : Item, ItemCompiles env i
  | .word x => word_compiles x
  | .call f args => call_compiles f (args_compile args)

theorem args_compile : ∀ args : Args, ArgsCompile env args
  | .none => none_compiles
  | .cons e more => cons_compiles (expr_compiles e) (args_compile more)

theorem expr_compiles : ∀ e : Expr, ExprCompiles env e
  | .single (.word x) => word_argument x
  | .single (.call f args) => call_argument (item_compiles (.call f args))
  | .join i e => join_argument (item_compiles i) (expr_chains e)

theorem expr_chains : ∀ e : Expr, ExprChains env e
  | .single i => single_chains (item_compiles i)
  | .join i e => join_chains (item_compiles i) (expr_chains e)

end

end Compile

end InstallScript
