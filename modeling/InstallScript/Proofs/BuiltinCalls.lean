import InstallScript.Proofs.Assignments
import InstallScript.Proofs.Bounds
import InstallScript.Proofs.Execution
import InstallScript.Proofs.Growth
import InstallScript.Proofs.Reading

/-!
Calls to primitives of the target language. Such a call takes as many arguments as the catalogue says. It
is written as one instruction with these arguments in their order and the variable for the result in its
slot, wherever in the script it stands and whatever is left out at the end (`builtin_calls`).
-/

namespace InstallScript

/-! ## Instructions -/

namespace Command

/-- The variable that receives the result among the arguments. -/
def receiver (b : Command) (result : Option Variable) : Option Variable :=
  match b.convention with
  | .optional => result
  | .required => some (result.getD Names.discarded)
  | .void | .errorFlag => none

/-- The operands of a call with the given arguments. -/
def operands (b : Command) (args : List Operand) (result : Option Variable) : List Operand :=
  match b.receiver result with
  | some v => args.insertIdx b.slot (.var v)
  | none => args

/-- The line of a call. -/
def text (b : Command) (indent : String) (args : List Operand) (result : Option Variable) : String :=
  let name := match b.primitive with
    | .instruction n => n
    | .header n => "$\x7b" ++ n ++ "\x7d"
  indent ++ name ++ String.join ((b.operands args result).map fun x => " " ++ x.write)

/-- The lines ahead of the call: an error flag needs to be clear, and the variable for results that nobody
wants to be declared. -/
def ahead (b : Command) (c : Compiler) : Option Variable → List Line
  | some v => if b.convention = .errorFlag then [⟨0, .copy v (.ofInt 1)⟩, ⟨0, .clearErrors⟩] else []
  | none =>
    if b.convention = .required ∧ c.discarded = none then [⟨0, .declare Names.discarded⟩] else []

/-- The lines behind the call. -/
def behind (b : Command) : Option Variable → List Line
  | some v => if b.convention = .errorFlag then [⟨0, .copyUnlessErrors v (.ofInt 0)⟩] else []
  | none => []

/-- The last line is a call of the primitive that gives its result to `v`. -/
def CallsLast (b : Command) (v : Variable) (ls : List Line) : Prop :=
  ∃ before, ∃ xs : List Operand, b.slot ≤ xs.length ∧
    ls = before ++ [⟨0, .perform b.primitive (xs.take b.slot ++ [.var v] ++ xs.drop b.slot)⟩]

end Command

theorem Command.write_line (b : Command) (indent : String) (args : List Operand)
    (result : Option Variable) :
    Line.write indent ⟨0, .perform b.primitive (b.operands args result)⟩ = b.text indent args result := by
  show indent ++ "" ++ (b.primitive.write ++ _) = _
  rw [String.append_empty, ← String.append_assoc, Command.text]
  cases b.primitive <;> rfl

theorem insertIdx_eq_take_drop (xs : List Operand) (x : Operand) {i : Nat} (h : i ≤ xs.length) :
    xs.insertIdx i x = xs.take i ++ [x] ++ xs.drop i := by
  induction i generalizing xs with
  | zero => rfl
  | succ i ih =>
    cases xs with
    | nil => cases h
    | cons y xs =>
      rw [List.insertIdx_succ_cons, ih xs (Nat.le_of_succ_le_succ h)]
      rfl

theorem Catalogue.least_le_most : ∀ b ∈ Catalogue.commands, b.least ≤ b.most := by decide

namespace Compile

variable {w w' : Work} {b : Command} {args : List Operand}

/-! ## Arguments -/

/-- The parenthesis that ends the arguments is taken off the marks. -/
def endArguments (args : List Operand) : Compile (List Operand) := do
  if !(← tail).isClosing then fail .unterminatedCall
  closeOne
  return args

/-- The arguments of a call, up to the parenthesis that ends them. -/
def argumentValues : Compile (List Operand) := do
  let args ← if (← tail).isClosing then pure [] else argumentList value (← wordsAhead)
  endArguments args

theorem does_argumentValues (hs : w.compiler.Sound) : Does .value argumentValues w fun _ _ => True := by
  have hclose : ∀ args w', w'.compiler.Sound → Does .value (endArguments args) w' fun _ _ => True := by
    intro args w' hs'
    refine .read (a := w'.cursor.tail) rfl ?_
    dsimp only
    split
    · exact .fail_bind
    · exact .bind hs' does_closeOne fun _ _ _ _ _ => .pure trivial
  unfold argumentValues
  refine .read (a := w.cursor.tail) rfl ?_
  split
  · exact .read (a := []) rfl (hclose [] w hs)
  · refine .read (a := w.cursor.ahead.length) rfl ?_
    exact .bind hs (does_argumentList does_value _ hs) fun args w₁ hs₁ _ _ => hclose args w₁ hs₁

/-! No value is an argument that was left out. -/

theorem gives_resolve_given (word : Word) : Gives (resolve word) w fun x _ => x.isOmitted = false := by
  unfold resolve
  split
  · exact .whatever fun _ _ => .pure rfl
  · exact .pure rfl

theorem gives_chain_given (call : Word → Compile Operand) (n : Nat) {left : Operand}
    (h : left.isOmitted = false) : Gives (chain call n left) w fun x _ => x.isOmitted = false := by
  induction n generalizing w left with
  | zero =>
    refine .whatever fun t _ => ?_
    split
    · exact .pure h
    · exact .fail
  | succ n ih =>
    refine .whatever fun t _ => ?_
    split
    · exact .pure h
    refine .whatever fun word _ => .whatever fun t _ => ?_
    split <;> exact .whatever fun right _ => ih rfl

theorem gives_value_given (word : Word) : Gives (value word) w fun x _ => x.isOmitted = false := by
  refine .nested (.whatever fun t _ => ?_)
  have hchain : ∀ (call : Word → Compile Operand) {left : Operand} {w' : Work}, left.isOmitted = false →
      Gives (concatenation call left) w' fun x w'' => Nat → x.isOmitted = false :=
    fun call _ _ h => .whatever fun n _ => (gives_chain_given call n h).mono fun _ _ h _ => h
  split
  · refine .bind (P := fun v _ => v.isOmitted = false) ?_ fun v _ hv => hchain _ hv
    exact .whatever fun _ _ => .whatever fun _ _ => .whatever fun _ _ => .pure rfl
  split
  · exact .bind (gives_resolve_given word) fun v _ hv => hchain _ hv
  · exact (gives_resolve_given word).mono fun _ _ h _ => h

theorem gives_argumentList_given (n : Nat) :
    Gives (argumentList value n) w fun args _ => ∀ x ∈ args, x.isOmitted = false := by
  induction n generalizing w with
  | zero => exact .fail
  | succ n ih =>
    have hmore : ∀ (x : Operand) w', x.isOmitted = false → Gives (do
        let t ← tail
        if t.separates && !t.isClosing then return x :: (← argumentList value n) else return [x]) w'
        fun args _ => ∀ y ∈ args, y.isOmitted = false := by
      intro x w' hx
      refine .whatever fun t _ => ?_
      split
      · exact .bind ih fun xs _ hxs => .pure (List.forall_mem_cons.mpr ⟨hx, hxs⟩)
      · exact .pure (List.forall_mem_singleton.mpr hx)
    refine .whatever fun word _ => .whatever fun t _ => ?_
    split
    · exact .bind (gives_value_given word) hmore
    · exact .bind (gives_resolve_given word) hmore

theorem gives_argumentValues_given :
    Gives argumentValues w fun args _ => ∀ x ∈ args, x.isOmitted = false := by
  have hclose : ∀ (args : List Operand) w', (∀ x ∈ args, x.isOmitted = false) →
      Gives (endArguments args) w' fun args _ => ∀ x ∈ args, x.isOmitted = false := by
    intro args w' h
    refine .whatever fun t _ => ?_
    dsimp only
    split
    · exact .fail_bind
    · exact .whatever fun _ _ => .pure h
  refine .whatever fun t _ => ?_
  split
  · exact .read (a := []) rfl (hclose [] _ fun x hx => absurd hx List.not_mem_nil)
  · exact .whatever fun n _ => .bind (gives_argumentList_given n) hclose

/-- What is done with the arguments of a primitive when they have been read. -/
def Command.checked (b : Command) (args : List Operand) : Except Fault (List Operand) :=
  ((Callee.command b).checkCount args.length).map fun _ => (Callee.command b).pad args

theorem arguments_command (b : Command) {result : Option Variable}
    (h : ¬(b.convention = .void ∧ result.isSome)) : arguments levels (.command b) result =
      argumentValues >>= fun args => ofExcept (Command.checked b args) := by
  have hclose : closeArguments (.command b) = fun args =>
      endArguments args >>= fun args => ofExcept (Command.checked b args) := by
    funext args
    have hcheck : ofExcept ((Callee.command b).checkCount args.length) >>= (fun _ =>
        pure ((Callee.command b).pad args)) = ofExcept (Command.checked b args) := by
      rw [Command.checked]
      cases (Callee.command b).checkCount args.length <;> rfl
    unfold closeArguments endArguments
    rw [bind_assoc]
    refine congrArg (tail >>= ·) (funext fun t => ?_)
    cases t.isClosing with
    | false => rfl
    | true => exact congrArg (closeOne >>= ·) (funext fun _ => hcheck)
  have hvoid : ((Callee.command b).convention = .void && result.isSome) = false :=
    Bool.eq_false_iff.mpr fun hv => h ((Bool.and_eq_true_iff.mp hv).imp_left of_decide_eq_true)
  rw [arguments_levels_succ]
  refine (argumentsWith_eq value (.command b) result).trans ?_
  dsimp only
  rw [hvoid, hclose]
  simp only [Bool.false_eq_true, if_false, argumentValues, bind_assoc]
  refine congrArg (tail >>= ·) (funext fun t => ?_)
  split <;> simp only [pure_bind, bind_assoc]

/-- What comes behind an action and changes nothing may come behind its level. -/
theorem exec_nested_ofExcept {act : Compile α} {a : α} (f : α → Except Fault β)
    (h : exec (nested act) w = (.ok a, w')) :
    exec (nested (act >>= fun a => ofExcept (f a))) w = (f a, w') := by
  by_cases hd : w.compiler.depth < maxNesting
  · rw [exec_nested act hd] at h
    cases hin : exec act (w.atDepth (w.compiler.depth + 1)) with
    | mk r v =>
      rw [hin] at h
      cases h
      rw [exec_nested _ hd, exec_bind_ok hin, exec_ofExcept]
  · rw [exec_nested_of_le act (Nat.le_of_not_lt hd)] at h
    cases h

/-! ## Instructions -/

theorem Command.instr_pad_operands (hb : b ∈ Catalogue.commands) (hargs : ∀ x ∈ args, x.isOmitted = false)
    (hleast : b.least ≤ args.length) (result : Option Variable) :
    b.instr ((Callee.command b).pad args)
      (if b.convention = .required then some (result.getD Names.discarded) else result) =
      .perform b.primitive (b.operands args result) := by
  have hslot : ∀ v, b.hasSlot → b.instr ((Callee.command b).pad args) (some v) =
      .perform b.primitive (args.insertIdx b.slot (.var v)) := by
    intro v hslot
    rw [instr_pad hargs hslot,
      insertIdx_eq_take_drop args _ (Nat.le_trans (Catalogue.slot_le_least hb) hleast)]
  have hnone : b.instr ((Callee.command b).pad args) none = .perform b.primitive args := by
    simp only [Command.instr, Command.spliced, Callee.pad, List.filter_append, filter_replicate_omitted,
      filter_omitted hargs, List.append_nil]
  unfold Command.operands Command.receiver
  cases hc : b.convention with
  | optional =>
    cases result with
    | none => exact hnone
    | some v => exact hslot v (by simp [Command.hasSlot, hc])
  | required => exact hslot _ (by simp [Command.hasSlot, hc])
  | void | errorFlag =>
    cases result with
    | none => exact hnone
    | some v => exact instr_pad_of_not_hasSlot hargs (by simp [Command.hasSlot, hc])

theorem exec_emitCall_command (hs : w.compiler.Sound) (hb : b ∈ Catalogue.commands)
    (hargs : ∀ x ∈ args, x.isOmitted = false) (hleast : b.least ≤ args.length) {result : Option Variable}
    (hv : ¬(b.convention = .void ∧ result.isSome)) :
    ∃ w', exec (emitCall (.command b) ((Callee.command b).pad args) result) w = (.ok (), w') ∧
      w'.lines = w.lines ++ (b.ahead w.compiler result ++
        ⟨0, .perform b.primitive (b.operands args result)⟩ :: b.behind result) := by
  rw [← Command.instr_pad_operands hb hargs hleast]
  have hconv : (Callee.command b).convention = b.convention := rfl
  unfold emitCall Command.ahead Command.behind
  rw [hconv]
  cases hc : b.convention with
  | void | optional =>
    cases result with
    | none => exact ⟨_, rfl, rfl⟩
    | some v => exact ⟨_, rfl, rfl⟩
  | errorFlag =>
    cases result with
    | none => exact ⟨_, rfl, rfl⟩
    | some v => exact ⟨_, rfl, by simp⟩
  | required =>
    cases result with
    | some v => exact ⟨_, rfl, rfl⟩
    | none =>
      cases hd : w.compiler.discarded with
      | some v =>
        obtain ⟨rfl, -⟩ := hs.discarded_some v hd
        exact ⟨_, exec_bind_ok (exec_discarded hd), rfl⟩
      | none =>
        refine ⟨_, exec_bind_ok (exec_discarded_of_none hd (hs.discarded_none hd)), ?_⟩
        exact List.append_assoc _ _ _

/-- A call to a primitive checks how many arguments there are when it has read them. -/
theorem exec_callInto_command {word : Word} (hword : w.declarations.callee? word.name = some (.command b))
    {result : Option Variable} (hv : ¬(b.convention = .void ∧ result.isSome))
    (hparse : exec (nested argumentValues) w = (.ok args, w')) : exec (callInto word result) w =
      match (Callee.command b).checkCount args.length with
      | .error f => (.error f, w')
      | .ok _ => exec (emitCall (.command b) ((Callee.command b).pad args) result) w' := by
  have hread := exec_nested_ofExcept (Command.checked b) hparse
  rw [← arguments_command b hv, Command.checked] at hread
  unfold callInto callWith
  rw [exec_bind_ok (exec_introduce hword)]
  show exec (nested (arguments levels (.command b) result) >>= _) w = _
  cases hcount : (Callee.command b).checkCount args.length with
  | error f =>
    rw [hcount] at hread
    exact exec_bind_error hread
  | ok u =>
    rw [hcount] at hread
    exact exec_bind_ok hread

theorem Command.checkCount_eq (b : Command) (n : Nat) : (Callee.command b).checkCount n =
    if b.most < n then .error (.tooMany b.name b.most n)
    else if n < b.least then .error (.tooFew b.name b.least n) else .ok () := rfl

theorem Command.checked_eq_ok {xs : List Operand} (h : Command.checked b args = .ok xs) :
    b.least ≤ args.length ∧ xs = (Callee.command b).pad args := by
  rw [Command.checked, Command.checkCount_eq] at h
  split at h
  · cases h
  split at h
  · cases h
  next hleast =>
  cases h
  exact ⟨Nat.le_of_not_lt hleast, rfl⟩

/-- A primitive with a result operand is called in one line. -/
theorem Command.lines_of_hasSlot (hb : b ∈ Catalogue.commands) (hslot : b.hasSlot)
    (hleast : b.least ≤ args.length) (c : Compiler) (v : Variable) :
    b.ahead c (some v) ++ ⟨0, .perform b.primitive (b.operands args (some v))⟩ :: b.behind (some v) =
      [⟨0, .perform b.primitive (args.take b.slot ++ [.var v] ++ args.drop b.slot)⟩] := by
  have hflag : b.convention ≠ .errorFlag := by
    intro h
    simp [Command.hasSlot, h] at hslot
  have hreceiver : b.receiver (some v) = some v := by
    unfold Command.receiver
    cases hc : b.convention <;> simp_all [Command.hasSlot]
  rw [Command.ahead, Command.behind, if_neg hflag, if_neg hflag, Command.operands, hreceiver]
  dsimp only
  rw [insertIdx_eq_take_drop args _ (Nat.le_trans (Catalogue.slot_le_least hb) hleast)]
  rfl

/-- Whatever its arguments are, a call to a primitive with a result operand ends with the line of the
call. -/
theorem gives_callInto_command {word : Word} (hs : w.compiler.Sound) (hb : b ∈ Catalogue.commands)
    (hslot : b.hasSlot) (hword : w.declarations.callee? word.name = some (.command b)) (v : Variable) :
    Gives (callInto word (some v)) w fun _ w' => b.CallsLast v w'.lines := by
  have hv : ¬(b.convention = .void ∧ (some v).isSome) := by
    rintro ⟨h, -⟩
    simp [Command.hasSlot, h] at hslot
  have hread : Gives (nested (arguments levels (.command b) (some v))) w fun xs _ =>
      ∃ args, (∀ x ∈ args, x.isOmitted = false) ∧ Command.checked b args = .ok xs := by
    rw [arguments_command b hv]
    refine .nested (.bind gives_argumentValues_given fun args _ h => ?_)
    exact .ofExcept fun xs hxs _ => ⟨args, h, hxs⟩
  have hsound : Gives (nested (arguments levels (.command b) (some v))) w
      fun _ w' => w'.compiler.Sound := by
    intro xs w₁ he
    have hin : Reach .value w (w.atDepth (w.compiler.depth + 1)) := .single (.pass rfl rfl)
    have hcollect := (compiles_and_collects levels).2 _ (some v) word.name _ (hin.sound hs) hword
    have hdoes := (Does.nested (Q := fun _ _ => True) (hcollect.mono fun _ _ _ _ _ => trivial)).reach
    rw [he] at hdoes
    exact hdoes.sound hs
  unfold callInto callWith
  refine .read (exec_introduce hword) (.read rfl (.bind (fun xs w₁ he =>
    And.intro (hread xs w₁ he) (hsound xs w₁ he)) fun xs w₁ h => ?_))
  obtain ⟨⟨args, hargs, hchecked⟩, hs₁⟩ := h
  obtain ⟨hleast, rfl⟩ := Command.checked_eq_ok hchecked
  obtain ⟨w₂, hemit, hlines⟩ := exec_emitCall_command hs₁ hb hargs hleast hv
  rw [Command.lines_of_hasSlot hb hslot hleast] at hlines
  exact .of_exec hemit ⟨_, args, Nat.le_trans (Catalogue.slot_le_least hb) hleast, hlines⟩

/-- No argument is read where a result is asked for that never comes. -/
theorem exec_callInto_void {word : Word} (hd : w.compiler.depth < maxNesting)
    (hword : w.declarations.callee? word.name = some (.command b)) (hv : b.convention = .void)
    (v : Variable) : exec (callInto word (some v)) w = (.error (.noResult b.name), w) := by
  have hargs : exec (arguments levels (.command b) (some v)) (w.atDepth (w.compiler.depth + 1)) =
      (.error (.noResult b.name), w.atDepth (w.compiler.depth + 1)) := by
    refine (congrArg (exec · _) (argumentsWith_eq (expression maxNesting) (.command b) (some v))).trans ?_
    dsimp only
    rw [if_pos (by rw [Callee.convention, hv]; rfl)]
    exact exec_bind_error (exec_fail _ _)
  have hnested : exec (nested (arguments levels (.command b) (some v))) w =
      (.error (.noResult b.name), w) := by
    rw [exec_nested _ hd, hargs]
    rfl
  unfold callInto callWith
  rw [exec_bind_ok (exec_introduce hword)]
  show exec (nested (arguments levels (.command b) (some v)) >>= _) w = _
  exact exec_bind_error hnested

/-- A value that begins with a call holds the result in a variable of its own. -/
theorem exec_value_call (word : Word) (h : w.cursor.tail.opens) : exec (value word) w =
    exec (nested do
      let v ← declareTemporary
      note (.holdsResult word.text v.target)
      callInto word (some v)
      valueFrom (.var v)) w := by
  rw [value, expression_levels_succ]
  refine exec_nested_congr fun _ => (exec_bind_ok (exec_tail _)).trans ?_
  rw [if_pos (show (w.atDepth (w.compiler.depth + 1)).cursor.tail.opens = true from h)]
  simp only [heldCall, bind_assoc, pure_bind]
  rfl

end Compile

/-! ## Commands in a run -/

namespace Compiler

/-- A statement makes no command, and takes none away. -/
theorem callee?_compile_command {c : Compiler} (hs : c.Sound) (ts : List Token) (name : String)
    (k : Command) : (c.compile ts).compiler.declarations.callee? name = some (.command k) ↔
      c.declarations.callee? name = some (.command k) := by
  rcases c.callee?_compile hs ts name with h | ⟨-, f, hf, -, -, hfree⟩
  · constructor
    · intro hk
      rw [hk] at h
      generalize c.declarations.callee? name = old at h
      cases h
      rfl
    · intro hk
      rw [hk] at h
      generalize (c.compile ts).compiler.declarations.callee? name = new at h
      cases h
      rfl
  · rw [hf]
    constructor
    · intro hk
      cases hk
    · intro hk
      rcases hfree with ⟨hnone, -⟩ | ⟨p, hp, -⟩
      · cases hnone.symm.trans hk
      · cases hp.symm.trans hk

/-- All commands are those of the target language. -/
theorem command_mem_catalogue {c : Compiler} (hc : c.Reachable) {name : String} {k : Command}
    (h : c.declarations.callee? name = some (.command k)) : k ∈ Catalogue.commands := by
  obtain ⟨predefined, ss, rfl⟩ := hc
  refine (steps_induction (P := fun c => c.Sound ∧ ∀ name k,
    c.declarations.callee? name = some (.command k) → k ∈ Catalogue.commands) ?_
    ⟨sound_start predefined, ?_⟩ ss).2 name k h
  · rintro c ts ⟨hs, hc⟩
    exact ⟨sound_compile hs ts, fun name k h => hc name k ((callee?_compile_command hs ts name k).mp h)⟩
  · intro name k h
    obtain ⟨es, es', he, -⟩ := List.lookup_eq_some_iff.mp h
    have hmem : (name, Callee.command k) ∈ (start predefined).declarations.callees := by
      rw [he]
      exact List.mem_append_right es List.mem_cons_self
    cases predefined with
    | false => cases hmem
    | true =>
      obtain ⟨e, hcallee, heq⟩ := List.mem_map.mp hmem
      obtain rfl : e = .command k := congrArg Prod.snd heq
      simpa [Catalogue.callees, Catalogue.commands] using hcallee

end Compiler

open Compile

/-- Whatever has been compiled, a primitive is called by its name. -/
theorem Compiler.callee?_steps_command {b : Command} (hb : b ∈ Catalogue.commands) (ss : List Statement) :
    ((start true).steps ss).2.declarations.callee? (Text.lower b.name) = some (.command b) := by
  have hstart : ∀ b ∈ Catalogue.commands,
      (start true).declarations.callee? (Text.lower b.name) = some (.command b) := by decide +kernel
  refine (steps_induction (P := fun c => c.Sound ∧
    c.declarations.callee? (Text.lower b.name) = some (.command b)) ?_
    ⟨sound_start true, hstart b hb⟩ ss).2
  rintro c ts ⟨hs, hc⟩
  exact ⟨sound_compile hs ts, (callee?_compile_command hs ts _ b).mpr hc⟩

theorem Command.getElem?_operands {b : Command} {args : List Operand} (hb : b ∈ Catalogue.commands)
    (hleast : b.least ≤ args.length) {result : Option Variable} {v : Variable}
    (hv : b.receiver result = some v) : (b.operands args result)[b.slot]? = some (.var v) := by
  have hslot : b.slot ≤ args.length := Nat.le_trans (Catalogue.slot_le_least hb) hleast
  rw [operands, hv]
  exact (List.getElem?_insertIdx_self ..).trans (if_pos hslot)

/-- Every primitive of the catalogue is called by its name, whatever has been compiled before. A call that
asks for a result which never comes is a fault before an argument is read. Otherwise, when the arguments
have been read, their number decides: there are too many or too few, or the call is written as one
instruction, with what its convention needs around it. The instruction has the arguments in their order
and the variable that receives the result in its slot. A call in a value is such a call, with a variable
of its own for the result. -/
theorem builtin_calls {b : Command} (hb : b ∈ Catalogue.commands) :
    (∀ ss, ((Compiler.start true).steps ss).2.declarations.callee? (Text.lower b.name) =
      some (.command b)) ∧
    (∀ (w : Work) (word : Word) (result : Option Variable), w.compiler.Sound →
      w.compiler.depth < maxNesting → w.declarations.callee? word.name = some (.command b) →
      (b.convention = .void ∧ result.isSome →
        exec (callInto word result) w = (.error (.noResult b.name), w)) ∧
      (¬(b.convention = .void ∧ result.isSome) → ∀ args w',
        exec (nested argumentValues) w = (.ok args, w') →
        ((exec (callInto word result) w).1 = .error (.tooMany b.name b.most args.length) ↔
          b.most < args.length) ∧
        ((exec (callInto word result) w).1 = .error (.tooFew b.name b.least args.length) ↔
          args.length < b.least) ∧
        (b.least ≤ args.length → args.length ≤ b.most → ∃ line w'',
          exec (callInto word result) w = (.ok (), w'') ∧
          w''.lines = w'.lines ++ (b.ahead w'.compiler result ++ line :: b.behind result) ∧
          (∀ indent, line.write indent = b.text indent args result) ∧
          ∀ v, b.receiver result = some v → (b.operands args result)[b.slot]? = some (.var v)))) ∧
    ∀ (w : Work) (word : Word), w.cursor.tail.opens → exec (value word) w =
      exec (nested do
        let v ← declareTemporary
        note (.holdsResult word.text v.target)
        callInto word (some v)
        valueFrom (.var v)) w := by
  refine ⟨Compiler.callee?_steps_command hb, fun w word result hs hd hword => ⟨?_, ?_⟩,
    fun w word h => exec_value_call word h⟩
  · rintro ⟨hv, hr⟩
    obtain ⟨v, rfl⟩ := Option.isSome_iff_exists.mp hr
    exact exec_callInto_void hd hword hv v
  · intro hv args w' hparse
    have hargs : ∀ x ∈ args, x.isOmitted = false :=
      Gives.nested (Q := fun args _ => ∀ x ∈ args, x.isOmitted = false)
        (gives_argumentValues_given.mono fun _ _ h _ => h) args w' hparse
    have hs' : w'.compiler.Sound := by
      have hin : Reach .value w (w.atDepth (w.compiler.depth + 1)) := .single (.pass rfl rfl)
      have hdoes := (Does.nested (Q := fun _ _ => True)
        ((does_argumentValues (hin.sound hs)).mono fun _ _ _ _ _ => trivial)).reach
      rw [hparse] at hdoes
      exact hdoes.sound hs
    have hexec := exec_callInto_command hword hv hparse
    have hle := Catalogue.least_le_most b hb
    rw [Command.checkCount_eq] at hexec
    by_cases hmany : b.most < args.length
    · rw [if_pos hmany] at hexec
      rw [hexec]
      refine ⟨⟨fun _ => hmany, fun _ => rfl⟩, ⟨fun h => (nomatch h), fun h => ?_⟩, fun _ h => ?_⟩
      · exact absurd hmany (Nat.not_lt_of_le (Nat.le_trans (Nat.le_of_lt h) hle))
      · exact absurd hmany (Nat.not_lt_of_le h)
    rw [if_neg hmany] at hexec
    by_cases hfew : args.length < b.least
    · rw [if_pos hfew] at hexec
      rw [hexec]
      refine ⟨⟨fun h => (nomatch h), fun h => absurd h hmany⟩, ⟨fun _ => hfew, fun _ => rfl⟩, fun h => ?_⟩
      exact absurd hfew (Nat.not_lt_of_le h)
    rw [if_neg hfew] at hexec
    have hleast := Nat.le_of_not_lt hfew
    obtain ⟨w'', hemit, hlines⟩ := exec_emitCall_command hs' hb hargs hleast hv
    have hcall : exec (callInto word result) w = (.ok (), w'') := hexec.trans hemit
    rw [hcall]
    refine ⟨⟨fun h => (nomatch h), fun h => absurd h hmany⟩, ⟨fun h => (nomatch h), fun h => absurd h hfew⟩,
      fun _ _ => ⟨_, w'', rfl, hlines, fun indent => ?_, fun v => Command.getElem?_operands hb hleast⟩⟩
    exact b.write_line indent args result

/-- The last argument of `StrCpy` is left out, and its result is not wanted. -/
theorem builtin_calls_discarding :
    let b := Command.instruction "StrCpy" 1 3 .required 0
    let w : Work := { compiler := .start true, cursor := ⟨{ opens := true },
      [⟨⟨.quoted, "\"abc\""⟩, { separates := true }⟩, ⟨⟨.integer, "2"⟩, { closes := 1 }⟩]⟩ }
    b ∈ Catalogue.commands ∧ ∃ line w', exec (callInto ⟨.name, "StrCpy"⟩ none) w = (.ok (), w') ∧
      w'.lines = [⟨0, .declare Names.discarded⟩, line] ∧
      line.write "  " = "  StrCpy $bridle_nullvar \"abc\" 2" := by
  intro b w
  have hb : b ∈ Catalogue.commands := by decide
  have hparse : exec (nested argumentValues) w =
      (.ok [.literal "\"abc\"", .literal "2"], (exec (nested argumentValues) w).2) :=
    Prod.ext (by decide +kernel) rfl
  have hcall := ((builtin_calls hb).2.1 w ⟨.name, "StrCpy"⟩ none (Compiler.sound_start true) (by decide)
    (by decide +kernel)).2 (fun h => nomatch h.1) _ _ hparse
  obtain ⟨line, w', hexec, hlines, htext, -⟩ := hcall.2.2 (by decide) (by decide)
  have hread : (exec (nested argumentValues) w).2.lines = [] := by decide +kernel
  have hahead : b.ahead (exec (nested argumentValues) w).2.compiler none =
      [⟨0, .declare Names.discarded⟩] := by decide +kernel
  rw [hread, hahead] at hlines
  exact ⟨hb, line, w', hexec, hlines, (htext "  ").trans (by decide +kernel)⟩

end InstallScript
