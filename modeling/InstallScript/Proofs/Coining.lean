import Mathlib.Data.List.Nodup
import InstallScript.Proofs.Reading

/-!
The names that are made up while a value is compiled. They are given to variables and to the labels of
message boxes.

* `Coined P w w'`: the names coined from `w` to `w'` are those with the numbers in between, each of
  them once, and the variables registered meanwhile satisfy `P`.
* `Compile.Registers I P act`: that is what the action does, however it ends, and it finds no reserved
  name taken.
* `Compile.Coins act`: the same for the parts of a value, in sound states; they register only
  variables with reserved names.
-/

namespace InstallScript

/-- The fault is that a variable with a name of the compiler has been declared already. -/
def Fault.isClash : Fault → Bool
  | duplicate name _ => Names.isReserved name
  | _ => false

/-! ## Coined names in lines -/

/-- The generated name in the label of a message box. -/
def MessageBox.numbering (label : String) : String :=
  String.ofList (label.toList.drop "msgbox_".toList.length)

/-- The generated name that a line is the first to use. The shared variables have reserved names that
are not generated. -/
def Instr.coined? : Instr → Option String
  | declare v =>
    if Names.isReserved v.name ∧ v ≠ Names.returnRegister ∧ v ≠ Names.discarded then some v.name
    else none
  | label name => some (MessageBox.numbering name)
  | _ => none

def coined (ls : List Line) : List String := ls.filterMap (·.instr.coined?)

theorem coined_append (ls ms : List Line) : coined (ls ++ ms) = coined ls ++ coined ms :=
  List.filterMap_append

theorem coined_eq_nil {ls : List Line} (h : ∀ l ∈ ls, l.instr.coined? = none) : coined ls = [] :=
  List.filterMap_eq_nil_iff.mpr h

/-- The names with the numbers behind `m`, `n` of them. -/
def numbered (m n : Nat) : List String := (List.range' (m + 1) n).map Names.generated

theorem numbered_append (m n k : Nat) : numbered m n ++ numbered (m + n) k = numbered m (n + k) := by
  rw [numbered, numbered, ← List.map_append, show m + n + 1 = m + 1 + n by omega,
    List.range'_append_1]
  rfl

theorem nodup_numbered (m n : Nat) : (numbered m n).Nodup :=
  List.Nodup.map (fun _ _ => Names.generated_inj) List.nodup_range'

/-- A name of the script is not coined. -/
theorem coined?_declare_of_not_reserved {v : Variable} (h : Names.isReserved v.name = false) :
    (Instr.declare v).coined? = none := by
  rw [Instr.coined?, if_neg]
  rintro ⟨hr, -⟩
  rw [h] at hr
  exact Bool.noConfusion hr

theorem coined?_declare_generated (n : Nat) (scope : Scope) :
    (Instr.declare ⟨Names.generated n, scope, none⟩).coined? = some (Names.generated n) := by
  rw [Instr.coined?, if_pos]
  refine ⟨Names.isReserved_generated n, fun h => ?_, fun h => ?_⟩
  · exact Names.generated_ne_returnRegister n (congrArg Variable.name h)
  · exact Names.generated_ne_discarded n (congrArg Variable.name h)

namespace MessageBox

theorem numbering_labelName (n : Nat) : numbering (labelName n) = Names.generated n := by
  rw [numbering, labelName, String.toList_append, List.drop_left, String.ofList_toList]

/-- The way on for each button has a label of its own. -/
theorem coined_branches (result : Variable) (exit : String) (bs : List Button) (m k : Nat) :
    coined (((bs.zipIdx k).map fun (b, i) => (b, labelName (m + 1 + i))).flatMap (branch result exit)) =
      numbered (m + k) bs.length := by
  induction bs generalizing k with
  | nil => rfl
  | cons b bs ih =>
    rw [List.zipIdx_cons, List.map_cons, List.flatMap_cons, coined_append, ih, List.length_cons,
      Nat.add_comm bs.length, ← numbered_append]
    show [numbering (labelName (m + 1 + k))] ++ _ = [Names.generated (m + k + 1)] ++ _
    rw [numbering_labelName, Nat.add_right_comm]
    rfl

/-- The label of the common end comes last and has the first number. -/
theorem coined_answer (g : ButtonGroup) (d : Dialog) (result : Variable) (n : Nat) :
    (coined (answer g d result (n + 1))).Perm (numbered n (1 + g.jumping.length)) := by
  have hlines : coined (answer g d result (n + 1)) =
      numbered (n + 1) g.jumping.length ++ [numbering (labelName (n + 1))] := by
    unfold answer
    dsimp only
    rw [coined_append, ← coined_branches result (labelName (n + 1)) g.jumping (n + 1) 0]
    rfl
  rw [hlines, ← numbered_append, numbering_labelName]
  exact List.perm_append_comm

end MessageBox

/-- From `w` to `w'` lines have been added that use each of the names generated meanwhile for the first
time, and every variable registered meanwhile satisfies `P`. -/
def Coined (P : Variable → Prop) (w w' : Work) : Prop :=
  ∃ ls n, w'.lines = w.lines ++ ls ∧ w'.declarations.generated = w.declarations.generated + n ∧
    (coined ls).Perm (numbered w.declarations.generated n) ∧ ∀ v ∈ declaredIn ls, P v

namespace Coined

variable {P Q : Variable → Prop} {w w' w'' : Work} {ls : List Line} {v : Variable}

/-- Lines that declare nothing and have no label. -/
theorem plain (hl : w'.lines = w.lines ++ ls)
    (hg : w'.declarations.generated = w.declarations.generated)
    (hc : ∀ l ∈ ls, l.instr.coined? = none ∧ l.instr.declared? = none) : Coined P w w' := by
  refine ⟨ls, 0, hl, hg, ?_, fun v hv => ?_⟩
  · rw [coined_eq_nil fun l hm => (hc l hm).1]
    rfl
  · rw [declaredIn_eq_nil fun l hm => (hc l hm).2] at hv
    cases hv

theorem still (hl : w'.lines = w.lines) (hg : w'.declarations.generated = w.declarations.generated) :
    Coined P w w' :=
  plain (by rw [hl, List.append_nil]) hg fun l (hm : l ∈ []) => absurd hm List.not_mem_nil

theorem trans (h : Coined P w w') (h' : Coined P w' w'') : Coined P w w'' := by
  obtain ⟨ls, n, hl, hg, hc, hp⟩ := h
  obtain ⟨ms, m, hl', hg', hc', hp'⟩ := h'
  refine ⟨ls ++ ms, n + m, ?_, ?_, ?_, fun v hv => ?_⟩
  · rw [hl', hl, List.append_assoc]
  · rw [hg', hg, Nat.add_assoc]
  · rw [coined_append, ← numbered_append, ← hg]
    exact hc.append hc'
  · rw [declaredIn_append] at hv
    exact (List.mem_append.mp hv).elim (hp v) (hp' v)

theorem mono (h : Coined P w w') (hpq : ∀ v, P v → Q v) : Coined Q w w' := by
  obtain ⟨ls, n, hl, hg, hc, hp⟩ := h
  exact ⟨ls, n, hl, hg, hc, fun v hv => hpq v (hp v hv)⟩

/-- One variable is declared, whose name is not coined. -/
theorem declare (hl : w'.lines = w.lines ++ [⟨0, .declare v⟩])
    (hg : w'.declarations.generated = w.declarations.generated)
    (hc : (Instr.declare v).coined? = none) (hp : P v) : Coined P w w' := by
  refine ⟨_, 0, hl, hg, ?_, fun u hu => ?_⟩
  · rw [coined_eq_nil]
    · rfl
    · intro l hm
      rw [List.mem_singleton.mp hm]
      exact hc
  · cases List.mem_singleton.mp hu
    exact hp

end Coined

namespace Compile

/-! ## What actions register -/

/-- From every state in which `I` holds the action keeps `I`, uses the names it generates as `Coined`
says, and does not fail because of a reserved name. -/
def Registers (I : Work → Prop) (P : Variable → Prop) (act : Compile α) : Prop :=
  ∀ w, I w → I (exec act w).2 ∧ Coined P w (exec act w).2 ∧
    ∀ f, (exec act w).1 = .error f → f.isClash = false

namespace Registers

variable {I : Work → Prop} {P Q : Variable → Prop} {act : Compile α} {k : α → Compile β}

theorem of_exec {a : Work → α} {g : Work → Work}
    (h : ∀ w, I w → exec act w = (.ok (a w), g w) ∧ I (g w) ∧ Coined P w (g w)) :
    Registers I P act := by
  intro w hi
  obtain ⟨he, hi', hc⟩ := h w hi
  rw [he]
  exact ⟨hi', hc, fun f hf => by cases hf⟩

/-- Looking at the state. -/
theorem read {a : Work → α} (h : ∀ w, exec act w = (.ok (a w), w)) : Registers I P act :=
  of_exec fun w hi => ⟨h w, hi, .still rfl rfl⟩

protected theorem pure (a : α) : Registers I P (pure a) := read fun w => exec_pure a w

theorem ofExcept {r : Except Fault α} (h : ∀ f, r = .error f → f.isClash = false) :
    Registers I P (ofExcept r) := by
  intro w hi
  rw [exec_ofExcept]
  exact ⟨hi, .still rfl rfl, h⟩

protected theorem fail {f : Fault} (h : f.isClash = false) : Registers I P (fail f : Compile α) :=
  ofExcept (r := .error f) fun g hg => by cases hg; exact h

protected theorem bind (h : Registers I P act) (hk : ∀ a, Registers I P (k a)) :
    Registers I P (act >>= k) := by
  intro w hi
  have hw := h w hi
  rcases he : exec act w with ⟨f | a, w'⟩
  · rw [exec_bind_error he]
    rw [he] at hw
    exact ⟨hw.1, hw.2.1, fun g hg => hw.2.2 g (by cases hg; rfl)⟩
  · rw [exec_bind_ok he]
    rw [he] at hw
    have hw' := hk a w' hw.1
    exact ⟨hw'.1, hw.2.1.trans hw'.2.1, hw'.2.2⟩

theorem fail_bind {f : Fault} (h : f.isClash = false) : Registers I P (Compile.fail f >>= k) := by
  intro w hi
  rw [exec_bind_error (exec_fail f w)]
  exact ⟨hi, .still rfl rfl, fun g hg => by cases hg; exact h⟩

theorem mono (h : Registers I P act) (hpq : ∀ v, P v → Q v) : Registers I Q act :=
  fun w hi => ⟨(h w hi).1, (h w hi).2.1.mono hpq, (h w hi).2.2⟩

end Registers

/-- The words ahead are among the names. -/
def Ahead (names : List String) (w : Work) : Prop := ∀ t ∈ w.cursor.ahead, t.word.name ∈ names

/-- The state is sound. -/
def InOrder (w : Work) : Prop := w.compiler.Sound

/-- The variable has a name of the compiler. -/
def Own (v : Variable) : Prop := Names.isReserved v.name = true

/-- What is done for a value: no variables are registered but those of the compiler. -/
abbrev Coins (act : Compile α) : Prop := Registers InOrder Own act

theorem emits {I : Work → Prop} {P : Variable → Prop} {ls : List Line}
    (hI : ∀ w, I w → I (w.write ls))
    (h : ∀ l ∈ ls, l.instr.coined? = none ∧ l.instr.declared? = none) : Registers I P (emit ls) :=
  .of_exec (a := fun _ => ()) fun w hi => ⟨rfl, hI w hi, .plain rfl rfl h⟩

theorem notes {I : Work → Prop} {P : Variable → Prop} {n : Note}
    (hI : ∀ w, I w → I { w with notes := w.notes ++ [n] }) : Registers I P (note n) :=
  .of_exec (a := fun _ => ()) fun w hi => ⟨rfl, hI w hi, .still rfl rfl⟩

/-! ## Values -/

theorem coins_nextWord {P : Variable → Prop} : Registers InOrder P nextWord := by
  intro w hs
  rcases hc : w.cursor.next? with _ | ⟨word, cursor⟩
  · rw [exec_nextWord_of_none hc]
    exact ⟨hs, .still rfl rfl, fun f hf => by cases hf; rfl⟩
  · rw [exec_nextWord hc]
    exact ⟨hs, .still rfl rfl, fun f hf => by cases hf⟩

theorem coins_expectEnd {I : Work → Prop} {P : Variable → Prop} : Registers I P expectEnd := by
  unfold expectEnd
  refine .bind (.read fun _ => rfl) fun b => ?_
  split
  · exact .fail rfl
  · exact .pure ()

theorem coins_nested {act : Compile α} {P : Variable → Prop} (h : Registers InOrder P act) :
    Registers InOrder P (nested act) := by
  have hdepth : ∀ w n, InOrder w → InOrder (w.atDepth n) := fun w n hs =>
    Step.sound (p := .value) (.pass rfl rfl) hs
  intro w hs
  by_cases hd : w.compiler.depth < maxNesting
  · obtain ⟨hs', hc, hf⟩ := h _ (hdepth w (w.compiler.depth + 1) hs)
    rw [exec_nested act hd]
    refine ⟨hdepth _ _ hs', ?_, hf⟩
    exact (Coined.still rfl rfl).trans (hc.trans (.still rfl rfl))
  · rw [exec_nested_of_le act (Nat.le_of_not_lt hd)]
    exact ⟨hs, .still rfl rfl, fun f hf => by cases hf; rfl⟩

theorem coins_lookup {I : Work → Prop} {P : Variable → Prop} (name : String) :
    Registers I P (lookup name) := by
  unfold lookup
  refine .bind (.read fun _ => rfl) fun d => .bind (.read fun _ => rfl) fun current => .ofExcept ?_
  intro f hf
  unfold Declarations.find at hf
  split at hf
  · cases hf
  · cases hf
    rfl

theorem coins_resolve {I : Work → Prop} {P : Variable → Prop} (word : Word) :
    Registers I P (resolve word) := by
  unfold resolve
  split
  · exact .bind (coins_lookup _) fun _ => .pure _
  · exact .pure _

/-- The next name is free, and its variable is declared at once. -/
theorem coins_declareTemporary : Coins declareTemporary := by
  refine .of_exec fun w hs => ⟨exec_declareTemporary hs, ?_, ?_⟩
  · have hd := (does_declareTemporary hs).reach.sound hs
    rw [exec_declareTemporary hs] at hd
    exact hd
  · refine ⟨[⟨0, .declare w.temporary⟩], 1, rfl, rfl, ?_, fun v hv => ?_⟩
    · have hc : coined [⟨0, .declare w.temporary⟩] = [w.temporary.name] :=
        List.filterMap_cons_some (coined?_declare_generated _ _)
      rw [hc]
      rfl
    · cases List.mem_singleton.mp hv
      exact Names.isReserved_generated _

theorem coins_discarded : Coins discarded := by
  intro w hs
  have hd := (does_discarded hs).reach.sound hs
  cases h : w.compiler.discarded with
  | some v =>
    rw [exec_discarded h]
    exact ⟨hs, .still rfl rfl, fun f hf => by cases hf⟩
  | none =>
    rw [exec_discarded_of_none h (hs.discarded_none h)] at hd ⊢
    exact ⟨hd, .declare rfl rfl (by decide) Names.isReserved_discarded, fun f hf => by cases hf⟩

theorem coins_ensureRegister : Coins ensureRegister := by
  intro w hs
  have hd := (does_ensureRegister hs).reach.sound hs
  cases h : w.compiler.register with
  | some v =>
    rw [exec_ensureRegister h]
    exact ⟨hs, .still rfl rfl, fun f hf => by cases hf⟩
  | none =>
    rw [exec_ensureRegister_of_none h (hs.register_none h)] at hd ⊢
    exact ⟨hd, .declare rfl rfl (by decide) Names.isReserved_returnRegister, fun f hf => by cases hf⟩

theorem coins_introduce (word : Word) : Coins (introduce word) := by
  intro w hs
  have hd := (does_introduce (w := w) word).reach.sound hs
  cases h : w.declarations.callee? word.name with
  | some c =>
    rw [exec_introduce h]
    exact ⟨hs, .still rfl rfl, fun f hf => by cases hf⟩
  | none =>
    rw [exec_introduce_of_none h] at hd ⊢
    exact ⟨hd, .still rfl rfl, fun f hf => by cases hf⟩

theorem coins_noteCall (word : Word) (c : Callee) (result : Option Variable) :
    Coins (noteCall word c result) := by
  intro w hs
  obtain ⟨notes, he⟩ := exec_noteCall (w := w) word c result
  rw [he]
  exact ⟨hs, .still rfl rfl, fun f hf => by cases hf⟩

/-! ### Lines of calls -/

/-- The fault, if there is one, does not come of a reserved name. -/
def Clear (r : Except Fault α) : Prop := ∀ f, r = .error f → f.isClash = false

theorem Clear.ok (a : α) : Clear (.ok a) := fun f hf => by cases hf

theorem Clear.error {f : Fault} (h : f.isClash = false) : Clear (.error f : Except Fault α) := by
  intro g hg
  cases hg
  exact h

theorem Clear.bind {r : Except Fault α} {k : α → Except Fault β} (h : Clear r)
    (hk : ∀ a, Clear (k a)) : Clear (r >>= k) := by
  cases r with
  | error f => exact .error (h f rfl)
  | ok a => exact hk a

namespace MessageBoxLines

open MessageBox

theorem clear_literalArgument (args : List Operand) (i : Nat) (what : String) :
    Clear (literalArgument args i what) := by
  unfold literalArgument
  split
  · exact .ok _
  · split
    · exact .ok _
    · exact .error rfl

theorem clear_lines (args : List Operand) (result : Option Variable) (n : Nat) :
    Clear (MessageBox.lines args result n) := by
  have hgroup : Clear (group args) := by
    refine .bind (clear_literalArgument args 0 "buttons") fun text => ?_
    split
    · exact .ok _
    · exact .error rfl
  have hsilent : Clear (silent args) := by
    refine .bind (clear_literalArgument args 3 "sd") fun text => ?_
    split
    · exact .ok _
    · split
      · exact .ok _
      · exact .error rfl
  have hdialog : Clear (ofArguments args) :=
    .bind hgroup fun g => .bind (clear_literalArgument args 2 "options") fun more =>
      .bind hsilent fun b => .ok _
  refine .bind hdialog fun (g, d) => ?_
  cases result <;> exact .ok _

/-- The labels of a message box take the numbers that the box uses up. -/
theorem coined_lines {args : List Operand} {result : Option Variable} {n m : Nat} {ls : List Line}
    (h : MessageBox.lines args result n = .ok (ls, m)) :
    ∃ k, m = n + k ∧ (coined ls).Perm (numbered n k) := by
  unfold MessageBox.lines at h
  simp only [bind, Except.bind] at h
  split at h
  · cases h
  · next gd _ =>
    cases result with
    | none =>
      cases h
      exact ⟨0, rfl, .refl _⟩
    | some r =>
      cases h
      exact ⟨1 + gd.1.jumping.length, Nat.add_assoc _ _ _, coined_answer gd.1 gd.2 r n⟩

end MessageBoxLines

/-- A call to a label uses no generated name. -/
theorem coined?_labelCall {label : String} {args : List Operand} {result : Option Variable} {l : Line}
    (h : l ∈ Callee.labelCall label args result) : l.instr.coined? = none := by
  simp only [Callee.labelCall, List.mem_append, List.mem_map, List.mem_singleton,
    Option.mem_toList] at h
  rcases h with (⟨x, -, rfl⟩ | rfl) | h
  · rfl
  · rfl
  · obtain ⟨r, -, rfl⟩ := Option.map_eq_some_iff.mp h
    rfl

theorem clear_callLines (c : Callee) (args : List Operand) (result : Option Variable) (n : Nat) :
    Clear (c.lines args result n) := by
  cases c with
  | command | function | placeholder => exact .ok _
  | messageBox => exact MessageBoxLines.clear_lines args result n

/-- The lines of a call declare nothing. -/
theorem coined_callLines {c : Callee} {args : List Operand} {result : Option Variable} {n m : Nat}
    {ls : List Line} (h : c.lines args result n = .ok (ls, m)) :
    (∃ k, m = n + k ∧ (coined ls).Perm (numbered n k)) ∧ declaredIn ls = [] := by
  have hlabel : ∀ label, (coined (Callee.labelCall label args result)).Perm (numbered n 0) ∧
      declaredIn (Callee.labelCall label args result) = [] := by
    intro label
    rw [coined_eq_nil fun _ => coined?_labelCall]
    exact ⟨.refl _, declaredIn_eq_nil fun _ => declared?_labelCall⟩
  cases c with
  | command c =>
    cases h
    exact ⟨⟨0, rfl, .refl _⟩, rfl⟩
  | function f =>
    cases h
    exact ⟨⟨0, rfl, (hlabel f.label).1⟩, (hlabel f.label).2⟩
  | placeholder q =>
    cases h
    exact ⟨⟨0, rfl, (hlabel q.label).1⟩, (hlabel q.label).2⟩
  | messageBox =>
    refine ⟨MessageBoxLines.coined_lines h, declaredIn_eq_nil fun l hl => ?_⟩
    exact declared?_of_isPlain ((MessageBoxLines.lines_eq_ok h).2 l hl).1

theorem coins_emitLines (c : Callee) (args : List Operand) (result : Option Variable) :
    Coins (emitLines c args result) := by
  intro w hs
  unfold emitLines
  rw [exec_bind_ok (exec_declarations w), exec_bind, exec_ofExcept]
  rcases hl : c.lines args result w.declarations.generated with f | ⟨ls, m⟩
  · exact ⟨hs, .still rfl rfl, fun g hg => by cases hg; exact clear_callLines c args result _ f hl⟩
  · obtain ⟨⟨k, rfl, hc⟩, hd⟩ := coined_callLines hl
    refine ⟨?_, ⟨ls, k, rfl, rfl, hc, fun v hv => ?_⟩, fun g hg => by cases hg⟩
    · exact hs.ofCallees rfl (Nat.le_add_right _ _) rfl rfl hs.callees
    · rw [hd] at hv
      cases hv

theorem coins_emitCall (c : Callee) (args : List Operand) (result : Option Variable) :
    Coins (emitCall c args result) := by
  unfold emitCall
  split
  · exact .bind coins_discarded fun v => coins_emitLines c args _
  · refine .bind (emits (fun _ h => h) (by simp [Instr.coined?, Instr.declared?])) fun _ => ?_
    refine .bind (coins_emitLines c args _) fun _ => ?_
    exact emits (fun _ h => h) (by simp [Instr.coined?, Instr.declared?])
  · dsimp only
    split
    · exact .bind coins_ensureRegister fun _ => coins_emitLines c args _
    · exact coins_emitLines c args _

/-! ### Expressions -/

section Parts

variable {expression call : Word → Compile Operand}
  {arguments : Callee → Option Variable → Compile (List Operand)}

theorem coins_chain (hcall : ∀ word, Coins (call word)) (n : Nat) (left : Operand) :
    Coins (chain call n left) := by
  induction n generalizing left with
  | zero =>
    unfold chain
    refine .bind (.read fun _ => rfl) fun t => ?_
    split
    · exact .pure _
    · exact .fail rfl
  | succ n ih =>
    unfold chain
    refine .bind (.read fun _ => rfl) fun t => ?_
    split
    · exact .pure _
    · refine .bind coins_nextWord fun word => .bind (.read fun _ => rfl) fun t => ?_
      dsimp only
      split
      · exact .bind (hcall word) fun right => ih _
      · exact .bind (coins_resolve word) fun right => ih _

theorem coins_concatenation (hcall : ∀ word, Coins (call word)) (left : Operand) :
    Coins (concatenation call left) :=
  .bind (.read fun _ => rfl) fun n => coins_chain hcall n left

theorem coins_argumentList (hexpr : ∀ word, Coins (expression word)) (n : Nat) :
    Coins (argumentList expression n) := by
  induction n with
  | zero => exact .fail rfl
  | succ n ih =>
    unfold argumentList
    refine .bind coins_nextWord fun word => .bind (.read fun _ => rfl) fun t => ?_
    have hmore : ∀ x, Coins (do
        let t ← tail
        if (t.separates && !t.isClosing) = true then do
          let xs ← argumentList expression n
          pure (x :: xs)
        else pure [x]) := by
      intro x
      refine .bind (.read fun _ => rfl) fun t => ?_
      split
      · exact .bind ih fun xs => .pure _
      · exact .pure _
    dsimp only
    split
    · exact .bind (hexpr word) hmore
    · exact .bind (coins_resolve word) hmore

theorem clear_checkCount (c : Callee) (n : Nat) : Clear (c.checkCount n) := by
  unfold Callee.checkCount
  split
  · split
    · exact .error rfl
    · split
      · exact .error rfl
      · exact .ok _
  · split
    · exact .error rfl
    · exact .ok _

theorem coins_recordCall (name : String) (n : Nat) :
    Coins (do setDeclarations ((← declarations).recordCall name n)) := by
  refine .of_exec (a := fun _ => ()) (g := fun w =>
    w.withDeclarations (w.declarations.recordCall name n)) fun w hs =>
    ⟨rfl, ?_, .still rfl Declarations.generated_recordCall⟩
  unfold Declarations.recordCall
  split
  · next q hq =>
    obtain ⟨hname, hlabel⟩ := hs.placeholder hq
    exact hs.putCallee rfl rfl rfl ⟨hname, hlabel⟩
  · exact hs

theorem coins_closeArguments (c : Callee) (args : List Operand) : Coins (closeArguments c args) := by
  unfold closeArguments
  refine .bind (.read fun _ => rfl) fun t => ?_
  dsimp only
  split
  · exact .fail_bind rfl
  refine .bind (.of_exec (a := fun _ => ()) fun w hs => ⟨rfl, hs, .still rfl rfl⟩) fun _ => ?_
  refine .bind (.ofExcept (clear_checkCount c _)) fun _ => ?_
  split
  · next q =>
    rw [← bind_assoc]
    exact .bind (coins_recordCall q.name args.length) fun _ => .pure _
  · exact .pure _

theorem coins_argumentsWith (hexpr : ∀ word, Coins (expression word)) (c : Callee)
    (result : Option Variable) : Coins (argumentsWith expression c result) := by
  rw [argumentsWith_eq]
  dsimp only
  split
  · exact .fail_bind rfl
  refine .bind (.read fun _ => rfl) fun t => ?_
  split
  · exact .bind (.pure _) fun args => coins_closeArguments c args
  · refine .bind (.read fun _ => rfl) fun n => ?_
    exact .bind (coins_argumentList hexpr n) fun args => coins_closeArguments c args

theorem coins_callWith (hargs : ∀ c result, Coins (arguments c result)) (word : Word)
    (result : Option Variable) : Coins (callWith arguments word result) := by
  unfold callWith
  refine .bind (coins_introduce word) fun c => .bind (coins_noteCall word c result) fun _ => ?_
  exact .bind (coins_nested (hargs c result)) fun args => coins_emitCall c args result

theorem coins_heldCall (hargs : ∀ c result, Coins (arguments c result)) (word : Word) :
    Coins (heldCall arguments word) := by
  unfold heldCall
  refine .bind coins_declareTemporary fun v => .bind (notes fun _ h => h) fun _ => ?_
  exact .bind (coins_callWith hargs word _) fun _ => .pure _

end Parts

theorem coins_expression_and_arguments (n : Nat) :
    (∀ word, Coins (expression n word)) ∧ ∀ c result, Coins (arguments n c result) := by
  induction n with
  | zero => exact ⟨fun _ => .fail rfl, fun _ _ => .fail rfl⟩
  | succ n ih =>
    obtain ⟨hexpr, hargs⟩ := ih
    have hcall := coins_heldCall hargs
    refine ⟨fun word => coins_nested ?_, coins_argumentsWith hexpr⟩
    refine .bind (.read fun _ => rfl) fun t => ?_
    split
    · exact .bind (hcall word) (coins_concatenation hcall)
    · split
      · exact .bind (coins_resolve word) (coins_concatenation hcall)
      · exact coins_resolve word

theorem coins_value (word : Word) : Coins (value word) := (coins_expression_and_arguments levels).1 word

theorem coins_callInto (word : Word) (result : Option Variable) : Coins (callInto word result) :=
  coins_callWith (coins_expression_and_arguments levels).2 word result

theorem coins_valueFrom (left : Operand) : Coins (valueFrom left) :=
  coins_concatenation (coins_heldCall (coins_expression_and_arguments levels).2) left

/-! ### Conditions -/

theorem coins_openTerm (o : Opener) : Coins (openTerm o) := by
  unfold openTerm
  refine .bind coins_nextWord fun word => ?_
  split
  · exact .bind coins_nextWord fun word => .bind (coins_value word) fun x => .pure _
  · exact .bind (coins_value word) fun x => .pure _

theorem coins_moreTerms (n : Nat) (ts : List Term) (opened : List Nat) :
    Coins (moreTerms n ts opened) := by
  fun_induction moreTerms n ts opened with
  | case1 => exact .pure _
  | case2 ts i outer =>
    refine .bind (.read fun _ => rfl) fun t => ?_
    split
    · exact .fail rfl
    · exact .pure ts
  | case3 n ts i outer ihCompare ihOpen ihLeft =>
    refine .bind (.read fun _ => rfl) fun t => ?_
    split
    · refine .bind (.read fun _ => rfl) fun b => ?_
      dsimp only
      split
      · exact .fail_bind rfl
      exact .bind coins_nextWord fun word => .bind (coins_value word) fun x => ihCompare _ x
    · refine .bind (.read fun _ => rfl) fun b => ?_
      split
      · exact .pure ts
      refine .bind coins_nextWord fun word => ?_
      split
      · next o _ => exact .bind (coins_openTerm o) ihOpen
      · exact .bind (coins_value word) ihLeft

theorem coins_condition (o : Opener) : Coins (condition o) :=
  coins_nested (.bind (coins_openTerm o) fun t =>
    .bind (.read fun _ => rfl) fun n => coins_moreTerms n [t] [0])

theorem coins_moreConditions (n : Nat) : Coins (moreConditions n) := by
  induction n with
  | zero => exact .pure []
  | succ n ih =>
    unfold moreConditions
    refine .bind (.read fun _ => rfl) fun b => ?_
    split
    · exact .pure []
    refine .bind coins_nextWord fun word => ?_
    split
    · next o _ => exact .bind (coins_condition o) fun ts => .bind ih fun us => .pure _
    · exact .fail rfl

theorem coins_branch (word : Word) : Coins (branch word) := by
  unfold branch
  split
  · exact .fail rfl
  · next o _ =>
    have hterms : Coins (conditions o) := .bind (coins_condition o) fun ts =>
      .bind (.read fun _ => rfl) fun n => .bind (coins_moreConditions n) fun us => .pure _
    refine .bind hterms fun ts => emits (fun _ h => h) fun l hl => ?_
    obtain ⟨t, -, rfl⟩ := List.mem_map.mp hl
    exact ⟨rfl, rfl⟩

theorem coins_emit_one {i : Instr} (h : i.coined? = none ∧ i.declared? = none) :
    Coins (emit [⟨0, i⟩]) := by
  refine emits (fun _ h => h) fun l hl => ?_
  rw [List.mem_singleton.mp hl]
  exact h

theorem coins_loop (name : String) : Coins (loop name) := by
  unfold loop
  refine .bind (.read fun _ => rfl) fun b => ?_
  split
  · exact coins_emit_one ⟨rfl, rfl⟩
  refine .bind coins_nextWord fun word => ?_
  split
  · exact .fail rfl
  next o _ =>
  refine .bind (coins_condition o) fun ts => ?_
  split
  · refine .bind (.read fun _ => rfl) fun b => ?_
    dsimp only
    split
    · exact .fail_bind rfl
    split
    · exact .fail_bind rfl
    · exact coins_emit_one ⟨rfl, rfl⟩
  · exact .fail rfl

end Compile

end InstallScript
