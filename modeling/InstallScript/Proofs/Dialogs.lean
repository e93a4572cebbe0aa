import InstallScript.Proofs.Execution
import InstallScript.Proofs.GeneratedNames

/-!
Message boxes at work. The lines of a message box jump, so they are executed with the whole program at
hand: `Platform.Finishes` carries out one line after the other, goes on at a label after a jump, and is
done behind the last line. Whatever button of the box is pressed, the variable for the result gets the
name of the button, once, and execution leaves at the end (`message_box_answers_button`).
-/

namespace InstallScript

/-! ## Lines that jump -/

/-- The label that stands on the line. -/
def Instr.label? : Instr → Option String
  | label l => some l
  | _ => none

/-- The labels that the instruction can jump to. -/
def Instr.targets : Instr → List String
  | jump l => [l]
  | dialog d => d.jumps.map Prod.snd
  | _ => []

/-- The variables that the instruction gives a value. -/
def Instr.assigned : Instr → List Variable
  | copy v _ | copyUnlessErrors v _ | pop v => [v]
  | perform p args => (p.split args).2.toList
  | _ => []

/-- The lines from a label on. -/
def fromLabel? (l : String) : List Instr → Option (List Instr)
  | [] => none
  | i :: is => if i = .label l then some (i :: is) else fromLabel? l is

namespace Platform

/-- Carries out an instruction with `rest` behind it, and says with which lines execution goes on. A
message box goes on at the label given for the button that is pressed, if there is one. -/
def step? (m : Platform) (program : List Instr) (pressed : Button) (i : Instr) (rest : List Instr)
    (μ : Memory) : Option (List Instr × Memory) :=
  match i with
  | .label _ => some (rest, μ)
  | .jump l => (fromLabel? l program).map (·, μ)
  | .dialog d => ((d.jumps.lookup pressed).elim (some rest) (fromLabel? · program)).map (·, μ)
  | i => (m.exec? i μ).map (rest, ·)

/-- From the lines `code` on, execution gets behind the last line of the program. It carries out the
instructions `trace` on its way, and changes the memory from `μ` to `μ'`. -/
inductive Finishes (m : Platform) (program : List Instr) (pressed : Button) :
    (code : List Instr) → (μ : Memory) → (trace : List Instr) → (μ' : Memory) → Prop
  | done {μ : Memory} : Finishes m program pressed [] μ [] μ
  | step {i : Instr} {rest code : List Instr} {μ μ' μ'' : Memory} {trace : List Instr} :
      m.step? program pressed i rest μ = some (code, μ') →
      Finishes m program pressed code μ' trace μ'' →
      Finishes m program pressed (i :: rest) μ (i :: trace) μ''

end Platform

/-- A label is found behind lines that do not have it. -/
theorem fromLabel?_append {l : String} {before : List Instr} (h : .label l ∉ before)
    (after : List Instr) : fromLabel? l (before ++ .label l :: after) = some (.label l :: after) := by
  induction before with
  | nil => exact if_pos rfl
  | cons i before ih =>
    rw [List.mem_cons, not_or] at h
    rw [List.cons_append, fromLabel?, if_neg (Ne.symm h.1), ih h.2]

/-- Where labels differ from each other, a jump can lead to one line only. -/
theorem fromLabel?_of_nodup {l : String} {before after : List Instr}
    (h : ((before ++ .label l :: after).filterMap Instr.label?).Nodup) :
    fromLabel? l (before ++ .label l :: after) = some (.label l :: after) := by
  refine fromLabel?_append (fun hmem => ?_) after
  rw [List.filterMap_append] at h
  exact List.disjoint_of_nodup_append h (List.mem_filterMap.mpr ⟨_, hmem, rfl⟩)
    (List.mem_filterMap.mpr ⟨_, List.mem_cons_self, rfl⟩)

/-! ## Buttons -/

/-- The buttons that the name of the group spells out. -/
def ButtonGroup.Shows (g : ButtonGroup) (b : Button) : Prop :=
  ∃ bs : List Button, String.join (bs.map Button.write) = g.write ∧ b ∈ bs

namespace Button

/-- The names of the buttons differ in their first letters. -/
theorem eq_of_head? {b c : Button} (h : b.write.toList.head? = c.write.toList.head?) : b = c := by
  revert h
  cases b <;> cases c <;> decide

theorem write_ne_nil (b : Button) : b.write.toList ≠ [] := by cases b <;> decide

/-- What buttons spell out together can be taken apart in one way. -/
theorem join_write_inj {bs cs : List Button}
    (h : bs.flatMap (·.write.toList) = cs.flatMap (·.write.toList)) : bs = cs := by
  induction bs generalizing cs with
  | nil =>
    cases cs with
    | nil => rfl
    | cons c cs => exact absurd (List.append_eq_nil_iff.mp h.symm).1 c.write_ne_nil
  | cons b bs ih =>
    cases cs with
    | nil => exact absurd (List.append_eq_nil_iff.mp h).1 b.write_ne_nil
    | cons c cs =>
      rw [List.flatMap_cons, List.flatMap_cons] at h
      have hhead := congrArg List.head? h
      rw [List.head?_append_of_ne_nil _ b.write_ne_nil,
        List.head?_append_of_ne_nil _ c.write_ne_nil] at hhead
      cases eq_of_head? hhead
      rw [ih (List.append_cancel_left h)]

/-- No name of a button is read as anything but itself. -/
theorem dollar_not_mem (b : Button) : '$' ∉ b.write.toList := by cases b <;> decide

end Button

namespace ButtonGroup

/-- The buttons with and without jumps are those that the name spells out. -/
theorem shows_iff (g : ButtonGroup) (b : Button) : g.Shows b ↔ b ∈ g.buttons := by
  have hspelled : ∃ bs : List Button, String.join (bs.map Button.write) = g.write ∧
      ∀ b, b ∈ bs ↔ b ∈ g.buttons := by
    cases g with
    | ok => exact ⟨[.ok], by decide, fun b => Iff.rfl⟩
    | okCancel => exact ⟨[.ok, .cancel], by decide, fun b => Iff.rfl⟩
    | abortRetryIgnore => exact ⟨[.abort, .retry, .ignore], by decide, fun b => by cases b <;> decide⟩
    | retryCancel => exact ⟨[.retry, .cancel], by decide, fun b => Iff.rfl⟩
    | yesNo => exact ⟨[.yes, .no], by decide, fun b => Iff.rfl⟩
    | yesNoCancel => exact ⟨[.yes, .no, .cancel], by decide, fun b => Iff.rfl⟩
  obtain ⟨bs, hbs, hmem⟩ := hspelled
  refine ⟨fun ⟨cs, hcs, hb⟩ => ?_, fun hb => ⟨bs, hbs, (hmem b).mpr hb⟩⟩
  have hchars := congrArg String.toList (hcs.trans hbs.symm)
  rw [String.toList_join, String.toList_join, List.flatMap_map, List.flatMap_map] at hchars
  rw [Button.join_write_inj hchars] at hb
  exact (hmem b).mp hb

end ButtonGroup

/-! ## The lines of a message box -/

namespace MessageBox

variable {g : ButtonGroup} {d : Dialog} {v : Variable} {n : Nat}

theorem labelName_inj {m n : Nat} (h : labelName m = labelName n) : m = n := by
  refine Names.generated_inj ?_
  rw [← numbering_labelName, h, numbering_labelName]

/-- The buttons with jumps and their labels. -/
def ways (g : ButtonGroup) (n : Nat) : List (Button × String) :=
  g.jumping.zipIdx.map fun (b, i) => (b, labelName (n + 1 + i))

/-- The instructions on the way on for a button with a jump. -/
def way (v : Variable) (exit : String) (jump : Button × String) : List Instr :=
  [.label jump.2, .copy v (.button jump.1.write), .jump exit]

theorem instrs_answer : (answer g d v n).map Line.instr =
    .dialog { d with jumps := ways g n } :: .copy v (.ofText g.through.write) :: .jump (labelName n) ::
      ((ways g n).flatMap (way v (labelName n)) ++ [.label (labelName n)]) := by
  simp only [answer, List.map_cons, List.map_append, List.map_flatMap, List.cons_append]
  rfl

theorem keys_ways (g : ButtonGroup) (n : Nat) : (ways g n).map Prod.fst = g.jumping := by
  rw [ways, List.map_map]
  exact List.zipIdx_map_fst 0 g.jumping

theorem labels_ways (g : ButtonGroup) (n : Nat) :
    (ways g n).map Prod.snd = (List.range g.jumping.length).map fun i => labelName (n + 1 + i) := by
  rw [List.range_eq_range', ← List.zipIdx_map_snd, ways, List.map_map, List.map_map]
  rfl

theorem labels_flatMap_way (v : Variable) (exit : String) (js : List (Button × String)) :
    (js.flatMap (way v exit)).filterMap Instr.label? = js.map Prod.snd := by
  induction js with
  | nil => rfl
  | cons j js ih =>
    rw [List.flatMap_cons, List.filterMap_append, ih]
    rfl

theorem labels_answer : ((answer g d v n).map Line.instr).filterMap Instr.label? =
    (ways g n).map Prod.snd ++ [labelName n] := by
  rw [instrs_answer, ← labels_flatMap_way v (labelName n)]
  exact List.filterMap_append

/-- No label of a message box stands on two lines. -/
theorem nodup_labels_answer :
    (((answer g d v n).map Line.instr).filterMap Instr.label?).Nodup := by
  rw [labels_answer, labels_ways]
  refine List.Nodup.append ?_ (List.nodup_singleton _) ?_
  · exact List.nodup_range.map fun i j h => Nat.add_left_cancel (labelName_inj h)
  · intro l hl hn
    obtain ⟨i, -, rfl⟩ := List.mem_map.mp hl
    have := labelName_inj (List.mem_singleton.mp hn)
    omega

theorem fromLabel?_exit :
    fromLabel? (labelName n) ((answer g d v n).map Line.instr) = some [.label (labelName n)] := by
  have hnodup := nodup_labels_answer (g := g) (d := d) (v := v) (n := n)
  rw [instrs_answer, ← List.cons_append, ← List.cons_append, ← List.cons_append] at hnodup ⊢
  exact fromLabel?_of_nodup hnodup

/-- The label of a button leads to the answer for this button. -/
theorem fromLabel?_way {b : Button} {l : String} {before after : List (Button × String)}
    (h : ways g n = before ++ (b, l) :: after) :
    fromLabel? l ((answer g d v n).map Line.instr) =
      some (.label l :: .copy v (.button b.write) :: .jump (labelName n) ::
        (after.flatMap (way v (labelName n)) ++ [.label (labelName n)])) := by
  have hnodup := nodup_labels_answer (g := g) (d := d) (v := v) (n := n)
  have hinstrs : (answer g d v n).map Line.instr = (.dialog { d with jumps := ways g n } ::
      .copy v (.ofText g.through.write) :: .jump (labelName n) ::
        before.flatMap (way v (labelName n))) ++ .label l :: .copy v (.button b.write) ::
          .jump (labelName n) :: (after.flatMap (way v (labelName n)) ++ [.label (labelName n)]) := by
    rw [instrs_answer]
    simp only [h, List.flatMap_append, List.flatMap_cons, way, List.cons_append, List.append_assoc,
      List.nil_append]
  rw [hinstrs] at hnodup ⊢
  exact fromLabel?_of_nodup hnodup

/-- Jumps lead to labels of the message box. -/
theorem mem_labels_of_mem_targets {l : String}
    (h : l ∈ ((answer g d v n).map Line.instr).flatMap Instr.targets) :
    l ∈ ((answer g d v n).map Line.instr).filterMap Instr.label? ∧ ∃ k, l = labelName k := by
  have hway : ∀ p ∈ ways g n, ∃ k, p.2 = labelName k := by
    intro p hp
    obtain ⟨q, -, rfl⟩ := List.mem_map.mp hp
    exact ⟨_, rfl⟩
  rw [labels_answer, List.mem_append, List.mem_singleton]
  rw [instrs_answer] at h
  obtain ⟨i, hi, hl⟩ := List.mem_flatMap.mp h
  simp only [List.mem_cons, List.mem_append, List.mem_flatMap, way, List.not_mem_nil, or_false] at hi
  rcases hi with rfl | rfl | rfl | ⟨p, hp, rfl | rfl | rfl⟩ | rfl
  · obtain ⟨p, hp, rfl⟩ := List.mem_map.mp hl
    exact ⟨.inl (List.mem_map_of_mem hp), hway p hp⟩
  · cases hl
  · cases List.mem_singleton.mp hl
    exact ⟨.inr rfl, n, rfl⟩
  · cases hl
  · cases hl
  · cases List.mem_singleton.mp hl
    exact ⟨.inr rfl, n, rfl⟩
  · cases hl

theorem append_ne_label {s : String} {c : Char} (hs : s.toList.head? = some c) (hc : c ≠ 'm')
    (t : String) (k : Nat) : s ++ t ≠ labelName k ++ ":" := by
  intro he
  have hm : (labelName k ++ ":").toList.head? = some 'm' := by
    rw [labelName, String.append_assoc, String.toList_append]
    rfl
  rw [← he, String.toList_append, List.head?_append, hs] at hm
  exact hc (Option.some.inj hm)

/-- Among the lines of a message box only a label is written like one. The others begin with a capital
letter. -/
theorem write_eq_label_iff {i : Instr} (h : i ∈ (answer g d v n).map Line.instr) (k : Nat) :
    i.write = labelName k ++ ":" ↔ i.label? = some (labelName k) := by
  have hdialog : ∀ d, (Instr.dialog d).write ≠ labelName k ++ ":" := by
    intro d
    change d.write ≠ _
    simp only [Dialog.write, String.append_assoc]
    exact append_ne_label rfl (by decide) _ k
  have hcopy : ∀ x, (Instr.copy v x).write ≠ labelName k ++ ":" := by
    intro x
    change "StrCpy " ++ v.value ++ " " ++ x.write ≠ _
    rw [String.append_assoc, String.append_assoc]
    exact append_ne_label rfl (by decide) _ k
  have hjump : ∀ l, (Instr.jump l).write ≠ labelName k ++ ":" :=
    fun l => append_ne_label rfl (by decide) l k
  have hlabel : ∀ l, (Instr.label l).write = labelName k ++ ":" ↔ some l = some (labelName k) :=
    fun l => (String.append_left_inj ":").trans Option.some_inj.symm
  rw [instrs_answer] at h
  simp only [List.mem_cons, List.mem_append, List.mem_flatMap, way, List.not_mem_nil, or_false] at h
  rcases h with rfl | rfl | rfl | ⟨p, -, rfl | rfl | rfl⟩ | rfl
  · exact iff_of_false (hdialog _) (by rintro ⟨⟩)
  · exact iff_of_false (hcopy _) (by rintro ⟨⟩)
  · exact iff_of_false (hjump _) (by rintro ⟨⟩)
  · exact hlabel _
  · exact iff_of_false (hcopy _) (by rintro ⟨⟩)
  · exact iff_of_false (hjump _) (by rintro ⟨⟩)
  · exact hlabel _

/-- A jump leads to a label that stands on one line. -/
theorem countP_label {l : String} (h : l ∈ ((answer g d v n).map Line.instr).flatMap Instr.targets) :
    ((answer g d v n).map Line.instr).countP (·.write = l ++ ":") = 1 := by
  obtain ⟨hmem, k, rfl⟩ := mem_labels_of_mem_targets h
  rw [← List.count_eq_one_of_mem nodup_labels_answer hmem, List.count, List.countP_filterMap]
  refine List.countP_congr fun i hi => ?_
  rw [decide_eq_true_iff, write_eq_label_iff hi]
  cases i.label? <;> simp

end MessageBox

/-! ### Pressing a button -/

section Pressing

variable {m : Platform} {program rest : List Instr} {pressed : Button} {v : Variable} {x : Operand}
  {exit : String} {μ : Memory}

/-- A button without a label goes on behind the box. -/
theorem Platform.step?_dialog_of_none {d : Dialog} (h : d.jumps.lookup pressed = none) :
    m.step? program pressed (.dialog d) rest μ = some (rest, μ) := by
  rw [step?, h]
  rfl

theorem Platform.step?_dialog_of_some {d : Dialog} {l : String} {code : List Instr}
    (h : d.jumps.lookup pressed = some l) (hl : fromLabel? l program = some code) :
    m.step? program pressed (.dialog d) rest μ = some (code, μ) := by
  rw [step?, h, Option.elim_some, hl]
  rfl

/-- Each way on from a message box ends alike: the answer is given, and the common end reached. -/
theorem Platform.Finishes.answer (hx : x.eval m μ.values = pressed.write)
    (hexit : fromLabel? exit program = some [.label exit]) :
    m.Finishes program pressed (.copy v x :: .jump exit :: rest) μ
      [.copy v x, .jump exit, .label exit] (μ.set v pressed.write) := by
  rw [← hx]
  refine .step rfl (.step ?_ (.step rfl .done))
  rw [step?, hexit]
  rfl

theorem Button.eval_write (b : Button) (σ : Variable → String) :
    (Operand.button b.write).eval m σ = b.write ∧ (Operand.ofText b.write).eval m σ = b.write := by
  have hunquoted : Text.unquote (Text.quote b.write) = b.write := by
    simp [Text.unquote, Text.quote, Text.unquoteChars, Text.isQuote]
  have hplain : '$' ∉ (Text.unquote (Text.quote b.write)).toList := by
    rw [hunquoted]
    exact b.dollar_not_mem
  constructor
  · exact String.join_cons.trans (String.append_empty.trans (m.read_of_not_mem _ σ b.dollar_not_mem))
  · exact (Operand.eval_literal hplain).trans hunquoted

/-- Whatever button is pressed, its name is assigned once, and execution leaves over the last line. -/
theorem MessageBox.finishes_answer {g : ButtonGroup} {n : Nat} (d : Dialog)
    (h : pressed ∈ g.buttons) (m : Platform) (μ : Memory) :
    let program := (answer g d v n).map Line.instr
    ∃ trace, m.Finishes program pressed program μ trace (μ.set v pressed.write) ∧
      trace.flatMap Instr.assigned = [v] ∧ trace.getLast? = program.getLast? := by
  intro program
  have hprogram : program = _ := instrs_answer
  have hlast : program.getLast? = some (.label (labelName n)) := by
    rw [hprogram, ← List.cons_append, ← List.cons_append, ← List.cons_append, List.getLast?_concat]
  have hexit : fromLabel? (labelName n) program = some [.label (labelName n)] := fromLabel?_exit
  cases hway : (ways g n).lookup pressed with
  | none =>
    have hthrough : g.through = pressed := by
      refine ((List.mem_cons.mp h).resolve_right fun hj => ?_).symm
      rw [← keys_ways g n] at hj
      obtain ⟨p, hp, rfl⟩ := List.mem_map.mp hj
      simpa using List.lookup_eq_none_iff.mp hway p hp
    have hx := (pressed.eval_write (m := m) μ.values).2
    refine ⟨.dialog { d with jumps := ways g n } :: [.copy v (.ofText pressed.write),
      .jump (labelName n), .label (labelName n)], ?_, rfl, hlast.symm⟩
    conv =>
      arg 4
      rw [hprogram, hthrough]
    exact .step (Platform.step?_dialog_of_none hway) (.answer hx hexit)
  | some l =>
    obtain ⟨before, after, hsplit, -⟩ := List.lookup_eq_some_iff.mp hway
    have hx := (pressed.eval_write (m := m) μ.values).1
    have hlabel := fromLabel?_way (d := d) (v := v) hsplit
    refine ⟨.dialog { d with jumps := ways g n } :: .label l :: [.copy v (.button pressed.write),
      .jump (labelName n), .label (labelName n)], ?_, rfl, hlast.symm⟩
    conv =>
      arg 4
      rw [hprogram]
    exact .step (Platform.step?_dialog_of_some hway hlabel) (.step rfl (.answer hx hexit))

end Pressing

/-! ## Labels over a run -/

/-- The labels that stand on the lines. -/
def labelsIn (ls : List Line) : List String := (ls.map Line.instr).filterMap Instr.label?

theorem Instr.eq_label {i : Instr} {l : String} (h : i.label? = some l) : i = .label l := by
  cases i with
  | label l' => exact congrArg _ (Option.some.inj h)
  | _ => cases h

/-- Each label takes a number of its own. -/
theorem numbering_labelsIn_sublist (ls : List Line) :
    ((labelsIn ls).map MessageBox.numbering).Sublist (coined ls) := by
  induction ls with
  | nil => exact .slnil
  | cons l ls ih =>
    unfold labelsIn coined at ih ⊢
    rw [List.map_cons]
    cases hl : l.instr.label? with
    | none =>
      rw [List.filterMap_cons_none hl]
      exact ih.trans ((List.sublist_cons_self l ls).filterMap _)
    | some name =>
      have hc : l.instr.coined? = some (MessageBox.numbering name) := by
        rw [Instr.eq_label hl]
        rfl
      have hcons : (l :: ls).filterMap (·.instr.coined?) = _ := List.filterMap_cons_some hc
      rw [List.filterMap_cons_some hl, hcons, List.map_cons]
      exact ih.cons_cons _

theorem nodup_labels_history (predefined : Bool) (ss : List Statement) :
    (labelsIn ((Compiler.start predefined).history ss)).Nodup := by
  obtain ⟨n, -, hperm⟩ := Compiler.coined_history (Compiler.sound_start predefined) ss
  have hcoined := hperm.nodup_iff.mpr (nodup_numbered _ n)
  exact (hcoined.sublist (numbering_labelsIn_sublist _)).of_map _

/-! ## Writing the lines -/

namespace MessageBox

variable {args : List Operand} {n m : Nat} {ls : List Line}

theorem flags_ofArguments {g : ButtonGroup} {d : Dialog} (h : ofArguments args = .ok (g, d)) :
    d.flags.head? = some g.write := by
  unfold ofArguments at h
  simp only [bind, Except.bind] at h
  split at h
  · cases h
  · split at h
    · cases h
    · split at h
      · cases h
      · cases h
        rfl

/-- The lines with a variable for the result are those of the answer, for the group that is named by the
first flag. -/
theorem lines_eq_answer {v : Variable} (h : lines args (some v) n = .ok (ls, m)) :
    ∃ g d, d.flags.head? = some g.write ∧ ls = answer g d v (n + 1) := by
  unfold lines at h
  simp only [bind, Except.bind] at h
  split at h
  · cases h
  · next gd hgd =>
    cases h
    exact ⟨gd.1, gd.2, flags_ofArguments hgd, rfl⟩

end MessageBox

theorem Compile.exec_emitLines_of_error {args : List Operand} {result : Option Variable} {f : Fault}
    {w : Work} (h : MessageBox.lines args result w.declarations.generated = .error f) :
    exec (emitLines .messageBox args result) w = (.error f, w) := by
  unfold emitLines
  rw [exec_bind_ok (exec_declarations w), exec_bind, exec_ofExcept, Callee.lines, h]

theorem Compile.generated_emitLines_none (args : List Operand) (w : Work) :
    (exec (emitLines .messageBox args none) w).2.declarations.generated = w.declarations.generated := by
  unfold emitLines
  rw [exec_bind_ok (exec_declarations w), exec_bind, exec_ofExcept, Callee.lines, MessageBox.lines]
  cases hd : MessageBox.ofArguments args with
  | error f => rfl
  | ok gd => rfl

/-- The lines of a message box, executed with any of its buttons pressed, give the name of the button to
the variable for the result, and nothing else, and leave over the last line; all jumps lead to a label on
exactly one line. Over any run of the compiler no label stands on two lines. Names are generated only
where lines with a variable for the result are written. -/
theorem message_box_answers_button :
    (∀ args v n ls m, MessageBox.lines args (some v) n = .ok (ls, m) →
      let instrs := ls.map Line.instr
      ∃ (g : ButtonGroup) (d : Dialog), instrs.head? = some (.dialog d) ∧
        d.flags.head? = some g.write ∧
        (∀ (platform : Platform) (μ : Memory) (pressed : Button), g.Shows pressed →
          ∃ trace, platform.Finishes instrs pressed instrs μ trace (μ.set v pressed.write) ∧
            trace.flatMap Instr.assigned = [v] ∧ trace.getLast? = instrs.getLast?) ∧
        ∀ l ∈ instrs.flatMap Instr.targets, instrs.countP (·.write = l ++ ":") = 1) ∧
    (∀ predefined sources, (labelsIn ((Compiler.start predefined).history (program sources))).Nodup) ∧
    ∀ args result w,
      (∀ f, MessageBox.lines args result w.declarations.generated = .error f →
        Compile.exec (Compile.emitLines .messageBox args result) w = (.error f, w)) ∧
      (result = none → (Compile.exec (Compile.emitLines .messageBox args result)
        w).2.declarations.generated = w.declarations.generated) := by
  refine ⟨fun args v n ls m h => ?_, fun predefined sources => nodup_labels_history predefined _, ?_⟩
  · obtain ⟨g, d, hflag, rfl⟩ := MessageBox.lines_eq_answer h
    refine ⟨g, { d with jumps := MessageBox.ways g (n + 1) }, ?_, hflag, ?_, ?_⟩
    · rw [MessageBox.instrs_answer]
      rfl
    · intro platform μ pressed hshown
      exact MessageBox.finishes_answer d ((g.shows_iff pressed).mp hshown) platform μ
    · exact fun l => MessageBox.countP_label
  · intro args result w
    refine ⟨fun f => Compile.exec_emitLines_of_error, ?_⟩
    rintro rfl
    exact Compile.generated_emitLines_none args w

/-- A message box with three buttons, of which the last one is pressed. -/
theorem message_box_answers_button_of_cancel :
    let args : List Operand := [.literal "\"YesNoCancel\"", .literal "'Go on?'"]
    let v : Variable := ⟨"x", .global, none⟩
    ∃ ls, MessageBox.lines args (some v) 4 = .ok (ls, 7) ∧
      ∀ (platform : Platform) (μ : Memory), ∃ trace,
        platform.Finishes (ls.map Line.instr) .cancel (ls.map Line.instr) μ trace (μ.set v "CANCEL") ∧
          trace.flatMap Instr.assigned = [v] := by
  intro args v
  have hlines : ∃ ls, MessageBox.lines args (some v) 4 = .ok (ls, 7) ∧
      ∀ d, (ls.map Line.instr).head? = some (.dialog d) → d.flags.head? = some "YESNOCANCEL" := by
    refine ⟨_, rfl, ?_⟩
    rintro d ⟨⟩
    rfl
  obtain ⟨ls, h, hname⟩ := hlines
  obtain ⟨g, d, hhead, hflag, hrun, -⟩ := message_box_answers_button.1 args v 4 ls 7 h
  have hshown : g.Shows .cancel := by
    refine ⟨[.yes, .no, .cancel], ?_, by decide⟩
    rw [← Option.some.inj ((hname d hhead).symm.trans hflag)]
    decide
  refine ⟨ls, h, fun platform μ => ?_⟩
  obtain ⟨trace, hfinishes, hassigned, -⟩ := hrun platform μ .cancel hshown
  exact ⟨trace, hfinishes, hassigned⟩

end InstallScript
