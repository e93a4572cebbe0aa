import InstallScript.Proofs.Caseless
import InstallScript.Proofs.LetterCase

/-!
Names are the same in upper and lower case, in all that a script can say. Two runs over statements that
differ in the case of names go the same way (`Compiler.steps_alike`): each place that reads a name reads
it in lower case, and the labels of functions are read nowhere. So both runs are the same but for what
`caseless` changes (`names_are_caseless`).
-/

namespace InstallScript

/-! ## Actions that go the same way -/

/-- Both results are values, and related, or both are faults that differ in case only. -/
inductive Results {α β : Type} (R : α → β → Prop) : Except Fault α → Except Fault β → Prop
  | ok {a : α} {b : β} : R a b → Results R (.ok a) (.ok b)
  | error {f f' : Fault} : f.caseless = f'.caseless → Results R (.error f) (.error f')

theorem Results.refl {α : Type} (r : Except Fault α) : Results Eq r r := by
  cases r with
  | error f => exact .error rfl
  | ok a => exact .ok rfl

theorem Results.of_map {α β : Type} {φ : α → β} {r r' : Except Fault α} (h : r.map φ = r'.map φ) :
    Results (fun a a' => φ a = φ a') r r' := by
  cases r with
  | error f =>
    cases r' with
    | error f' => exact .error (congrArg Fault.caseless (Except.error.inj h))
    | ok a' => cases h
  | ok a =>
    cases r' with
    | error f' => cases h
    | ok a' => exact .ok (Except.ok.inj h)

theorem Function.checkCount_alike {f f' : Function} (h : f.caseless = f'.caseless) (n : Nat) :
    Results Eq (f.checkCount n) (f'.checkCount n) := by
  obtain ⟨-, hlabel, hparams, -⟩ := caseless_eq_iff.mp h
  unfold checkCount
  rw [← hparams]
  split
  · exact .error (congrArg (Fault.tooFew · f.params.length n) hlabel)
  split
  · exact .error (congrArg (Fault.tooMany · f.params.length n) hlabel)
  · exact .ok rfl

theorem Function.checkEarlier_alike {f f' : Function} (h : f.caseless = f'.caseless) :
    Results Eq f.checkEarlier f'.checkEarlier := by
  unfold checkEarlier
  rw [← (caseless_eq_iff.mp h).2.2.2.2]
  induction f.earlier with
  | nil => exact .ok rfl
  | cons n ns ih =>
    show Results Eq (f.checkCount n >>= fun _ => ns.forM f.checkCount)
      (f'.checkCount n >>= fun _ => ns.forM f'.checkCount)
    have hcount := checkCount_alike h n
    generalize f.checkCount n = r at hcount ⊢
    generalize f'.checkCount n = r' at hcount ⊢
    cases hcount with
    | ok _ => exact ih
    | error hf => exact .error hf

/-- The same words lie ahead but for case, and the same has been done so far. -/
structure Work.Alike (w w' : Work) : Prop where
  compiler : w.compiler.caseless = w'.compiler.caseless
  tail : w.cursor.tail = w'.cursor.tail
  ahead : List.Forall₂ Token.Alike w.cursor.ahead w'.cursor.ahead
  lines : w.lines.map Line.caseless = w'.lines.map Line.caseless
  notes : w.notes.map Note.caseless = w'.notes.map Note.caseless

namespace Work.Alike

variable {w w' : Work}

theorem declarations (h : w.Alike w') : w.declarations.caseless = w'.declarations.caseless :=
  congrArg Compiler.declarations h.compiler

theorem current (h : w.Alike w') : w.compiler.current = w'.compiler.current :=
  (Compiler.caseless_eq_iff.mp h.compiler).2.1

theorem depth (h : w.Alike w') : w.compiler.depth = w'.compiler.depth :=
  (Compiler.caseless_eq_iff.mp h.compiler).2.2.2.2

theorem discarded (h : w.Alike w') : w.compiler.discarded = w'.compiler.discarded :=
  (Compiler.caseless_eq_iff.mp h.compiler).2.2.1

theorem register (h : w.Alike w') : w.compiler.register = w'.compiler.register :=
  (Compiler.caseless_eq_iff.mp h.compiler).2.2.2.1

theorem hasNext (h : w.Alike w') : w.cursor.hasNext = w'.cursor.hasNext := by
  have hlen := h.ahead.length_eq
  rw [Cursor.hasNext, Cursor.hasNext]
  cases ha : w.cursor.ahead <;> cases ha' : w'.cursor.ahead <;> simp_all

end Work.Alike

namespace Compile

variable {α β γ δ : Type} {act : Compile α} {act' : Compile β} {k : α → Compile γ} {k' : β → Compile δ}
  {R : α → β → Prop} {S : γ → δ → Prop}

/-- From works that are alike the actions come to results that are, and to works that are alike. -/
def Agrees (R : α → β → Prop) (act : Compile α) (act' : Compile β) : Prop :=
  ∀ w w' : Work, w.Alike w' →
    Results R (exec act w).1 (exec act' w').1 ∧ (exec act w).2.Alike (exec act' w').2

namespace Agrees

protected theorem pure {a : α} {b : β} (h : R a b) : Agrees R (pure a) (pure b) :=
  fun _ _ hw => ⟨.ok h, hw⟩

protected theorem fail {f f' : Fault} (h : f.caseless = f'.caseless) :
    Agrees R (fail f : Compile α) (fail f' : Compile β) :=
  fun _ _ hw => ⟨.error h, hw⟩

protected theorem bind (h : Agrees R act act') (hk : ∀ a b, R a b → Agrees S (k a) (k' b)) :
    Agrees S (act >>= k) (act' >>= k') := by
  intro w w' hw
  obtain ⟨hr, hw⟩ := h w w' hw
  rw [exec_bind, exec_bind]
  generalize exec act w = e at hr hw
  generalize exec act' w' = e' at hr hw
  obtain ⟨r, v⟩ := e
  obtain ⟨r', v'⟩ := e'
  cases hr with
  | ok hab => exact hk _ _ hab v v' hw
  | error hf => exact ⟨.error hf, hw⟩

/-- Where the first actions give the same the others go on with it. -/
theorem bind_same {act act' : Compile α} {k : α → Compile γ} {k' : α → Compile δ}
    (h : Agrees Eq act act') (hk : ∀ a, Agrees S (k a) (k' a)) : Agrees S (act >>= k) (act' >>= k') := by
  refine .bind h ?_
  rintro a _ rfl
  exact hk a

theorem fail_bind {f f' : Fault} (h : f.caseless = f'.caseless) :
    Agrees S (Compile.fail f >>= k) (Compile.fail f' >>= k') :=
  .bind (R := fun _ _ => False) (.fail h) fun _ _ h => h.elim

theorem ofExcept {r : Except Fault α} {r' : Except Fault β} (h : Results R r r') :
    Agrees R (ofExcept r) (ofExcept r') := by
  intro w w' hw
  rw [exec_ofExcept, exec_ofExcept]
  exact ⟨h, hw⟩

/-- Looking at the work. -/
theorem read {g : Work → α} {g' : Work → β} (he : ∀ w, exec act w = (.ok (g w), w))
    (he' : ∀ w, exec act' w = (.ok (g' w), w)) (h : ∀ w w', w.Alike w' → R (g w) (g' w')) :
    Agrees R act act' := by
  intro w w' hw
  rw [he, he']
  exact ⟨.ok (h w w' hw), hw⟩

/-- Changing the work. -/
theorem change {act act' : Compile Unit} {g g' : Work → Work} (he : ∀ w, exec act w = (.ok (), g w))
    (he' : ∀ w, exec act' w = (.ok (), g' w)) (h : ∀ w w', w.Alike w' → (g w).Alike (g' w')) :
    Agrees Eq act act' := by
  intro w w' hw
  rw [he, he']
  exact ⟨.ok rfl, h w w' hw⟩

protected theorem ite {p p' : Prop} [Decidable p] [Decidable p'] {other : Compile α} {other' : Compile β}
    (hp : p ↔ p') (h : p → Agrees R act act') (ho : ¬p → Agrees R other other') :
    Agrees R (if p then act else other) (if p' then act' else other') := by
  by_cases hc : p
  · rw [if_pos hc, if_pos (hp.mp hc)]
    exact h hc
  · rw [if_neg hc, if_neg (mt hp.mpr hc)]
    exact ho hc

theorem nested (h : Agrees R act act') : Agrees R (nested act) (nested act') := by
  intro w w' hw
  have hat : ∀ n, ∀ v v' : Work, v.Alike v' → (v.atDepth n).Alike (v'.atDepth n) := by
    intro n v v' hv
    refine ⟨?_, hv.tail, hv.ahead, hv.lines, hv.notes⟩
    exact congrArg (fun c : Compiler => { c with depth := n }) hv.compiler
  by_cases hd : w.compiler.depth < maxNesting
  · obtain ⟨hr, hv⟩ := h _ _ (hat (w.compiler.depth + 1) w w' hw)
    rw [exec_nested act hd, exec_nested act' (hw.depth ▸ hd), ← hw.depth, ← hv.depth]
    exact ⟨hr, hat _ _ _ hv⟩
  · have hle := Nat.le_of_not_lt hd
    rw [exec_nested_of_le act hle, exec_nested_of_le act' (hw.depth ▸ hle)]
    exact ⟨.error rfl, hw⟩

end Agrees

/-! ### Words and variables -/

theorem agrees_declarations :
    Agrees (fun d d' => d.caseless = d'.caseless) declarations declarations :=
  .read exec_declarations exec_declarations fun _ _ hw => hw.declarations

theorem agrees_current : Agrees Eq current current :=
  .read exec_current exec_current fun _ _ hw => hw.current

theorem agrees_scope : Agrees Eq scope scope :=
  .read exec_scope exec_scope fun _ _ hw => congrArg Scope.ofFunction hw.current

theorem agrees_tail : Agrees Eq tail tail := .read exec_tail exec_tail fun _ _ hw => hw.tail

theorem agrees_hasNext : Agrees Eq hasNext hasNext :=
  .read exec_hasNext exec_hasNext fun _ _ hw => hw.hasNext

theorem agrees_wordsAhead : Agrees Eq wordsAhead wordsAhead :=
  .read exec_wordsAhead exec_wordsAhead fun _ _ hw => hw.ahead.length_eq

theorem agrees_modifyCompiler {change change' : Compiler → Compiler}
    (h : ∀ c c', c.caseless = c'.caseless → (change c).caseless = (change' c').caseless) :
    Agrees Eq (modifyCompiler change) (modifyCompiler change') :=
  .change (fun _ => rfl) (fun _ => rfl) fun _ _ hw =>
    ⟨h _ _ hw.compiler, hw.tail, hw.ahead, hw.lines, hw.notes⟩

theorem agrees_setDeclarations {d d' : Declarations} (h : d.caseless = d'.caseless) :
    Agrees Eq (setDeclarations d) (setDeclarations d') :=
  agrees_modifyCompiler fun _ _ hc =>
    Compiler.caseless_eq_iff.mpr ⟨h, (Compiler.caseless_eq_iff.mp hc).2⟩

theorem agrees_emit {ls ls' : List Line} (h : ls.map Line.caseless = ls'.map Line.caseless) :
    Agrees Eq (emit ls) (emit ls') := by
  refine .change (fun _ => rfl) (fun _ => rfl) fun w w' hw => ?_
  refine ⟨hw.compiler, hw.tail, hw.ahead, ?_, hw.notes⟩
  show (w.lines ++ ls).map _ = (w'.lines ++ ls').map _
  rw [List.map_append, List.map_append, hw.lines, h]

theorem agrees_note {n n' : Note} (h : n.caseless = n'.caseless) : Agrees Eq (note n) (note n') := by
  refine .change (fun _ => rfl) (fun _ => rfl) fun w w' hw => ?_
  refine ⟨hw.compiler, hw.tail, hw.ahead, hw.lines, ?_⟩
  show (w.notes ++ [n]).map _ = (w'.notes ++ [n']).map _
  rw [List.map_append, List.map_append, hw.notes, List.map_singleton, List.map_singleton, h]

theorem agrees_nextWord : Agrees Word.Alike nextWord nextWord := by
  intro w w' hw
  have hahead := hw.ahead
  cases ha : w.cursor.ahead with
  | nil =>
    rw [ha] at hahead
    have ha' := (List.forall₂_nil_left_iff.mp hahead)
    rw [exec_nextWord_of_none (show w.cursor.next? = none by rw [Cursor.next?, ha]),
      exec_nextWord_of_none (show w'.cursor.next? = none by rw [Cursor.next?, ha'])]
    exact ⟨.error rfl, hw⟩
  | cons t ts =>
    rw [ha] at hahead
    obtain ⟨t', ts', ht, hts, ha'⟩ := List.forall₂_cons_left_iff.mp hahead
    rw [exec_nextWord (show w.cursor.next? = some (t.word, ⟨t.tail, ts⟩) by rw [Cursor.next?, ha]),
      exec_nextWord (show w'.cursor.next? = some (t'.word, ⟨t'.tail, ts'⟩) by rw [Cursor.next?, ha'])]
    exact ⟨.ok ht.word, hw.compiler, ht.tail, hts, hw.lines, hw.notes⟩

theorem agrees_closeOne : Agrees Eq closeOne closeOne :=
  .change (fun _ => rfl) (fun _ => rfl) fun _ _ hw =>
    ⟨hw.compiler, congrArg Tail.closeOne hw.tail, hw.ahead, hw.lines, hw.notes⟩

theorem agrees_expectEnd : Agrees Eq expectEnd expectEnd := by
  refine .bind_same agrees_hasNext fun b => ?_
  exact .ite Iff.rfl (fun _ => .fail rfl) fun _ => .pure rfl

theorem agrees_register (name : String) (scope : Scope) :
    Agrees Eq (register name scope) (register name scope) := by
  refine .bind agrees_declarations fun d d' hd => ?_
  have hmap : (d.declare name scope).map (fun p => (p.1, p.2.caseless)) =
      (d'.declare name scope).map fun p => (p.1, p.2.caseless) := by
    rw [← Declarations.declare_caseless, hd, Declarations.declare_caseless]
  refine .bind (.ofExcept (.of_map hmap)) fun p p' hp => ?_
  obtain ⟨hv, hd⟩ := Prod.mk.inj hp
  exact .bind_same (agrees_setDeclarations hd) fun _ => .pure hv

theorem agrees_declare (name : String) : Agrees Eq (declare name) (declare name) := by
  refine .bind_same agrees_scope fun scope => ?_
  refine .bind_same (agrees_register name scope) fun v => ?_
  exact .bind_same (agrees_note rfl) fun _ => .bind_same (agrees_emit rfl) fun _ => .pure rfl

theorem agrees_declareTemporary : Agrees Eq declareTemporary declareTemporary := by
  refine .bind agrees_declarations fun d d' hd => ?_
  obtain ⟨hvars, hcallees, hn⟩ := Declarations.caseless_eq_iff.mp hd
  have hnext : d.generate.2.caseless = d'.generate.2.caseless :=
    Declarations.caseless_eq_iff.mpr ⟨hvars, hcallees, congrArg (· + 1) hn⟩
  have hname : d.generate.1 = d'.generate.1 := congrArg (fun n => Names.generated (n + 1)) hn
  show Agrees Eq (setDeclarations d.generate.2 >>= fun _ => declare d.generate.1)
    (setDeclarations d'.generate.2 >>= fun _ => declare d'.generate.1)
  rw [← hname]
  exact .bind_same (agrees_setDeclarations hnext) fun _ => agrees_declare _

theorem agrees_declareShared (v : Variable) : Agrees Eq (declareShared v) (declareShared v) := by
  refine .bind_same (agrees_register v.name .global) fun v => ?_
  exact .bind_same (agrees_emit rfl) fun _ => .pure rfl

theorem agrees_discarded : Agrees Eq discarded discarded := by
  refine .bind (.read exec_get exec_get fun _ _ hw => hw) fun w w' hw => ?_
  rw [← hw.discarded]
  cases w.compiler.discarded with
  | some v => exact .pure rfl
  | none =>
    refine .bind_same (agrees_declareShared _) fun v => ?_
    refine .bind_same (agrees_modifyCompiler fun c c' hc => ?_) fun _ => .pure rfl
    obtain ⟨hd, hcurrent, -, hrest⟩ := Compiler.caseless_eq_iff.mp hc
    exact Compiler.caseless_eq_iff.mpr ⟨hd, hcurrent, rfl, hrest⟩

theorem agrees_ensureRegister : Agrees Eq ensureRegister ensureRegister := by
  refine .bind (.read exec_get exec_get fun _ _ hw => hw) fun w w' hw => ?_
  refine .ite (by rw [hw.register]) (fun _ => ?_) fun _ => .pure rfl
  refine .bind_same (agrees_declareShared _) fun v => ?_
  refine agrees_modifyCompiler fun c c' hc => ?_
  obtain ⟨hd, hcurrent, hdiscarded, -, hdepth⟩ := Compiler.caseless_eq_iff.mp hc
  exact Compiler.caseless_eq_iff.mpr ⟨hd, hcurrent, hdiscarded, rfl, hdepth⟩

theorem agrees_lookup (name : String) : Agrees Eq (lookup name) (lookup name) := by
  refine .bind agrees_declarations fun d d' hd => .bind agrees_current ?_
  rintro f _ rfl
  have hfind : d.find name f = d'.find name f := congrArg (fun d => d.find name f) hd
  rw [hfind]
  exact .ofExcept (.refl _)

/-! ### Values -/

variable {word word' : Word} {c c' : Callee} {args : List Operand} {result : Option Variable}

theorem agrees_resolve (h : word.Alike word') : Agrees Eq (resolve word) (resolve word') := by
  refine .ite (by rw [h.isName]) (fun _ => ?_) fun hn => ?_
  · rw [← h.name]
    refine .bind_same (agrees_lookup _) fun v => ?_
    exact .pure rfl
  · rw [Bool.not_eq_true] at hn
    exact .pure (congrArg Operand.literal (h.text hn))

theorem agrees_introduce (h : word.Alike word') :
    Agrees (fun c c' => c.caseless = c'.caseless) (introduce word) (introduce word') := by
  refine .bind agrees_declarations fun d d' hd => ?_
  have hpair : ((d.callee word.name word.text).1.caseless, (d.callee word.name word.text).2.caseless) =
      ((d'.callee word'.name word'.text).1.caseless, (d'.callee word'.name word'.text).2.caseless) := by
    rw [← Declarations.callee_caseless, ← Declarations.callee_caseless, hd, h.name, h.lower]
  obtain ⟨hc, hd⟩ := Prod.mk.inj hpair
  exact .bind_same (agrees_setDeclarations hd) fun _ => .pure hc

theorem agrees_noteCall (h : word.Alike word') (hc : c.caseless = c'.caseless)
    (result : Option Variable) :
    Agrees Eq (noteCall word c result) (noteCall word' c' result) := by
  have hfunction : ∀ f f' : Function, f.caseless = f'.caseless →
      Agrees Eq (noteCall word (.function f) result) (noteCall word' (.function f') result) := by
    intro f f' hf
    obtain ⟨hname, hlabel, -, hreturn, -⟩ := Function.caseless_eq_iff.mp hf
    refine .bind_same agrees_current fun g => ?_
    rw [← hname, ← hreturn]
    exact .ite Iff.rfl (fun _ => agrees_note (congrArg Note.neverReturns hlabel)) fun _ => .pure rfl
  have hplaceholder : ∀ p p' : Placeholder,
      Agrees Eq (noteCall word (.placeholder p) result) (noteCall word' (.placeholder p') result) :=
    fun _ _ => agrees_note (congrArg Note.notIntroduced h.lower)
  rcases Callee.cases_of_caseless hc with rfl | ⟨f, f', rfl, rfl, hf⟩ | ⟨p, p', rfl, rfl, -⟩
  · cases c with
    | function f => exact hfunction f f rfl
    | placeholder p => exact hplaceholder p p
    | command | messageBox => exact .pure rfl
  · exact hfunction f f' hf
  · exact hplaceholder p p'

theorem agrees_emitLines (hc : c.caseless = c'.caseless) (args : List Operand)
    (result : Option Variable) :
    Agrees Eq (emitLines c args result) (emitLines c' args result) := by
  refine .bind agrees_declarations fun d d' hd => ?_
  obtain ⟨hvars, hcallees, hn⟩ := Declarations.caseless_eq_iff.mp hd
  have hlines : (c.lines args result d.generated).map (fun p => (p.1.map Line.caseless, p.2)) =
      (c'.lines args result d'.generated).map fun p => (p.1.map Line.caseless, p.2) := by
    rw [← Callee.lines_caseless, ← Callee.lines_caseless, hc, hn]
  refine .bind (.ofExcept (.of_map hlines)) fun p p' hp => ?_
  obtain ⟨hls, hm⟩ := Prod.mk.inj hp
  exact .bind_same (agrees_setDeclarations (Declarations.caseless_eq_iff.mpr ⟨hvars, hcallees, hm⟩))
    fun _ => agrees_emit hls

theorem agrees_emitCall (hc : c.caseless = c'.caseless) (args : List Operand)
    (result : Option Variable) :
    Agrees Eq (emitCall c args result) (emitCall c' args result) := by
  have hconvention : c.convention = c'.convention := by
    rw [← c.convention_caseless, hc, c'.convention_caseless]
  have hregister : c.returnsByRegister = c'.returnsByRegister := by
    rw [← c.returnsByRegister_caseless, hc, c'.returnsByRegister_caseless]
  have hlines := agrees_emitLines hc args
  unfold emitCall
  rw [← hconvention, ← hregister]
  split
  · refine .bind_same agrees_discarded fun v => ?_
    exact hlines _
  · exact .bind_same (agrees_emit rfl) fun _ => .bind_same (hlines _) fun _ => agrees_emit rfl
  · exact .ite Iff.rfl (fun _ => .bind_same agrees_ensureRegister fun _ => hlines _) fun _ => hlines _

/-- Words that differ in case only are read in the same way. -/
def AgreesOnWords (read : Word → Compile Operand) : Prop :=
  ∀ ⦃word word' : Word⦄, word.Alike word' → Agrees Eq (read word) (read word')

/-- The arguments of callees that differ in case only are read in the same way. -/
def AgreesOnCallees (arguments : Callee → Option Variable → Compile (List Operand)) : Prop :=
  ∀ ⦃c c' : Callee⦄, c.caseless = c'.caseless → ∀ result,
    Agrees Eq (arguments c result) (arguments c' result)

section Parts

variable {expression call : Word → Compile Operand}
  {arguments : Callee → Option Variable → Compile (List Operand)}

theorem agrees_callWith (hargs : AgreesOnCallees arguments) (h : word.Alike word')
    (result : Option Variable) :
    Agrees Eq (callWith arguments word result) (callWith arguments word' result) := by
  refine .bind (agrees_introduce h) fun c c' hc => .bind_same (agrees_noteCall h hc result) fun _ => ?_
  refine .bind_same (.nested (hargs hc result)) fun args => ?_
  exact agrees_emitCall hc args result

theorem agrees_heldCall (hargs : AgreesOnCallees arguments) : AgreesOnWords (heldCall arguments) := by
  intro word word' h
  refine .bind_same agrees_declareTemporary fun v => ?_
  refine .bind_same (agrees_note ?_) fun _ => .bind_same (agrees_callWith hargs h _) fun _ => .pure rfl
  exact congrArg (Note.holdsResult · v.target) h.lower

theorem agrees_chain (hcall : AgreesOnWords call) (n : Nat) (left : Operand) :
    Agrees Eq (chain call n left) (chain call n left) := by
  induction n generalizing left with
  | zero =>
    unfold chain
    refine .bind_same agrees_tail fun t => ?_
    exact .ite Iff.rfl (fun _ => .pure rfl) fun _ => .fail rfl
  | succ n ih =>
    unfold chain
    refine .bind_same agrees_tail fun t => ?_
    refine .ite Iff.rfl (fun _ => .pure rfl) fun _ => .bind agrees_nextWord fun word word' hword => ?_
    refine .bind_same agrees_tail fun t => ?_
    refine .ite Iff.rfl (fun _ => ?_) fun _ => ?_
    · refine .bind_same (hcall hword) fun x => ?_
      exact ih _
    · refine .bind_same (agrees_resolve hword) fun x => ?_
      exact ih _

theorem agrees_concatenation (hcall : AgreesOnWords call) (left : Operand) :
    Agrees Eq (concatenation call left) (concatenation call left) := by
  refine .bind_same agrees_wordsAhead fun n => ?_
  exact agrees_chain hcall n left

theorem agrees_argumentList (hexpr : AgreesOnWords expression) (n : Nat) :
    Agrees Eq (argumentList expression n) (argumentList expression n) := by
  induction n with
  | zero => exact .fail rfl
  | succ n ih =>
    have hmore : ∀ x, Agrees Eq (do
        let t ← tail
        if (t.separates && !t.isClosing) = true then do
          let xs ← argumentList expression n
          pure (x :: xs)
        else pure [x]) (do
        let t ← tail
        if (t.separates && !t.isClosing) = true then do
          let xs ← argumentList expression n
          pure (x :: xs)
        else pure [x]) := fun x => .bind_same agrees_tail fun t =>
      .ite Iff.rfl (fun _ => .bind_same ih fun xs => .pure rfl) fun _ => .pure rfl
    refine .bind agrees_nextWord fun word word' hword => .bind_same agrees_tail fun t => ?_
    exact .ite Iff.rfl (fun _ => .bind_same (hexpr hword) hmore)
      fun _ => .bind_same (agrees_resolve hword) hmore

theorem agrees_closeArguments (hc : c.caseless = c'.caseless) (args : List Operand) :
    Agrees Eq (closeArguments c args) (closeArguments c' args) := by
  have hcount : c.checkCount args.length = c'.checkCount args.length := by
    rw [← c.checkCount_caseless, hc, c'.checkCount_caseless]
  have hpad : c.pad args = c'.pad args := by rw [← c.pad_caseless, hc, c'.pad_caseless]
  refine .bind_same agrees_tail fun t => .ite Iff.rfl (fun _ => .fail_bind rfl) fun _ => ?_
  refine .bind_same agrees_closeOne fun _ => ?_
  rw [hcount, hpad]
  refine .bind_same (.ofExcept (.refl _)) fun _ => ?_
  have hrecord : ∀ name : String, Agrees Eq
      (declarations >>= fun d => setDeclarations (d.recordCall name args.length) >>= fun _ =>
        pure (c'.pad args))
      (declarations >>= fun d => setDeclarations (d.recordCall name args.length) >>= fun _ =>
        pure (c'.pad args)) := by
    intro name
    refine .bind agrees_declarations fun d d' hd => ?_
    refine .bind_same (agrees_setDeclarations ?_) fun _ => .pure rfl
    rw [Declarations.caseless_recordCall, hd, Declarations.caseless_recordCall]
  rcases Callee.cases_of_caseless hc with rfl | ⟨f, f', rfl, rfl, -⟩ | ⟨p, p', rfl, rfl, hp⟩
  · cases c with
    | placeholder p => exact hrecord p.name
    | command | function | messageBox => exact .pure rfl
  · exact .pure rfl
  · have hname : p.caseless.name = p'.caseless.name := congrArg Placeholder.name hp
    dsimp only
    rw [show p.name = p'.name from hname]
    exact hrecord p'.name

theorem agrees_argumentsWith (hexpr : AgreesOnWords expression) :
    AgreesOnCallees (argumentsWith expression) := by
  intro c c' hc result
  have hconvention : c.convention = c'.convention := by
    rw [← c.convention_caseless, hc, c'.convention_caseless]
  have hname : c.name = c'.name := by rw [← c.name_caseless, hc, c'.name_caseless]
  rw [argumentsWith_eq, argumentsWith_eq, hconvention, hname]
  refine .ite Iff.rfl (fun _ => .fail_bind rfl) fun _ => .bind_same agrees_tail fun t => ?_
  refine .ite Iff.rfl (fun _ => .bind_same (.pure rfl) (agrees_closeArguments hc)) fun _ => ?_
  exact .bind_same agrees_wordsAhead fun n =>
    .bind_same (agrees_argumentList hexpr n) (agrees_closeArguments hc)

end Parts

theorem agrees_expression_and_arguments (n : Nat) :
    AgreesOnWords (expression n) ∧ AgreesOnCallees (arguments n) := by
  induction n with
  | zero => exact ⟨fun _ _ _ => .fail rfl, fun _ _ _ _ => .fail rfl⟩
  | succ n ih =>
    obtain ⟨hexpr, hargs⟩ := ih
    have hcall := agrees_heldCall hargs
    refine ⟨fun word word' h => .nested (.bind_same agrees_tail fun t => ?_), agrees_argumentsWith hexpr⟩
    refine .ite Iff.rfl (fun _ => ?_) fun _ => .ite Iff.rfl (fun _ => ?_) fun _ => ?_
    · exact .bind_same (hcall h) (agrees_concatenation hcall)
    · exact .bind_same (agrees_resolve h) (agrees_concatenation hcall)
    · exact agrees_resolve h

theorem agrees_value (h : word.Alike word') : Agrees Eq (value word) (value word') :=
  (agrees_expression_and_arguments levels).1 h

theorem agrees_callInto (h : word.Alike word') (result : Option Variable) :
    Agrees Eq (callInto word result) (callInto word' result) :=
  agrees_callWith (agrees_expression_and_arguments levels).2 h result

theorem agrees_valueFrom (left : Operand) : Agrees Eq (valueFrom left) (valueFrom left) :=
  agrees_concatenation (agrees_heldCall (agrees_expression_and_arguments levels).2) left

/-! ### Conditions -/

theorem agrees_openTerm (o : Opener) : Agrees Eq (openTerm o) (openTerm o) := by
  refine .bind agrees_nextWord fun word word' h => ?_
  rw [← h.name, ← h.isName]
  refine .ite Iff.rfl (fun _ => ?_) fun _ => ?_
  · exact .bind agrees_nextWord fun _ _ h => .bind_same (agrees_value h) fun x => .pure rfl
  · exact .bind_same (agrees_value h) fun x => .pure rfl

theorem connective?_alike (h : word.Alike word') : connective? word = connective? word' := by
  rw [connective?, connective?, h.name, h.isName]

theorem agrees_moreTerms (n : Nat) (ts : List Term) (opened : List Nat) :
    Agrees Eq (moreTerms n ts opened) (moreTerms n ts opened) := by
  induction n generalizing ts opened with
  | zero =>
    cases opened with
    | nil => exact .pure rfl
    | cons i outer =>
      refine .bind_same agrees_tail fun t => ?_
      cases t.relation with
      | some r => exact .fail rfl
      | none => exact .pure rfl
  | succ n ih =>
    cases opened with
    | nil => exact .pure rfl
    | cons i outer =>
      refine .bind_same agrees_tail fun t => ?_
      cases t.relation with
      | some r =>
        refine .bind_same agrees_hasNext fun b => .ite Iff.rfl (fun _ => .fail_bind rfl) fun _ => ?_
        exact .bind agrees_nextWord fun _ _ h => .bind_same (agrees_value h) fun x => ih _ _
      | none =>
        refine .bind_same agrees_hasNext fun b => .ite Iff.rfl (fun _ => .pure rfl) fun _ => ?_
        refine .bind agrees_nextWord fun word word' h => ?_
        rw [← connective?_alike h]
        cases connective? word with
        | some o => exact .bind_same (agrees_openTerm o) fun t => ih _ _
        | none => exact .bind_same (agrees_value h) fun x => ih _ _

theorem agrees_condition (o : Opener) : Agrees Eq (condition o) (condition o) :=
  .nested (.bind_same (agrees_openTerm o) fun t => .bind_same agrees_wordsAhead fun n =>
    agrees_moreTerms n [t] [0])

theorem agrees_moreConditions (n : Nat) : Agrees Eq (moreConditions n) (moreConditions n) := by
  induction n with
  | zero => exact .pure rfl
  | succ n ih =>
    refine .bind_same agrees_hasNext fun b => .ite Iff.rfl (fun _ => .pure rfl) fun _ => ?_
    refine .bind agrees_nextWord fun word word' h => ?_
    rw [← h.name]
    cases (Opener.ofName? word.name).filter (·.isConnective) with
    | some o => exact .bind_same (agrees_condition o) fun ts => .bind_same ih fun us => .pure rfl
    | none => exact .fail (congrArg Fault.connective h.lower)

theorem agrees_conditions (o : Opener) : Agrees Eq (conditions o) (conditions o) :=
  .bind_same (agrees_condition o) fun _ => .bind_same agrees_wordsAhead fun n =>
    .bind_same (agrees_moreConditions n) fun _ => .pure rfl

/-! ### Statements -/

theorem agrees_check (h : word.Alike word') :
    Agrees Eq (ofExcept (Names.check word.name)) (ofExcept (Names.check word'.name)) := by
  rw [h.name]
  exact .ofExcept (.refl _)

theorem agrees_declareName (h : word.Alike word') : Agrees Eq (declareName word) (declareName word') := by
  have hdeclare : Agrees Eq (declare word.name >>= fun _ => pure ())
      (declare word'.name >>= fun _ => pure ()) := by
    rw [h.name]
    exact .bind_same (agrees_declare _) fun _ => .pure rfl
  refine .ite (by rw [h.isName]) (fun hn => ?_) fun _ => ?_
  · rw [Bool.not_eq_true'] at hn
    exact .fail_bind (congrArg (fun t => (Fault.variableName t).caseless) (h.text hn))
  refine .bind_same (agrees_check h) fun _ => .bind_same agrees_current fun f => ?_
  cases f with
  | none => exact hdeclare
  | some f =>
    refine .bind agrees_declarations fun d d' hd => ?_
    have hvars := (Declarations.caseless_eq_iff.mp hd).1
    have hshadows : (d.declared? word.name .global).isSome =
        (d'.declared? word'.name .global).isSome := by
      rw [h.name, Declarations.declared?, Declarations.declared?, hvars]
    refine .ite (by rw [hshadows]) (fun _ => .bind_same (agrees_note ?_) fun _ => hdeclare)
      fun _ => hdeclare
    rw [h.name]

theorem agrees_declareNames (n : Nat) (h : word.Alike word') :
    Agrees Eq (declareNames n word) (declareNames n word') := by
  induction n generalizing word word' with
  | zero => exact agrees_declareName h
  | succ n ih =>
    refine .bind_same (agrees_declareName h) fun _ => .bind_same agrees_hasNext fun b => ?_
    exact .ite Iff.rfl (fun _ => .bind agrees_nextWord fun _ _ h => ih h) fun _ => .pure rfl

theorem agrees_declaration : Agrees Eq declaration declaration := by
  have hnames : ∀ word word', word.Alike word' → Agrees Eq (wordsAhead >>= fun n => declareNames n word)
      (wordsAhead >>= fun n => declareNames n word') :=
    fun _ _ h => .bind_same agrees_wordsAhead fun n => agrees_declareNames n h
  refine .bind agrees_nextWord fun word word' h => .ite (by rw [h.kind]) (fun _ => ?_) fun _ => ?_
  · exact .bind agrees_nextWord hnames
  · exact .bind (.pure h) hnames

theorem agrees_assigned (name : String) : Agrees Eq (assigned name) (assigned name) := by
  refine .bind agrees_declarations fun d d' hd => .bind_same agrees_current fun f => ?_
  have hfind : d.find? name f = d'.find? name f := congrArg (fun d => d.find? name f) hd
  rw [← hfind]
  cases d.find? name f with
  | some v => exact .pure rfl
  | none => exact agrees_declare name

theorem agrees_assignment (h : word.Alike word') : Agrees Eq (assignment word) (assignment word') := by
  have hcopy : ∀ v x, Agrees Eq (expectEnd >>= fun _ => emit [⟨0, .copy v x⟩])
      (expectEnd >>= fun _ => emit [⟨0, .copy v x⟩]) :=
    fun v x => .bind_same agrees_expectEnd fun _ => agrees_emit rfl
  refine .ite (by rw [h.isName]) (fun hn => ?_) fun _ => ?_
  · rw [Bool.not_eq_true'] at hn
    exact .fail_bind (congrArg (fun t => (Fault.assignmentTarget t).caseless) (h.text hn))
  refine .bind_same (agrees_check h) fun _ => ?_
  rw [← h.name]
  refine .bind_same (agrees_assigned _) fun v => .bind agrees_nextWord fun first first' hfirst => ?_
  refine .bind_same agrees_tail fun t => .ite Iff.rfl (fun _ => ?_) fun _ => ?_
  · refine .bind_same (agrees_callInto hfirst _) fun _ => .bind_same agrees_tail fun t => ?_
    refine .ite Iff.rfl (fun _ => agrees_expectEnd) fun _ => ?_
    exact .bind_same (agrees_valueFrom _) (hcopy v)
  · exact .ite Iff.rfl (fun _ => .bind_same (agrees_value hfirst) (hcopy v))
      fun _ => .bind_same (agrees_resolve hfirst) (hcopy v)

theorem agrees_parameters (n : Nat) {f f' : Function} (hf : f.caseless = f'.caseless) :
    Agrees (fun f f' => f.caseless = f'.caseless) (parameters n f) (parameters n f') := by
  induction n generalizing f f' with
  | zero => exact .fail rfl
  | succ n ih =>
    refine .bind agrees_nextWord fun word word' h => .ite (by rw [h.isName]) (fun hn => ?_) fun _ => ?_
    · rw [Bool.not_eq_true'] at hn
      exact .fail_bind (congrArg (fun t => (Fault.parameterName t).caseless) (h.text hn))
    refine .bind_same (agrees_check h) fun _ => ?_
    rw [← h.name]
    refine .bind_same (agrees_declare _) fun v => .bind agrees_declarations fun d d' hd => ?_
    have hparam : (f.addParam v).caseless = (f'.addParam v).caseless :=
      congrArg (fun f : Function => f.addParam v) hf
    have hmodify : (d.modifyFunction f.name (·.addParam v)).caseless =
        (d'.modifyFunction f'.name (·.addParam v)).caseless := by
      rw [(Function.caseless_eq_iff.mp hf).1]
      exact Declarations.modifyFunction_alike hd _ fun _ => rfl
    refine .bind_same (agrees_setDeclarations hmodify) fun _ => .bind_same agrees_tail fun t => ?_
    refine .ite Iff.rfl (fun _ => ih hparam) fun _ => .bind_same agrees_tail fun t => ?_
    exact .ite Iff.rfl (fun _ => .pure hparam) fun _ => .fail rfl

theorem agrees_functionBegin : Agrees Eq functionBegin functionBegin := by
  refine .bind_same agrees_current fun f => .ite Iff.rfl (fun _ => .fail_bind rfl) fun _ => ?_
  refine .bind agrees_nextWord fun word word' h => .bind agrees_declarations fun d d' hd => ?_
  have hdeclare : (d.declareFunction word.name word.text).map (fun p => (p.1.caseless, p.2.caseless)) =
      (d'.declareFunction word'.name word'.text).map fun p => (p.1.caseless, p.2.caseless) := by
    rw [← Declarations.declareFunction_caseless, ← Declarations.declareFunction_caseless, hd, h.name,
      h.lower]
  refine .bind (.ofExcept (.of_map hdeclare)) fun p p' hp => ?_
  obtain ⟨hf, hd⟩ := Prod.mk.inj hp
  refine .bind_same (agrees_setDeclarations hd) fun _ => ?_
  refine .bind_same (agrees_modifyCompiler fun c c' hc => ?_) fun _ => ?_
  · obtain ⟨hd, -, hrest⟩ := Compiler.caseless_eq_iff.mp hc
    exact Compiler.caseless_eq_iff.mpr ⟨hd, congrArg some h.name, hrest⟩
  refine .bind_same (agrees_note (congrArg Note.newFunction h.lower)) fun _ => ?_
  refine .bind_same agrees_tail fun t => ?_
  have hbody : ∀ f f' : Function, f.caseless = f'.caseless → Agrees Eq
      (hasNext >>= fun b => if b = true then fail .wordAfterHeader >>= fun (_ : PUnit) =>
          ofExcept f.checkEarlier >>= fun _ =>
            emit (⟨0, .functionBegin f.label⟩ :: f.params.reverse.map fun v => ⟨1, .pop v⟩)
        else ofExcept f.checkEarlier >>= fun _ =>
          emit (⟨0, .functionBegin f.label⟩ :: f.params.reverse.map fun v => ⟨1, .pop v⟩))
      (hasNext >>= fun b => if b = true then fail .wordAfterHeader >>= fun (_ : PUnit) =>
          ofExcept f'.checkEarlier >>= fun _ =>
            emit (⟨0, .functionBegin f'.label⟩ :: f'.params.reverse.map fun v => ⟨1, .pop v⟩)
        else ofExcept f'.checkEarlier >>= fun _ =>
          emit (⟨0, .functionBegin f'.label⟩ :: f'.params.reverse.map fun v => ⟨1, .pop v⟩)) := by
    intro f f' hf
    obtain ⟨-, hlabel, hparams, -⟩ := Function.caseless_eq_iff.mp hf
    refine .bind_same agrees_hasNext fun b => .ite Iff.rfl (fun _ => .fail_bind rfl) fun _ => ?_
    refine .bind_same (.ofExcept (Function.checkEarlier_alike hf)) fun _ => agrees_emit ?_
    rw [List.map_cons, List.map_cons, hparams]
    exact congrArg (· :: _) (congrArg (fun l => (⟨0, .functionBegin l⟩ : Line)) hlabel)
  refine .ite Iff.rfl (fun _ => .bind_same agrees_wordsAhead fun n => ?_) fun _ => ?_
  · exact .bind (agrees_parameters n hf) hbody
  · exact .bind (.pure hf) hbody

theorem agrees_functionReturn : Agrees Eq functionReturn functionReturn := by
  refine .bind_same agrees_current fun f => ?_
  cases f with
  | none => exact .fail rfl
  | some f =>
    refine .bind_same agrees_hasNext fun b => .ite Iff.rfl (fun _ => ?_) fun _ => agrees_emit rfl
    refine .bind agrees_declarations fun d d' hd => ?_
    have hmodify : (d.modifyFunction f Function.setReturn).caseless =
        (d'.modifyFunction f Function.setReturn).caseless :=
      Declarations.modifyFunction_alike hd f fun _ => rfl
    refine .bind_same (agrees_setDeclarations hmodify) fun _ => ?_
    refine .bind agrees_nextWord fun _ _ h => ?_
    exact .bind_same (agrees_value h) fun x => .bind_same agrees_expectEnd fun _ =>
      .bind_same agrees_ensureRegister fun _ => agrees_emit rfl

theorem agrees_functionEnd : Agrees Eq functionEnd functionEnd := by
  refine .bind_same agrees_current fun f => .ite Iff.rfl (fun _ => .fail_bind rfl) fun _ => ?_
  refine .bind_same (agrees_modifyCompiler fun c c' hc => ?_) fun _ => agrees_emit rfl
  obtain ⟨hd, -, hrest⟩ := Compiler.caseless_eq_iff.mp hc
  exact Compiler.caseless_eq_iff.mpr ⟨hd, rfl, hrest⟩

theorem agrees_branch (h : word.Alike word') : Agrees Eq (branch word) (branch word') := by
  unfold branch
  rw [← h.name]
  cases (Opener.ofName? word.name).filter (·.isBranch) with
  | none => exact .fail (congrArg Fault.conditionKeyword h.lower)
  | some o => exact .bind_same (agrees_conditions o) fun ts => agrees_emit rfl

theorem agrees_loop (name : String) : Agrees Eq (loop name) (loop name) := by
  refine .bind_same agrees_hasNext fun b => .ite Iff.rfl (fun _ => agrees_emit rfl) fun _ => ?_
  refine .bind agrees_nextWord fun word word' h => ?_
  rw [← h.name]
  cases (Opener.ofName? word.name).filter (·.isLoop) with
  | none => exact .fail (congrArg (Fault.loopKeyword name) h.lower)
  | some o =>
    refine .bind_same (agrees_condition o) fun ts => ?_
    match ts with
    | [t] =>
      refine .bind_same agrees_hasNext fun b => .ite Iff.rfl (fun _ => .fail_bind rfl) fun _ => ?_
      exact .ite Iff.rfl (fun _ => .fail_bind rfl) fun _ => agrees_emit rfl
    | [] | _ :: _ :: _ => exact .fail rfl

end Compile

/-- Both statements become lines that differ in case only, both pass unchanged, or both include a file
with the same name but for case. -/
inductive Compiled.Alike : Compiled → Compiled → Prop
  | lines {ls ls' : List Line} :
    ls.map Line.caseless = ls'.map Line.caseless → Alike (.lines ls) (.lines ls')
  | verbatim : Alike .verbatim .verbatim
  | inclusion {path path' : String} :
    path.toLower = path'.toLower → Alike (.inclusion path) (.inclusion path')

namespace Compile

variable {word word' : Word}

theorem agrees_written {act act' : Compile Unit} (h : Agrees Eq act act') :
    Agrees Compiled.Alike (written act) (written act') :=
  .bind_same h fun _ => .bind (.read exec_get exec_get fun _ _ hw => hw) fun _ _ hw =>
    .pure (.lines hw.lines)

theorem agrees_command : Agrees Compiled.Alike command command := by
  refine .bind_same agrees_hasNext fun b => .ite Iff.rfl (fun _ => .pure .verbatim) fun _ => ?_
  refine .bind agrees_nextWord fun word word' h => ?_
  rw [← h.name]
  refine .ite Iff.rfl (fun _ => .pure .verbatim) fun _ => ?_
  refine .bind agrees_nextWord fun path path' hpath => .bind_same agrees_hasNext fun b => ?_
  rw [← hpath.kind]
  exact .ite Iff.rfl (fun _ => .pure .verbatim) fun _ => .pure (.inclusion hpath.bare)

theorem agrees_dispatch (h : word.Alike word') (t : Tail) :
    Agrees Compiled.Alike (dispatch word t) (dispatch word' t) := by
  have hbranch := agrees_written (agrees_branch h)
  unfold dispatch
  refine .ite Iff.rfl (fun _ => agrees_written (agrees_assignment h)) fun _ => ?_
  refine .ite Iff.rfl (fun _ => agrees_written ?_) fun _ => ?_
  · exact .bind_same (agrees_callInto h none) fun _ => agrees_expectEnd
  refine .ite Iff.rfl (fun _ => agrees_command) fun _ => ?_
  rw [← h.name]
  generalize word.name = name
  split
  · exact agrees_written agrees_declaration
  · exact agrees_written agrees_functionBegin
  · exact agrees_written agrees_functionReturn
  · exact agrees_written agrees_functionEnd
  · exact hbranch
  · exact hbranch
  · exact agrees_written (agrees_emit rfl)
  · exact agrees_written (agrees_emit rfl)
  · exact agrees_written (agrees_loop _)
  · exact agrees_written (agrees_loop _)
  · exact agrees_written (agrees_emit rfl)
  · exact agrees_written (agrees_emit rfl)
  · simpa only using Agrees.pure Compiled.Alike.verbatim

/-- A statement is compiled in the same way whatever the case of its names. -/
theorem agrees_statement : Agrees Compiled.Alike statement statement := by
  refine .bind_same agrees_hasNext fun b => .ite Iff.rfl (fun _ => .pure .verbatim) fun _ => ?_
  exact .bind agrees_nextWord fun word word' h => .bind_same agrees_tail fun t => agrees_dispatch h t

end Compile

/-! ## Runs -/

/-- Both texts, or both names of files, are the same but for case. -/
inductive Output.Alike : Output → Output → Prop
  | text {s s' : String} : s.toLower = s'.toLower → Alike (.text s) (.text s')
  | inclusion {path path' : String} :
    path.toLower = path'.toLower → Alike (.inclusion path) (.inclusion path')

/-- What a statement has become, in words. -/
def report : Except Fault Output → String
  | .ok (.text s) => s
  | .ok (.inclusion path) => path
  | .error f => f.message

/-- The statements have become the same but for case. -/
structure Step.Alike (t t' : Step) : Prop where
  result : Results Output.Alike t.result t'.result
  report : (InstallScript.report t.result).toLower = (InstallScript.report t'.result).toLower
  line : t.line = t'.line
  indent : t.indent = t'.indent
  notes : t.notes.map Note.caseless = t'.notes.map Note.caseless

open Text

theorem Fault.toLower_message_caseless (f : Fault) : f.caseless.message.toLower = f.message.toLower := by
  have hword : ∀ w r t : String, (r ++ w.toLower ++ t).toLower = (r ++ w ++ t).toLower :=
    fun w r t => toLower_append_left (toLower_append_right (toLower_toLower w) r) t
  have hcount : ∀ (w r t u v : String) (e p : Nat),
      (r ++ w.toLower ++ t ++ toString e ++ u ++ toString p ++ v).toLower =
        (r ++ w ++ t ++ toString e ++ u ++ toString p ++ v).toLower := by
    intro w r t u v e p
    have h := hword w r t
    exact toLower_append_left (toLower_append_left (toLower_append_left (toLower_append_left h _) _) _) _
  cases f with
  | conditionKeyword w => exact toLower_append_right (hword w _ _) _
  | connective w => exact toLower_append_right (hword w _ _) _
  | loopKeyword l w => exact toLower_append_right (hword w _ _) _
  | tooFew c e p => exact hcount c _ _ _ _ e p
  | tooMany c e p => exact hcount c _ _ _ _ e p
  | _ => rfl

theorem Instr.toLower_write_caseless (i : Instr) : i.caseless.write.toLower = i.write.toLower := by
  cases i with
  | call l => exact toLower_append_right (toLower_toLower l) _
  | functionBegin l => exact toLower_append_right (toLower_toLower l) _
  | _ => rfl

/-- Lines that differ in case only have texts that do. -/
theorem Line.toLower_writeAll {ls ls' : List Line} (indent : String)
    (h : ls.map caseless = ls'.map caseless) :
    (writeAll indent ls).toLower = (writeAll indent ls').toLower := by
  have hline : ∀ l : Line, (write indent l).toLower = (write indent l.caseless).toLower := by
    intro l
    rw [write, write, toLower_append, toLower_append _ l.caseless.instr.write]
    exact congrArg _ l.instr.toLower_write_caseless.symm
  have hlines : ∀ ls : List Line, (ls.map (write indent)).map String.toLower =
      ((ls.map caseless).map (write indent)).map String.toLower := by
    intro ls
    simp only [List.map_map]
    exact List.map_congr_left fun l _ => hline l
  rw [writeAll, writeAll, toLower_joinLines, toLower_joinLines, hlines ls, h, ← hlines ls']

theorem Compiled.Alike.emitted {r r' : Compiled} (h : r.Alike r') :
    r.emitted.map Line.caseless = r'.emitted.map Line.caseless := by
  cases h with
  | lines hls => exact hls
  | verbatim | inclusion => rfl

theorem Compiled.Alike.output {r r' : Compiled} (h : r.Alike r') (indent : String) {s s' : String}
    (hs : s.toLower = s'.toLower) : (r.output indent s).Alike (r'.output indent s') := by
  cases h with
  | lines hls => exact .text (Line.toLower_writeAll indent hls)
  | verbatim => exact .text hs
  | inclusion hpath => exact .inclusion hpath

theorem Results.report {r r' : Except Fault Output} (h : Results Output.Alike r r') :
    (report r).toLower = (report r').toLower := by
  cases h with
  | ok h =>
    cases h with
    | text h => exact h
    | inclusion h => exact h
  | @error f f' h =>
    show f.message.toLower = f'.message.toLower
    rw [← f.toLower_message_caseless, h, f'.toLower_message_caseless]

namespace Compiler

variable {c c' : Compiler} {s s' : Statement} {ss ss' : List Statement}

theorem compile_alike (hc : c.caseless = c'.caseless) {ts ts' : List Token}
    (h : List.Forall₂ Token.Alike ts ts') :
    Results Compiled.Alike (c.compile ts).result (c'.compile ts').result ∧
      (c.compile ts).compiler.caseless = (c'.compile ts').compiler.caseless ∧
      (c.compile ts).notes.map Note.caseless = (c'.compile ts').notes.map Note.caseless := by
  have hw : (c.work ts).Alike (c'.work ts') := ⟨hc, rfl, h, rfl, rfl⟩
  obtain ⟨hr, hw⟩ := Compile.agrees_statement _ _ hw
  exact ⟨hr, hw.compiler, hw.notes⟩

/-- Statements that differ in the case of names have steps that differ in case only. -/
theorem step_alike (hc : c.caseless = c'.caseless) (h : s.Alike s') :
    (c.step s).1.Alike (c'.step s').1 ∧ (c.step s).2.caseless = (c'.step s').2.caseless ∧
      (c.emitted s).map Line.caseless = (c'.emitted s').map Line.caseless := by
  rcases h.tokens with ⟨f, hs, hs'⟩ | ⟨ts, ts', hs, hs', hts⟩
  · rw [step_of_fault hs, step_of_fault hs', emitted, emitted, hs, hs']
    exact ⟨⟨.error rfl, rfl, h.line, h.indent, rfl⟩, hc, rfl⟩
  · obtain ⟨hresult, hcompiler, hnotes⟩ := compile_alike hc hts
    have houtput : Results Output.Alike ((c.compile ts).result.map (·.output s.indent s.text))
        ((c'.compile ts').result.map (·.output s'.indent s'.text)) := by
      rw [← h.indent]
      generalize (c.compile ts).result = r at hresult ⊢
      generalize (c'.compile ts').result = r' at hresult ⊢
      cases hresult with
      | ok hr => exact .ok (hr.output s.indent h.text)
      | error hf => exact .error hf
    rw [step_of_tokens hs, step_of_tokens hs']
    refine ⟨⟨houtput, houtput.report, h.line, h.indent, hnotes⟩, hcompiler, ?_⟩
    rw [emitted, emitted, hs, hs']
    dsimp only
    generalize (c.compile ts).result = r at hresult ⊢
    generalize (c'.compile ts').result = r' at hresult ⊢
    cases hresult with
    | ok hr => exact hr.emitted
    | error hf => rfl

theorem steps_alike (hc : c.caseless = c'.caseless) (h : List.Forall₂ Statement.Alike ss ss') :
    List.Forall₂ Step.Alike (c.steps ss).1 (c'.steps ss').1 ∧
      (c.steps ss).2.caseless = (c'.steps ss').2.caseless := by
  induction h generalizing c c' with
  | nil => exact ⟨.nil, hc⟩
  | cons hs _ ih =>
    obtain ⟨hstep, hc, -⟩ := step_alike hc hs
    obtain ⟨hsteps, hc⟩ := ih hc
    exact ⟨.cons hstep hsteps, hc⟩

end Compiler

theorem program_alike {sources sources' : List String} (h : List.Forall₂ Recased sources sources') :
    List.Forall₂ Statement.Alike (program sources) (program sources') := by
  induction h with
  | nil => exact .nil
  | cons hs _ ih => exact List.rel_append hs.statements ih

/-- Sources that differ only in the case of the letters of names are compiled alike from whatever state
they are compiled in, also past faults: at each statement the results are of the same kind and the same
but for case, and so are the faults; the states in between are the same but for the labels of functions,
and the lines but for the labels that are called or begin a function. The variables that are declared and
the names that are generated are the same altogether. -/
theorem names_are_caseless {sources sources' : List String} (h : List.Forall₂ Recased sources sources')
    (c : Compiler) :
    let ss := program sources
    let ss' := program sources'
    List.Forall₂ Step.Alike (c.steps ss).1 (c.steps ss').1 ∧
      ∀ n, let d := (c.steps (ss.take n)).2
        let d' := (c.steps (ss'.take n)).2
        d.caseless = d'.caseless ∧ ∀ s ∈ ss[n]?, ∀ s' ∈ ss'[n]?,
          (d.emitted s).map Line.caseless = (d'.emitted s').map Line.caseless ∧
            declaredIn (d.emitted s) = declaredIn (d'.emitted s') ∧
            coined (d.emitted s) = coined (d'.emitted s') := by
  intro ss ss'
  have hss : List.Forall₂ Statement.Alike ss ss' := program_alike h
  refine ⟨(Compiler.steps_alike rfl hss).1, fun n => ?_⟩
  have hd := (Compiler.steps_alike (c := c) rfl (List.forall₂_take n hss)).2
  refine ⟨hd, fun s hs s' hs' => ?_⟩
  obtain ⟨hn, rfl⟩ := List.getElem?_eq_some_iff.mp hs
  obtain ⟨hn', rfl⟩ := List.getElem?_eq_some_iff.mp hs'
  obtain ⟨-, -, hlines⟩ := Compiler.step_alike hd (hss.get hn hn')
  refine ⟨hlines, ?_, ?_⟩
  · exact (declaredIn_caseless _).symm.trans ((congrArg declaredIn hlines).trans (declaredIn_caseless _))
  · exact (coined_caseless _).symm.trans ((congrArg coined hlines).trans (coined_caseless _))

/-- A function that is called in one case and declared in another, with an argument that is no name. The
lines differ, in its labels. -/
theorem names_are_caseless_of_function :
    let source := "Text = Greet(\"Ada\")\nFunction GREET(Who)"
    let source' := "TEXT = greet(\"Ada\")\nfunction Greet(who)"
    let c := Compiler.start true
    List.Forall₂ Recased [source] [source'] ∧
      List.Forall₂ Step.Alike (c.steps (program [source])).1 (c.steps (program [source'])).1 ∧
      (∀ n, (c.steps ((program [source]).take n)).2.caseless =
        (c.steps ((program [source']).take n)).2.caseless) ∧
      c.output (program [source]) ≠ c.output (program [source']) := by
  intro source source' c
  have hlower : source.toLower = "text = greet(\"ada\")\nfunction greet(who)" := toLower_eq (by decide)
  have hlower' : source'.toLower = "text = greet(\"ada\")\nfunction greet(who)" := toLower_eq (by decide)
  have hrecased : Recased source source' := ⟨hlower.trans hlower'.symm, by decide +kernel⟩
  have h : List.Forall₂ Recased [source] [source'] := .cons hrecased .nil
  obtain ⟨hsteps, hstates⟩ := names_are_caseless h c
  exact ⟨h, hsteps, fun n => (hstates n).1, by decide +kernel⟩

end InstallScript
