import Mathlib.Logic.Function.Iterate
import InstallScript.Proofs.Routines
import InstallScript.Proofs.Runs

/-!
Compiling comes to an end, and goes no deeper than it may. A machine with a stack carries out the routines
of the compiler one step at a time, so that every moment of compiling can be looked at.

* `Routine.leads_body`: whatever a routine calls has fewer words ahead, or is one level deeper, or is a
  part of the same construct, so that calls cannot go on for ever.
* `Moment.next`: one step of the machine.
* `nesting_returns_and_ends`: the machine comes to its end with what the compiler gives, and at no moment
  on the way the nesting is too deep.
-/

namespace InstallScript

open Compile

/-! ## Where calls lead -/

namespace Routine

/-- The constructs that do nothing of their own before they call one of their parts. -/
def rank : Routine → Nat
  | branch _ | heldCall _ | arguments _ _ => 1
  | _ => 0

theorem rank_le (r : Routine) : r.rank ≤ 1 := by
  unfold rank
  split <;> decide

/-- How the routine `r`, begun at the depth `d` with `n` words ahead, may call `q` at another depth with
other words ahead: when it has read a word, one level deeper, or as one of its parts. The next round of
a loop is called in the first way only. -/
inductive Leads (r : Routine) (d n : Nat) (q : Routine) : Nat → Nat → Prop
  | word {m : Nat} (h : m < n) : Leads r d n q d m
  | level {m : Nat} (hd : d < maxNesting) (hm : m ≤ n) (hq : ¬r.Repeats q) : Leads r d n q (d + 1) m
  | part {m : Nat} (hm : m ≤ n) (hr : q.rank < r.rank) (hq : ¬r.Repeats q) : Leads r d n q d m

/-- What is left to a routine: levels, words, and parts. -/
def size (r : Routine) (d n : Nat) : Nat := 2 * (maxNesting - d + n) + r.rank

variable {r q : Routine} {d n d' n' : Nat}

theorem Leads.size_lt (h : r.Leads d n q d' n') : q.size d' n' < r.size d n := by
  have hq := q.rank_le
  unfold size
  cases h <;> omega

theorem Leads.words_lt (h : r.Leads d n q d' n') (hr : r.Repeats q) : n' < n := by
  cases h with
  | word h => exact h
  | level _ _ hq | part _ _ hq => exact absurd hr hq

end Routine

namespace Code

/-- Carrying out the code from `w` on, no step changes the depth of nesting, and every call satisfies
`Q`. -/
def Meets (Q : Routine → Work → Prop) : Code α → Work → Prop
  | done _, _ => True
  | step act next, w => (exec act w).2.compiler.depth = w.compiler.depth ∧
    ∀ b w', exec act w = (.ok b, w') → (next b).Meets Q w'
  | call r next, w => Q r w ∧ ∀ b w', exec r.act w = (.ok b, w') → (next b).Meets Q w'
  | nested inner next, w =>
    (w.compiler.depth < maxNesting → inner.Meets Q (w.atDepth (w.compiler.depth + 1))) ∧
      ∀ b w', exec (Compile.nested inner.act) w = (.ok b, w') → (next b).Meets Q w'

theorem meets_bind {Q : Routine → Work → Prop} {code : Code α} {k : α → Code β} {w : Work}
    (h : code.Meets Q w) (hk : ∀ a w', exec code.act w = (.ok a, w') → (k a).Meets Q w') :
    (code >>= k).Meets Q w := by
  show (code.bind k).Meets Q w
  induction code generalizing w with
  | done a => exact hk a w rfl
  | step act next ih =>
    refine ⟨h.1, fun b w' he => ih b (h.2 b w' he) fun a w'' ha => hk a w'' ?_⟩
    exact (exec_bind_ok he).trans ha
  | call r next ih =>
    refine ⟨h.1, fun b w' he => ih b (h.2 b w' he) fun a w'' ha => hk a w'' ?_⟩
    exact (exec_bind_ok he).trans ha
  | nested inner next _ ih =>
    refine ⟨h.1, fun b w' he => ih b (h.2 b w' he) fun a w'' ha => hk a w'' ?_⟩
    exact (exec_bind_ok he).trans ha

/-- From the depth `d` and at most `n` words on, every call satisfies `Q` with the depth and the number of
words it is made at. -/
def Within (Q : Routine → Nat → Nat → Prop) (d n : Nat) (code : Code α) : Prop :=
  ∀ w : Work, w.compiler.depth = d → w.cursor.ahead.length ≤ n →
    code.Meets (fun q v => Q q v.compiler.depth v.cursor.ahead.length) w

namespace Within

variable {Q : Routine → Nat → Nat → Prop} {d n : Nat} {code : Code α} {act : Compile α}
  {k : α → Code β}

protected theorem pure (a : α) : Within Q d n (pure a) := fun _ _ _ => trivial

theorem lift (hb : Balanced act) : Within Q d n (liftM act) :=
  fun w _ _ => ⟨(hb w).depth, fun _ _ _ => trivial⟩

theorem run {r : Routine} (h : ∀ m ≤ n, Q r d m) : Within Q d n (Code.run r) := by
  rintro w rfl hn
  exact ⟨h _ hn, fun _ _ _ => trivial⟩

theorem deeper (h : d < maxNesting → Within Q (d + 1) n code) : Within Q d n (deeper code) := by
  rintro w rfl hn
  exact ⟨fun hd => h hd _ rfl hn, fun _ _ _ => trivial⟩

protected theorem bind (h : Within Q d n code) (hs : Says code act) (hb : Balanced act)
    (hk : ∀ a, Within Q d n (k a)) : Within Q d n (code >>= k) := by
  intro w hd hn
  refine meets_bind (h w hd hn) fun a w' ha => ?_
  obtain ⟨hdepth, hwords⟩ := hb w
  rw [← show code.act = act from hs, ha] at hdepth hwords
  exact hk a w' (hdepth.trans hd) (Nat.le_trans hwords hn)

theorem lift_bind (hb : Balanced act) (hk : ∀ a, Within Q d n (k a)) :
    Within Q d n (liftM act >>= k) :=
  .bind (.lift hb) (.lift act) hb hk

theorem fail_bind (f : Fault) : Within Q d n (liftM (Compile.fail f : Compile α) >>= k) := by
  intro w _ _
  refine meets_bind ⟨rfl, fun _ _ _ => trivial⟩ fun a w' ha => ?_
  rw [show (liftM (Compile.fail f) : Code α).act = Compile.fail f from Says.lift _, exec_fail] at ha
  cases ha

theorem run_bind {r : Routine} {k : r.Answer → Code β} (h : ∀ m ≤ n, Q r d m)
    (hk : ∀ a, Within Q d n (k a)) : Within Q d n (Code.run r >>= k) :=
  .bind (.run h) (.run r) r.balanced_act hk

/-- Where a word is read, one word less lies ahead. -/
theorem nextWord_bind {k : Word → Code β} (hk : ∀ word m, m < n → Within Q d m (k word)) :
    Within Q d n (liftM nextWord >>= k) := by
  intro w hd hn
  refine meets_bind ⟨(balanced_nextWord w).depth, fun _ _ _ => trivial⟩ fun word w' ha => ?_
  rw [show (liftM nextWord : Code Word).act = nextWord from Says.lift _] at ha
  match hw : w.cursor.ahead with
  | [] =>
    rw [exec_nextWord_nil hw] at ha
    cases ha
  | t :: ts =>
    rw [exec_nextWord_cons hw] at ha
    cases ha
    rw [hw, List.length_cons] at hn
    exact hk _ ts.length (Nat.lt_of_succ_le hn) _ hd (Nat.le_refl _)

theorem written {code : Code Unit} {act : Compile Unit} (h : Within Q d n code) (hs : Says code act)
    (hb : Balanced act) : Within Q d n (written code) :=
  .bind h hs hb fun _ => .lift_bind balanced_get fun _ => .pure _

end Within

variable {d n : Nat}

theorem leads_heldCall (word : Word) :
    Within ((Routine.heldCall word).Leads d n) d n (heldCall word) :=
  .lift_bind balanced_declareTemporary fun _ => .lift_bind (balanced_note _) fun _ =>
    .run_bind (fun _ hm => .part hm Nat.zero_lt_one id) fun _ => .pure _

theorem leads_callInto (word : Word) (result : Option Variable) :
    Within ((Routine.call word result).Leads d n) d n (callInto word result) :=
  .lift_bind (balanced_introduce word) fun c => .lift_bind (balanced_noteCall word c result) fun _ =>
    .bind (.deeper fun hd => .run fun _ hm => .level hd hm id) (.deeper (.run _))
      (.nested (Routine.balanced_act _)) fun args => .lift (balanced_emitCall c args result)

theorem leads_concatenation (left : Operand) :
    Within ((Routine.concatenation left).Leads d n) d n (concatenation left) := by
  refine .lift_bind balanced_tail fun t => ?_
  split
  · exact .pure _
  refine .nextWord_bind fun word m hm => .lift_bind balanced_tail fun t => ?_
  have hword : ∀ q, ∀ m' ≤ m, (Routine.concatenation left).Leads d n q d m' :=
    fun q m' hm' => .word (Nat.lt_of_le_of_lt hm' hm)
  split
  · exact .run_bind (hword _) fun right => .run (hword _)
  · exact .lift_bind (balanced_resolve word) fun right => .run (hword _)

theorem leads_value (word : Word) : Within ((Routine.value word).Leads d n) d n (value word) := by
  refine .deeper fun hd => .lift_bind balanced_tail fun t => ?_
  split
  · exact .run_bind (fun _ hm => .level hd hm id) fun v => .run fun _ hm => .level hd hm id
  split
  · exact .lift_bind (balanced_resolve word) fun v => .run fun _ hm => .level hd hm id
  · exact .lift (balanced_resolve word)

theorem leads_argumentList : Within (Routine.argumentList.Leads d n) d n argumentList := by
  refine .nextWord_bind fun word m hm => .lift_bind balanced_tail fun t => ?_
  have hword : ∀ q, ∀ m' ≤ m, Routine.argumentList.Leads d n q d m' :=
    fun q m' hm' => .word (Nat.lt_of_le_of_lt hm' hm)
  have hmore : ∀ x : Operand, Within (Routine.argumentList.Leads d n) d m (do
      let t ← tail
      if (t.separates && !t.isClosing) = true then do
        let xs ← run .argumentList
        pure (x :: xs)
      else pure [x]) := by
    intro x
    refine .lift_bind balanced_tail fun t => ?_
    split
    · exact .run_bind (hword _) fun xs => .pure _
    · exact .pure _
  split
  · exact .run_bind (hword _) hmore
  · exact .lift_bind (balanced_resolve word) hmore

theorem leads_arguments (c : Callee) (result : Option Variable) :
    Within ((Routine.arguments c result).Leads d n) d n (arguments c result) := by
  unfold arguments
  dsimp only
  split
  · exact .fail_bind _
  refine .lift_bind balanced_tail fun t => ?_
  split
  · exact .bind (.pure _) (.pure _) (.pure _) fun args => .lift (balanced_closeArguments c args)
  · exact .run_bind (fun _ hm => .part hm Nat.zero_lt_one id) fun args =>
      .lift (balanced_closeArguments c args)

theorem leads_openTerm (o : Opener) :
    Within ((Routine.openTerm o).Leads d n) d n (openTerm o) := by
  refine .nextWord_bind fun word m hm => ?_
  split
  · refine .nextWord_bind fun word m' hm' => .run_bind (fun _ h => .word ?_) fun _ => .pure _
    exact Nat.lt_of_le_of_lt h (Nat.lt_trans hm' hm)
  · exact .run_bind (fun _ h => .word (Nat.lt_of_le_of_lt h hm)) fun _ => .pure _

theorem leads_moreTerms (ts : List Term) (opened : List Nat) :
    Within ((Routine.moreTerms ts opened).Leads d n) d n (moreTerms ts opened) := by
  cases opened with
  | nil => exact .pure _
  | cons i outer =>
    have hword : ∀ {m}, m < n → ∀ q, ∀ m' ≤ m,
        (Routine.moreTerms ts (i :: outer)).Leads d n q d m' :=
      fun hm q m' hm' => .word (Nat.lt_of_le_of_lt hm' hm)
    refine .lift_bind balanced_tail fun t => ?_
    cases t.relation with
    | some r =>
      refine .lift_bind balanced_hasNext fun more => ?_
      dsimp only
      split
      · exact .fail_bind _
      · exact .nextWord_bind fun word m hm => .run_bind (hword hm _) fun x => .run (hword hm _)
    | none =>
      refine .lift_bind balanced_hasNext fun more => ?_
      split
      · exact .pure _
      refine .nextWord_bind fun word m hm => ?_
      cases connective? word with
      | some o => exact .run_bind (hword hm _) fun t => .run (hword hm _)
      | none => exact .run_bind (hword hm _) fun x => .run (hword hm _)

theorem leads_condition (o : Opener) :
    Within ((Routine.condition o).Leads d n) d n (condition o) :=
  .deeper fun hd => .run_bind (fun _ hm => .level hd hm id) fun _ => .run fun _ hm => .level hd hm id

theorem leads_moreConditions : Within (Routine.moreConditions.Leads d n) d n moreConditions := by
  refine .lift_bind balanced_hasNext fun more => ?_
  split
  · exact .pure _
  refine .nextWord_bind fun word m hm => ?_
  have hword : ∀ q, ∀ m' ≤ m, Routine.moreConditions.Leads d n q d m' :=
    fun q m' hm' => .word (Nat.lt_of_le_of_lt hm' hm)
  cases (Opener.ofName? word.name).filter (·.isConnective) with
  | some o => exact .run_bind (hword _) fun ts => .run_bind (hword _) fun us => .pure _
  | none => exact .lift (.fail _)

theorem leads_assignment (target : Word) :
    Within ((Routine.assignment target).Leads d n) d n (assignment target) := by
  have hcopy : ∀ {m} v x, Within ((Routine.assignment target).Leads d n) d m (do
      expectEnd
      emit [⟨0, .copy v x⟩]) :=
    fun v x => .lift_bind balanced_expectEnd fun _ => .lift (balanced_emit _)
  unfold assignment
  dsimp only
  split
  · exact .fail_bind _
  refine .lift_bind (.ofExcept _) fun _ => .lift_bind (balanced_assigned _) fun v =>
    .nextWord_bind fun word m hm => .lift_bind balanced_tail fun t => ?_
  have hword : ∀ q, ∀ m' ≤ m, (Routine.assignment target).Leads d n q d m' :=
    fun q m' hm' => .word (Nat.lt_of_le_of_lt hm' hm)
  split
  · refine .run_bind (hword _) fun _ => .lift_bind balanced_tail fun t => ?_
    split
    · exact .lift balanced_expectEnd
    · exact .run_bind (hword _) (hcopy v)
  · split
    · exact .run_bind (hword _) (hcopy v)
    · exact .lift_bind (balanced_resolve word) (hcopy v)

theorem leads_functionReturn : Within (Routine.functionReturn.Leads d n) d n functionReturn := by
  refine .lift_bind balanced_current fun f => ?_
  cases f with
  | none => exact .lift (.fail _)
  | some f =>
    refine .lift_bind balanced_hasNext fun more => ?_
    split
    · refine .lift_bind balanced_declarations fun _ => .lift_bind (balanced_setDeclarations _) fun _ =>
        .nextWord_bind fun word m hm => .run_bind (fun _ h => .word (Nat.lt_of_le_of_lt h hm)) fun x => ?_
      exact .lift_bind balanced_expectEnd fun _ => .lift_bind balanced_ensureRegister fun _ =>
        .lift (balanced_emit _)
    · exact .lift (balanced_emit _)

theorem leads_branch (word : Word) :
    Within ((Routine.branch word).Leads d n) d n (branch word) := by
  unfold branch
  cases (Opener.ofName? word.name).filter (·.isBranch) with
  | none => exact .lift (.fail _)
  | some o =>
    exact .run_bind (fun _ hm => .part hm Nat.zero_lt_one id) fun ts =>
      .run_bind (fun _ hm => .part hm Nat.zero_lt_one id) fun us => .lift (balanced_emit _)

theorem leads_loop (name : String) : Within ((Routine.loop name).Leads d n) d n (loop name) := by
  refine .lift_bind balanced_hasNext fun more => ?_
  split
  · exact .lift (balanced_emit _)
  refine .nextWord_bind fun word m hm => ?_
  cases (Opener.ofName? word.name).filter (·.isLoop) with
  | none => exact .lift (.fail _)
  | some o =>
    refine .run_bind (fun _ h => .word (Nat.lt_of_le_of_lt h hm)) fun ts => ?_
    match ts with
    | [] | _ :: _ :: _ => exact .lift (.fail _)
    | [t] =>
      refine .lift_bind balanced_hasNext fun more => ?_
      dsimp only
      split
      · exact .fail_bind _
      split
      · exact .fail_bind _
      · exact .lift (balanced_emit _)

theorem leads_statement : Within (Routine.statement.Leads d n) d n statement := by
  refine .lift_bind balanced_hasNext fun more => ?_
  split
  · exact .pure _
  refine .nextWord_bind fun word m hm => .lift_bind balanced_tail fun t => ?_
  have hword : ∀ q, ∀ m' ≤ m, Routine.statement.Leads d n q d m' :=
    fun q m' hm' => .word (Nat.lt_of_le_of_lt hm' hm)
  split
  · exact .written (.run (hword _)) (.run (.assignment word)) (Routine.balanced_act _)
  split
  · refine .written (.run_bind (hword _) fun _ => .lift balanced_expectEnd)
      (.bind (.run (.call word none)) fun _ => .lift _) ?_
    exact .bind (Routine.balanced_act _) fun _ => balanced_expectEnd
  split
  · exact .lift balanced_command
  have hlift : ∀ {act : Compile Unit}, Balanced act →
      Within (Routine.statement.Leads d n) d m (written (liftM act)) :=
    fun hb => .written (.lift hb) (.lift _) hb
  split
  · exact hlift balanced_declaration
  · exact hlift balanced_functionBegin
  · exact .written (.run (hword _)) (.run .functionReturn) (Routine.balanced_act _)
  · exact hlift balanced_functionEnd
  · exact .written (.run (hword _)) (.run (.branch word)) (Routine.balanced_act _)
  · exact .written (.run (hword _)) (.run (.branch word)) (Routine.balanced_act _)
  · exact hlift (balanced_emit _)
  · exact hlift (balanced_emit _)
  · exact .written (.run (hword _)) (.run (.loop _)) (Routine.balanced_act _)
  · exact .written (.run (hword _)) (.run (.loop _)) (Routine.balanced_act _)
  · exact hlift (balanced_emit _)
  · exact hlift (balanced_emit _)
  · exact .pure _

end Code

theorem Routine.leads_body (r : Routine) (d n : Nat) : Code.Within (r.Leads d n) d n r.body := by
  cases r with
  | statement => exact Code.leads_statement
  | assignment target => exact Code.leads_assignment target
  | functionReturn => exact Code.leads_functionReturn
  | branch word => exact Code.leads_branch word
  | loop name => exact Code.leads_loop name
  | call word result => exact Code.leads_callInto word result
  | value word => exact Code.leads_value word
  | heldCall word => exact Code.leads_heldCall word
  | concatenation left => exact Code.leads_concatenation left
  | arguments c result => exact Code.leads_arguments c result
  | argumentList => exact Code.leads_argumentList
  | condition o => exact Code.leads_condition o
  | openTerm o => exact Code.leads_openTerm o
  | moreTerms ts opened => exact Code.leads_moreTerms ts opened
  | moreConditions => exact Code.leads_moreConditions

/-! ## The machine -/

/-- What is left to do when some code is done: nothing, to go on with its answer, or to go up one level
before that. The whole gives an `ω`. -/
inductive Pending (ω : Type) : Type → Type 1
  | last : Pending ω ω
  | andThen (next : α → Code β) (rest : Pending ω β) : Pending ω α
  | ascend (rest : Pending ω α) : Pending ω α

/-- A moment of compiling: some code is to be carried out, or has been. -/
inductive Moment (ω : Type) : Type 1
  | before (code : Code α) (pending : Pending ω α) (w : Work)
  | after (r : Except Fault α) (pending : Pending ω α) (w : Work)

namespace Moment

variable {ω : Type}

def work : Moment ω → Work
  | before _ _ w | after _ _ w => w

/-- One step. A fault goes up through all that is left to do. -/
def next : Moment ω → Moment ω
  | before (.done a) pending w => after (.ok a) pending w
  | before (.step act k) pending w =>
    match exec act w with
    | (.ok b, w') => before (k b) pending w'
    | (.error f, w') => after (.error f) pending w'
  | before (.call r k) pending w => before r.body (.andThen k pending) w
  | before (.nested inner k) pending w =>
    if w.compiler.depth < maxNesting then
      before inner (.ascend (.andThen k pending)) (w.atDepth (w.compiler.depth + 1))
    else after (.error .nesting) pending w
  | after r .last w => after r .last w
  | after (.ok a) (.andThen k pending) w => before (k a) pending w
  | after (.error f) (.andThen _ pending) w => after (.error f) pending w
  | after r (.ascend pending) w => after r pending (w.atDepth (w.compiler.depth - 1))

theorem next_ascend {α : Type} (r : Except Fault α) (pending : Pending ω α) (w : Work) :
    (after r (.ascend pending) w).next = after r pending (w.atDepth (w.compiler.depth - 1)) := by
  cases r <;> rfl

theorem next_last (r : Except Fault ω) (w : Work) : (after r .last w).next = after r .last w := by
  cases r <;> rfl

/-- A routine is about to begin. -/
def start (r : Routine) (w : Work) : Moment r.Answer := before r.body .last w

/-- The nesting is not too deep. -/
def Shallow (m : Moment ω) : Prop := m.work.compiler.depth ≤ maxNesting

/-- The machine comes from one moment to the other, and at no moment from the one to the other the nesting
is too deep. -/
def Comes (m m' : Moment ω) : Prop := ∃ n, next^[n] m = m' ∧ ∀ i ≤ n, (next^[i] m).Shallow

namespace Comes

variable {m m' m'' : Moment ω}

protected theorem refl (h : m.Shallow) : Comes m m := by
  refine ⟨0, rfl, fun i hi => ?_⟩
  rw [Nat.le_zero.mp hi]
  exact h

theorem shallow (h : Comes m m') : m'.Shallow := by
  obtain ⟨n, rfl, hn⟩ := h
  exact hn n (Nat.le_refl n)

theorem trans (h : Comes m m') (h' : Comes m' m'') : Comes m m'' := by
  obtain ⟨n, rfl, hn⟩ := h
  obtain ⟨k, rfl, hk⟩ := h'
  refine ⟨k + n, Function.iterate_add_apply next k n m, fun i hi => ?_⟩
  by_cases hle : i ≤ n
  · exact hn i hle
  · obtain ⟨j, rfl⟩ := Nat.exists_eq_add_of_le (Nat.le_of_not_le hle)
    rw [Nat.add_comm, Function.iterate_add_apply]
    exact hk j (by omega)

theorem head (hm : m.Shallow) (h : Comes m.next m') : Comes m m' := by
  refine trans ⟨1, rfl, fun i hi => ?_⟩ h
  obtain _ | _ := Nat.le_one_iff_eq_zero_or_eq_one.mp hi
  · subst i
    exact hm
  · subst i
    obtain ⟨n, -, hn⟩ := h
    exact hn 0 (Nat.zero_le n)

end Comes

end Moment

open Moment

namespace Code

theorem Meets.mono {Q Q' : Routine → Work → Prop} (hQ : ∀ r v, Q r v → Q' r v) {code : Code α}
    {w : Work} (h : code.Meets Q w) : code.Meets Q' w := by
  induction code generalizing w with
  | done a => trivial
  | step act k ih => exact ⟨h.1, fun b w' he => ih b (h.2 b w' he)⟩
  | call r k ih => exact ⟨hQ r w h.1, fun b w' he => ih b (h.2 b w' he)⟩
  | nested inner k ihi ih => exact ⟨fun hd => ihi (h.1 hd), fun b w' he => ih b (h.2 b w' he)⟩

/-- When a part is done, the machine goes on with the rest, or with the fault. -/
theorem comes_andThen {ω : Type} {act : Compile β} {next : β → Code α} {pending : Pending ω α}
    {w w' : Work} {r : Except Fault β} (he : exec act w = (r, w')) (hw : w'.compiler.depth ≤ maxNesting)
    (hok : ∀ b, exec act w = (.ok b, w') → Comes (.before (next b) pending w')
      (.after (exec (next b).act w').1 pending (exec (next b).act w').2)) :
    Comes (.after r (.andThen next pending) w')
      (.after (exec (act >>= fun b => (next b).act) w).1 pending
        (exec (act >>= fun b => (next b).act) w).2) := by
  cases r with
  | ok b =>
    rw [exec_bind_ok he]
    exact .head hw (hok b he)
  | error f =>
    rw [exec_bind_error he]
    exact .head hw (.refl hw)

/-- The machine carries out code as the compiler does, if it does so with the routines that are called on
the way. -/
theorem comes {ω : Type} (code : Code α) (pending : Pending ω α) {w : Work}
    (hw : w.compiler.depth ≤ maxNesting)
    (h : code.Meets (fun r v => v.compiler.depth ≤ maxNesting → ∀ {ω} (pending : Pending ω r.Answer),
      Comes (.before r.body pending v) (.after (exec r.act v).1 pending (exec r.act v).2)) w) :
    Comes (.before code pending w) (.after (exec code.act w).1 pending (exec code.act w).2) := by
  induction code generalizing w ω with
  | done a => exact .head hw (.refl hw)
  | step act next ih =>
    obtain ⟨hdepth, hnext⟩ := h
    refine .head hw ?_
    cases he : exec act w with
    | mk r w' =>
      rw [he] at hdepth
      have hw' : w'.compiler.depth ≤ maxNesting := Nat.le_trans (Nat.le_of_eq hdepth) hw
      cases r with
      | ok b =>
        rw [show (Code.step act next).act = (act >>= fun b => (next b).act) from rfl, exec_bind_ok he]
        simp only [Moment.next, he]
        exact ih b pending hw' (hnext b w' he)
      | error f =>
        rw [show (Code.step act next).act = (act >>= fun b => (next b).act) from rfl, exec_bind_error he]
        simp only [Moment.next, he]
        exact .refl hw'
  | call r next ih =>
    obtain ⟨hcall, hnext⟩ := h
    have hbody := hcall hw (.andThen next pending)
    refine .head hw (hbody.trans ?_)
    exact comes_andThen rfl hbody.shallow fun b he => ih b pending hbody.shallow (hnext b _ he)
  | nested inner next ihi ih =>
    obtain ⟨hinner, hnext⟩ := h
    refine .head hw ?_
    simp only [Moment.next]
    split
    next hd =>
      have hbody := ihi (w := w.atDepth (w.compiler.depth + 1)) (.ascend (.andThen next pending)) hd
        (hinner hd)
      have hback := Nat.le_trans (Nat.sub_le _ 1) hbody.shallow
      refine hbody.trans (.head hbody.shallow ?_)
      rw [next_ascend]
      exact comes_andThen (exec_nested inner.act hd) hback fun b he => ih b pending hback (hnext b _ he)
    next hd =>
      have hfail := exec_nested_of_le inner.act (Nat.le_of_not_lt hd)
      rw [show (Code.nested inner next).act = (Compile.nested inner.act >>= fun b => (next b).act) from rfl,
        exec_bind_error hfail]
      exact .refl hw

end Code

/-- The machine carries out every routine as the compiler does. -/
theorem Routine.comes (r : Routine) {w : Work} (hw : w.compiler.depth ≤ maxNesting) {ω : Type}
    (pending : Pending ω r.Answer) :
    Comes (.before r.body pending w) (.after (exec r.act w).1 pending (exec r.act w).2) := by
  -- the induction is on what is left to the routine, which is less wherever it calls another
  induction hn : r.size w.compiler.depth w.cursor.ahead.length using Nat.strongRecOn
    generalizing r w ω with
  | ind n ih =>
    have hcalls := r.leads_body w.compiler.depth w.cursor.ahead.length w rfl (Nat.le_refl _)
    have hbody := r.body.comes pending hw (hcalls.mono fun q v hq hv _ pending =>
      ih _ (hn ▸ hq.size_lt) q hv pending rfl)
    rw [show r.body.act = r.act from r.says_body] at hbody
    exact hbody

/-- The machine does not leave its end. -/
theorem Moment.iterate_next_last {ω : Type} (r : Except Fault ω) (w : Work) (n : Nat) :
    Moment.next^[n] (.after r .last w) = .after r .last w :=
  Function.iterate_fixed (next_last r w) n

/-- From a moment that comes to its end, the nesting is not too deep at any later moment. -/
theorem Moment.Comes.shallow_iterate {ω : Type} {m : Moment ω} {r : Except Fault ω} {w : Work}
    (h : Comes m (.after r .last w)) (i : Nat) : (Moment.next^[i] m).Shallow := by
  obtain ⟨n, hlast, hn⟩ := h
  by_cases hi : i ≤ n
  · exact hn i hi
  · obtain ⟨j, rfl⟩ := Nat.exists_eq_add_of_le (Nat.le_of_not_le hi)
    rw [Nat.add_comm, Function.iterate_add_apply, hlast, iterate_next_last, ← hlast]
    exact hn n (Nat.le_refl n)

/-- Every part of the compiler, begun in any state and before any words, ends at the depth of nesting it
began at. What it gives is what the machine comes to, step by step, and at no moment the nesting is too
deep. A loop reads a word in each of its rounds. Between the statements of a run the depth is zero. -/
theorem nesting_returns_and_ends :
    (∀ (r : Routine) (w : Work), w.compiler.depth ≤ maxNesting →
      (exec r.act w).2.compiler.depth = w.compiler.depth ∧
      (∃ n, Moment.next^[n] (.start r w) = .after (exec r.act w).1 .last (exec r.act w).2) ∧
      (∀ i, (Moment.next^[i] (.start r w)).work.compiler.depth ≤ maxNesting) ∧
      r.body.Meets (fun q v => r.Repeats q → v.cursor.ahead.length < w.cursor.ahead.length) w) ∧
    ∀ (predefined : Bool) (ss : List Statement), ((Compiler.start predefined).steps ss).2.depth = 0 := by
  refine ⟨fun r w hw => ⟨(r.balanced_act w).depth, ?_, ?_, ?_⟩, fun predefined ss => ?_⟩
  · obtain ⟨n, hn, -⟩ := r.comes hw .last
    exact ⟨n, hn⟩
  · exact (r.comes hw .last).shallow_iterate
  · exact (r.leads_body _ _ w rfl (Nat.le_refl _)).mono fun q v hq hr => hq.words_lt hr
  · exact Compiler.depth_steps predefined ss

/-- In `x = StrLen(GetParameters())` the inner call can be too deep where the statement is not. The depth is
what it was when the statement has failed. -/
theorem nesting_returns_and_ends_of_call :
    let w := ({ depth := 62 } : Compiler).work
      [⟨⟨.name, "x"⟩, { assigns := true }⟩, ⟨⟨.name, "StrLen"⟩, { opens := true }⟩,
        ⟨⟨.name, "GetParameters"⟩, { opens := true, closes := 2 }⟩]
    ¬(exec Compile.statement w).1.isOk ∧ (exec Compile.statement w).2.compiler.depth = 62 ∧
      (∃ n, Moment.next^[n] (.start .statement w) =
        .after (exec Compile.statement w).1 .last (exec Compile.statement w).2) ∧
      ∀ i, (Moment.next^[i] (.start .statement w)).work.compiler.depth ≤ maxNesting := by
  intro w
  obtain ⟨hdepth, hend, hshallow, -⟩ := nesting_returns_and_ends.1 .statement w (by decide)
  exact ⟨by decide +kernel, hdepth, hend, hshallow⟩

end InstallScript
