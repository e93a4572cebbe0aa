import InstallScript.Proofs.Folding
import InstallScript.Proofs.OpenTerms

/-!
Tests joined by `and` and `or`. A test without a relation stays open, and the tests behind it are read as
joined to it; a test with a relation is closed, and the next one begins a condition of its own. Of this
nothing is left in what is written: a branch has a line for each test (`chains_of_tests`), however the two
kinds are mixed. A loop has room for one test only.
-/

namespace InstallScript

namespace Compiler

variable (c : Compiler)

/-- A word that stands for a value by itself: a literal, or a variable that can be seen. -/
structure Atom where
  word : Word
  operand : Operand
  stands : c.operand? word = some operand

/-- A test without calls: a word that may have `not` in front of it, and may be compared with another. -/
structure Test where
  negation : Option Word
  left : c.Atom
  comparison : Option (Relation × c.Atom)
  negates : ∀ word ∈ negation, word.isName ∧ word.name = "not"
  affirms : ¬(left.word.isName ∧ left.word.name = "not")

/-- A test that is joined to those before it. -/
structure Joint where
  word : Word
  opener : Opener
  joins : Compile.connective? word = some opener
  test : c.Test

/-- A test and those that are joined to it. -/
structure Chain where
  first : c.Test
  rest : List c.Joint

variable {c : Compiler}

namespace Test

/-- The marks behind the word on the left. -/
def marks (t : c.Test) : Tail := { relation := t.comparison.map (·.1) }

/-- The words behind the one on the left. -/
def right (t : c.Test) : List Token := (t.comparison.map fun p => ⟨p.2.word, {}⟩).toList

def tokens (t : c.Test) : List Token :=
  (t.negation.map (⟨·, {}⟩)).toList ++ ⟨t.left.word, t.marks⟩ :: t.right

/-- The term as it is before its relation is read. -/
def opened (t : c.Test) (o : Opener) : Term :=
  { opener := o, negated := t.negation.isSome, left := [t.left.operand] }

def term (t : c.Test) (o : Opener) : Term :=
  { t.opened o with comparison := t.comparison.map fun p => (p.1.text, p.2.operand) }

theorem term_of_none {t : c.Test} (h : t.comparison = none) (o : Opener) : t.term o = t.opened o := by
  rw [term, h]
  rfl

theorem term_of_some {t : c.Test} {r : Relation} {a : c.Atom} (h : t.comparison = some (r, a))
    (o : Opener) : t.term o = (t.opened o).compare r.text a.operand := by
  rw [term, h]
  rfl

/-- The line of a test. -/
def text (t : c.Test) (loop : String) (o : Opener) : String :=
  "$\x7b" ++ loop ++ o.write ++ (if t.negation.isSome then "Not" else "") ++ "\x7d"
    ++ " " ++ t.left.operand.write ++ match t.comparison with
      | none => ""
      | some (r, x) => " " ++ r.text ++ " " ++ x.operand.write

end Test

namespace Joint

def tokens (j : c.Joint) : List Token := ⟨j.word, {}⟩ :: j.test.tokens

def term (j : c.Joint) : Term := j.test.term j.opener

end Joint

namespace Chain

def tokens (k : c.Chain) : List Token := k.first.tokens ++ k.rest.flatMap Joint.tokens

def terms (k : c.Chain) (o : Opener) : List Term := k.first.term o :: k.rest.map Joint.term

/-- The lines of a chain. -/
def texts (k : c.Chain) (o : Opener) : List String :=
  k.first.text "" o :: k.rest.map fun j => j.test.text "" j.opener

/-- What is read as one condition: all tests if the first one stays open, and else only that. -/
def taken (k : c.Chain) (o : Opener) : List Term :=
  if k.first.comparison.isSome then [k.first.term o] else k.terms o

/-- What is left when one condition has been read. -/
def left (k : c.Chain) : List c.Joint := if k.first.comparison.isSome then k.rest else []

theorem taken_append_left (k : c.Chain) (o : Opener) : k.taken o ++ k.left.map Joint.term = k.terms o := by
  unfold taken left
  split
  · rfl
  · exact List.append_nil _

end Chain

end Compiler

namespace Compile

open Compiler

variable {c : Compiler} {w : Work}

/-! ## Words -/

theorem exec_value_atom (a : c.Atom) (hw : w.compiler.operand? = c.operand?)
    (hd : w.compiler.depth < maxNesting) (hopens : w.cursor.tail.opens = false)
    (hjoins : w.cursor.tail.joins = false) : exec (value a.word) w = (.ok a.operand, w) := by
  have hin : exec (resolve a.word) (w.atDepth (w.compiler.depth + 1)) =
      (.ok a.operand, w.atDepth (w.compiler.depth + 1)) :=
    exec_resolve_operand? ((congrFun hw a.word).trans a.stands)
  have hnested := exec_nested_ok hd hin rfl
  refine (exec_nested_congr fun _ => ?_).trans hnested
  refine (exec_bind_ok (exec_tail _)).trans ?_
  show exec (if w.cursor.tail.opens then _ else if w.cursor.tail.joins then _ else _) _ = _
  rw [hopens, hjoins]
  rfl

theorem exec_openTerm_test (t : c.Test) (o : Opener) {more : List Token}
    (hw : w.compiler.operand? = c.operand?) (hd : w.compiler.depth < maxNesting)
    (ha : w.cursor.ahead = t.tokens ++ more) :
    exec (openTerm o) w = (.ok (t.opened o), { w with cursor := ⟨t.marks, t.right ++ more⟩ }) := by
  have hvalue := fun w hw hd => exec_value_atom (w := w) t.left hw hd
  unfold openTerm
  unfold Test.tokens at ha
  cases hn : t.negation with
  | none =>
    rw [hn] at ha
    have hword : (t.left.word.isName && t.left.word.name = "not") = false := by
      simpa using t.affirms
    rw [exec_bind_ok (exec_nextWord_cons ha), hword, Test.opened, hn]
    exact exec_bind_ok (hvalue { w with cursor := ⟨t.marks, t.right ++ more⟩ } hw hd rfl rfl)
  | some word =>
    rw [hn] at ha
    obtain ⟨hname, hnot⟩ := t.negates word hn
    have hword : (word.isName && word.name = "not") = true := by
      rw [hname, hnot]
      rfl
    rw [exec_bind_ok (exec_nextWord_cons ha), hword, Test.opened, hn]
    refine (exec_bind_ok (exec_nextWord_cons rfl)).trans ?_
    exact exec_bind_ok (hvalue { w with cursor := ⟨t.marks, t.right ++ more⟩ } hw hd rfl rfl)

/-! ## Terms -/

/-- Nothing lies ahead. -/
theorem exec_finished_nil {t : Term} {joined : List Term} (hc : w.cursor = {}) :
    exec (finished t joined) w = (.ok (t :: joined), w) := by
  rw [finished_unrolled, exec_bind_ok (exec_tail w), hc, exec_bind_ok (exec_hasNext w), hc]
  rfl

/-- A relation closes the term. -/
theorem exec_finished_relation {t : Term} {joined : List Term} {r : Relation} (a : c.Atom)
    {more : List Token} (hw : w.compiler.operand? = c.operand?) (hd : w.compiler.depth < maxNesting)
    (hc : w.cursor = ⟨{ relation := some r }, ⟨a.word, {}⟩ :: more⟩) :
    exec (finished t joined) w =
      (.ok (t.compare r.text a.operand :: joined), { w with cursor := ⟨{}, more⟩ }) := by
  have ha : w.cursor.ahead = ⟨a.word, {}⟩ :: more := by rw [hc]
  rw [finished_unrolled, exec_bind_ok (exec_tail w), hc, exec_bind_ok (exec_hasNext w), hc]
  refine (exec_bind_ok (exec_nextWord_cons ha)).trans ?_
  exact exec_bind_ok (exec_value_atom (w := { w with cursor := ⟨{}, more⟩ }) a hw hd rfl rfl)

/-- A connective joins another condition to the term. -/
theorem exec_finished_joint {t : Term} {joined : List Term} (j : c.Joint) (more : List Token)
    (hc : w.cursor = ⟨{}, ⟨j.word, {}⟩ :: more⟩) : exec (finished t joined) w =
      exec (joinedTerms j.opener >>= fun us => finished t (joined ++ us))
        { w with cursor := ⟨{}, more⟩ } := by
  have ha : w.cursor.ahead = ⟨j.word, {}⟩ :: more := by rw [hc]
  rw [finished_unrolled, exec_bind_ok (exec_tail w), hc, exec_bind_ok (exec_hasNext w), hc]
  refine (exec_bind_ok (exec_nextWord_cons ha)).trans ?_
  rw [j.joins]

/-- Where an open term takes all tests that follow, a condition takes its part of a chain. -/
theorem exec_joinedTerms_of_finished (k : c.Chain) (o : Opener)
    (hw : w.compiler.operand? = c.operand?) (hd : w.compiler.depth < maxNesting)
    (ha : w.cursor.ahead = k.tokens)
    (hrest : exec (finished (k.first.opened o) []) { w with cursor := ⟨{}, k.rest.flatMap Joint.tokens⟩ } =
      (.ok (k.first.opened o :: k.rest.map Joint.term), { w with cursor := {} })) :
    exec (joinedTerms o) w =
      (.ok (k.taken o), { w with cursor := ⟨{}, k.left.flatMap Joint.tokens⟩ }) := by
  unfold joinedTerms
  rw [exec_bind_ok (exec_openTerm_test k.first o hw hd ha), Test.marks, Test.right, Chain.taken,
    Chain.left, Chain.terms]
  cases hcomp : k.first.comparison with
  | none =>
    rw [Test.term_of_none hcomp]
    exact hrest
  | some p =>
    rw [Test.term_of_some hcomp]
    exact exec_finished_relation p.2 hw hd rfl

/-- An open term takes all tests that follow. -/
theorem exec_finished_rest (rest : List c.Joint) (t : Term) (joined : List Term)
    (hw : w.compiler.operand? = c.operand?) (hd : w.compiler.depth < maxNesting)
    (hc : w.cursor = ⟨{}, rest.flatMap Joint.tokens⟩) : exec (finished t joined) w =
      (.ok (t :: (joined ++ rest.map Joint.term)), { w with cursor := {} }) := by
  -- the induction is on the tests; a test with a relation leaves those behind it to the open term, and
  -- one without leaves nothing
  induction rest generalizing w t joined with
  | nil =>
    rw [exec_finished_nil hc, List.map_nil, List.append_nil, ← show w.cursor = {} from hc]
  | cons j rest ih =>
    let k : c.Chain := ⟨j.test, rest⟩
    have hjoint := exec_joinedTerms_of_finished (w := { w with cursor := ⟨{}, k.tokens⟩ }) k j.opener hw hd
      rfl (ih _ [] hw hd rfl)
    rw [exec_finished_joint j k.tokens hc, exec_bind_ok hjoint]
    unfold Chain.taken Chain.left
    split
    · have hopen := ih (w := { w with cursor := ⟨{}, rest.flatMap Joint.tokens⟩ }) t (joined ++ [j.term])
        hw hd rfl
      rw [List.append_assoc] at hopen
      exact hopen
    · exact exec_finished_nil rfl

theorem exec_condition_chain (k : c.Chain) (o : Opener) (hw : w.compiler.operand? = c.operand?)
    (hd : w.compiler.depth + 1 < maxNesting) (ha : w.cursor.ahead = k.tokens) : exec (condition o) w =
      (.ok (k.taken o), { w with cursor := ⟨{}, k.left.flatMap Joint.tokens⟩ }) := by
  have hin := exec_joinedTerms_of_finished (w := w.atDepth (w.compiler.depth + 1)) k o hw hd ha
    (exec_finished_rest k.rest _ [] hw hd rfl)
  rw [condition_eq_joinedTerms]
  exact exec_nested_ok (Nat.lt_of_succ_lt hd) hin rfl

theorem exec_moreConditions_nil (hc : w.cursor = {}) :
    exec (wordsAhead >>= moreConditions) w = (.ok [], w) := by
  rw [moreConditions_unrolled, exec_bind_ok (exec_hasNext w), hc]
  rfl

/-- What a condition leaves of the tests is read as further conditions. -/
theorem exec_moreConditions_rest (rest : List c.Joint) (hw : w.compiler.operand? = c.operand?)
    (hd : w.compiler.depth + 1 < maxNesting) (hc : w.cursor = ⟨{}, rest.flatMap Joint.tokens⟩) :
    exec (wordsAhead >>= moreConditions) w = (.ok (rest.map Joint.term), { w with cursor := {} }) := by
  induction rest generalizing w with
  | nil =>
    rw [exec_moreConditions_nil hc, ← show w.cursor = {} from hc]
    rfl
  | cons j rest ih =>
    let k : c.Chain := ⟨j.test, rest⟩
    have hword : (Opener.ofName? j.word.name).filter (·.isConnective) = some j.opener := by
      have hjoins := j.joins
      unfold connective? at hjoins
      split at hjoins
      · exact hjoins
      · cases hjoins
    have ha : w.cursor.ahead = ⟨j.word, {}⟩ :: k.tokens := by rw [hc]; rfl
    have hcondition := exec_condition_chain (w := { w with cursor := ⟨{}, k.tokens⟩ }) k j.opener hw hd rfl
    rw [moreConditions_unrolled, exec_bind_ok (exec_hasNext w), Cursor.hasNext, ha]
    refine (exec_bind_ok (exec_nextWord_cons ha)).trans ?_
    rw [hword]
    refine (exec_bind_ok hcondition).trans ?_
    have hleft : exec (wordsAhead >>= moreConditions)
        { w with cursor := ⟨{}, k.left.flatMap Joint.tokens⟩ } =
        (.ok (k.left.map Joint.term), { w with cursor := {} }) := by
      unfold Chain.left
      split
      · exact ih hw hd rfl
      · exact exec_moreConditions_nil rfl
    refine (exec_bind_ok hleft).trans ?_
    rw [k.taken_append_left]
    rfl

theorem exec_conditions_chain (k : c.Chain) (o : Opener) (hw : w.compiler.operand? = c.operand?)
    (hd : w.compiler.depth + 1 < maxNesting) (ha : w.cursor.ahead = k.tokens) :
    exec (conditions o) w = (.ok (k.terms o), { w with cursor := {} }) := by
  have hleft := exec_moreConditions_rest (w := { w with cursor := ⟨{}, k.left.flatMap Joint.tokens⟩ })
    k.left hw hd rfl
  unfold conditions
  rw [exec_bind_ok (exec_condition_chain k o hw hd ha), ← bind_assoc, exec_bind_ok hleft,
    k.taken_append_left]
  rfl

/-! ## Statements -/

theorem exec_branch_chain (k : c.Chain) {word : Word} {o : Opener}
    (hword : (Opener.ofName? word.name).filter (·.isBranch) = some o)
    (hw : w.compiler.operand? = c.operand?) (hd : w.compiler.depth + 1 < maxNesting)
    (ha : w.cursor.ahead = k.tokens) : exec (branch word) w =
      (.ok (), { w with
        cursor := {}, lines := w.lines ++ (k.terms o).map fun t => ⟨0, .condition "" t⟩ }) := by
  unfold branch
  rw [hword]
  show exec (conditions o >>= _) w = _
  rw [exec_bind_ok (exec_conditions_chain k o hw hd ha)]
  rfl

theorem dispatch_branch {word : Word} {o : Opener}
    (ho : (Opener.ofName? word.name).filter (·.isBranch) = some o) :
    dispatch word {} = written (branch word) := by
  unfold Opener.ofName? at ho
  split at ho
  case h_1 h =>
    unfold dispatch
    rw [h]
    rfl
  case h_2 h =>
    unfold dispatch
    rw [h]
    rfl
  all_goals cases ho

theorem dispatch_loop {word : Word} {name : String} (hname : name ∈ ["Do", "Loop"])
    (h : word.name = Text.lower name) : dispatch word {} = written (loop name) := by
  have hdo : Text.lower "Do" = "do" := by decide +kernel
  have hloop : Text.lower "Loop" = "loop" := by decide +kernel
  unfold dispatch
  simp only [List.mem_cons, List.not_mem_nil, or_false] at hname
  rcases hname with rfl | rfl
  · rw [h, hdo]
    rfl
  · rw [h, hloop]
    rfl

/-- What a loop does with a condition that has been read. -/
def loopTest (name : String) : List Term → Compile Unit
  | [t] => do
    if ← hasNext then fail .loopShape
    if t.negated then fail (.loopNegation name)
    emit [⟨0, .condition name t⟩]
  | _ => fail .loopShape

theorem exec_loop_word {word : Word} {o : Opener} {t : Tail} {more : List Token} (name : String)
    (hword : (Opener.ofName? word.name).filter (·.isLoop) = some o)
    (ha : w.cursor.ahead = ⟨word, t⟩ :: more) :
    exec (loop name) w = exec (condition o >>= loopTest name) { w with cursor := ⟨t, more⟩ } := by
  unfold loop
  rw [exec_bind_ok (exec_hasNext w), Cursor.hasNext, ha]
  refine (exec_bind_ok (exec_nextWord_cons ha)).trans ?_
  rw [hword]
  refine congrArg (fun k => exec (condition o >>= k) _) (funext fun ts => ?_)
  unfold loopTest
  rfl

theorem exec_loopTest_single (name : String) (t : Term) (ha : w.cursor.ahead = []) :
    exec (loopTest name [t]) w = if t.negated then (.error (.loopNegation name), w)
      else (.ok (), { w with lines := w.lines ++ [⟨0, .condition name t⟩] }) := by
  unfold loopTest
  rw [exec_bind_ok (exec_hasNext w), Cursor.hasNext, ha]
  cases t.negated <;> rfl

/-- A loop takes a single test that does not begin with `not`. -/
theorem exec_loop_chain (k : c.Chain) {word : Word} {o : Opener} {t : Tail} (name : String)
    (hword : (Opener.ofName? word.name).filter (·.isLoop) = some o)
    (hw : w.compiler.operand? = c.operand?) (hd : w.compiler.depth + 1 < maxNesting)
    (ha : w.cursor.ahead = ⟨word, t⟩ :: k.tokens) :
    if k.rest = [] ∧ k.first.negation = none then
      exec (loop name) w = (.ok (), { w with
        cursor := {}, lines := w.lines ++ [⟨0, .condition name (k.first.term o)⟩] })
    else ∃ f, f.isFormal ∧ (exec (loop name) w).1 = .error f ∧
      (exec (loop name) w).2.compiler = w.compiler := by
  have hcondition := exec_condition_chain (w := { w with cursor := ⟨t, k.tokens⟩ }) k o hw hd rfl
  rw [exec_loop_word name hword ha, exec_bind_ok hcondition, Chain.taken, Chain.left, Chain.terms]
  obtain ⟨first, rest⟩ := k
  cases rest with
  | nil =>
    have htest := exec_loopTest_single (w := { w with cursor := {} }) name (first.term o) rfl
    rw [show (first.term o).negated = first.negation.isSome from rfl] at htest
    simp only [List.map_nil, List.flatMap_nil, ite_self]
    cases hn : first.negation with
    | none =>
      rw [hn] at htest
      rw [if_pos ⟨trivial, rfl⟩]
      exact htest
    | some word =>
      rw [hn] at htest
      rw [if_neg fun h => nomatch h.2]
      exact ⟨.loopNegation name, rfl, congrArg (·.1) htest, congrArg (·.2.compiler) htest⟩
  | cons j rest =>
    rw [if_neg fun h => List.cons_ne_nil j rest h.1]
    refine ⟨.loopShape, rfl, ?_⟩
    cases first.comparison with
    | none => exact ⟨rfl, rfl⟩
    | some p => exact ⟨rfl, rfl⟩

end Compile

namespace Compiler

variable {c : Compiler}

theorem Test.write_term (t : c.Test) (loop : String) (o : Opener) :
    (t.term o).write loop = t.text loop o := by
  have hleft : String.join ([t.left.operand].map fun x => " " ++ x.write) =
      " " ++ t.left.operand.write := by
    rw [List.map_singleton, String.join_cons, String.join_nil, String.append_empty]
  unfold Term.write Test.text
  rw [show (t.term o).left = [t.left.operand] from rfl, hleft, ← String.append_assoc]
  cases hcomp : t.comparison with
  | none =>
    rw [Test.term_of_none hcomp]
    rfl
  | some p =>
    rw [Test.term_of_some hcomp]
    rfl

theorem Test.write_line (t : c.Test) (indent loop : String) (o : Opener) :
    Line.write indent ⟨0, .condition loop (t.term o)⟩ = indent ++ t.text loop o := by
  rw [← t.write_term]
  show indent ++ "" ++ (t.term o).write loop = _
  rw [String.append_empty]

theorem Chain.writeAll_terms (k : c.Chain) (indent : String) (o : Opener) :
    Line.writeAll indent ((k.terms o).map fun t => ⟨0, .condition "" t⟩) =
      Text.joinLines ((k.texts o).map (indent ++ ·)) := by
  rw [Line.writeAll, terms, texts]
  simp only [List.map_cons, List.map_map, Test.write_line, Joint.term, Function.comp_def]

/-- The work on the words behind the first one. -/
def behind (c : Compiler) (ts : List Token) : Work := { c.work [] with cursor := ⟨{}, ts⟩ }

theorem compile_written (c : Compiler) {act : Compile Unit} {word : Word} (ts : List Token)
    (h : Compile.dispatch word {} = Compile.written act) : c.compile (⟨word, {}⟩ :: ts) =
      ⟨(Compile.exec act (c.behind ts)).1.map fun _ => .lines (Compile.exec act (c.behind ts)).2.lines,
        (Compile.exec act (c.behind ts)).2.compiler, (Compile.exec act (c.behind ts)).2.cursor,
        (Compile.exec act (c.behind ts)).2.notes⟩ := by
  have hexec := Compile.exec_statement (w := c.work (⟨word, {}⟩ :: ts)) rfl
  rw [h, Compile.exec_written] at hexec
  exact congrArg (fun p => (⟨p.1, p.2.compiler, p.2.cursor, p.2.notes⟩ : Outcome Compiled)) hexec

theorem step_written {act : Compile Unit} {s : Statement} {word : Word} {ts : List Token} {ls : List Line}
    (hs : s.tokens = .ok (⟨word, {}⟩ :: ts)) (h : Compile.dispatch word {} = Compile.written act)
    (hact : Compile.exec act (c.behind ts) = (.ok (), { c.behind [] with lines := ls })) :
    c.emitted s = ls ∧
      c.step s = (⟨.ok (.text (Line.writeAll s.indent ls)), s.line, s.indent, []⟩, c) := by
  have hcompile := c.compile_written ts h
  rw [hact] at hcompile
  refine ⟨emitted_of_result hs (by rw [hcompile]; rfl), ?_⟩
  rw [step_of_tokens hs, hcompile]
  rfl

/-- A branch over tests joined by `and` and `or` is written as one line for each test, in their order, and
nothing else is written or declared. A loop with such a condition is written if there is a single test
that does not begin with `not`, and else its form is wrong. -/
theorem chains_of_tests (hd : c.depth + 1 < Compile.maxNesting) (k : c.Chain) (s : Statement)
    (keyword : Word) :
    (∀ o, (Opener.ofName? keyword.name).filter (·.isBranch) = some o →
      s.tokens = .ok (⟨keyword, {}⟩ :: k.tokens) →
      (c.emitted s).length = k.rest.length + 1 ∧
      c.step s =
        (⟨.ok (.text (Text.joinLines ((k.texts o).map (s.indent ++ ·)))), s.line, s.indent, []⟩, c)) ∧
    ∀ name ∈ ["Do", "Loop"], keyword.name = Text.lower name →
      ∀ word o, (Opener.ofName? word.name).filter (·.isLoop) = some o →
      s.tokens = .ok (⟨keyword, {}⟩ :: ⟨word, {}⟩ :: k.tokens) →
      if k.rest = [] ∧ k.first.negation = none then
        c.step s = (⟨.ok (.text (s.indent ++ k.first.text name o)), s.line, s.indent, []⟩, c)
      else ∃ f, f.isFormal ∧ (c.step s).1.result = .error f ∧ (c.step s).2 = c := by
  refine ⟨fun o ho hs => ?_, fun name hname hkeyword word o ho hs => ?_⟩
  · have hbranch := Compile.exec_branch_chain (w := c.behind k.tokens) k ho rfl hd rfl
    obtain ⟨hlines, hstep⟩ := step_written hs (Compile.dispatch_branch ho) hbranch
    refine ⟨?_, ?_⟩
    · rw [hlines]
      exact (List.length_map _).trans (congrArg (· + 1) (List.length_map _))
    · rw [hstep, ← k.writeAll_terms]
      rfl
  · have hloop := Compile.exec_loop_chain (w := c.behind (⟨word, {}⟩ :: k.tokens)) k name ho rfl hd rfl
    have hdispatch := Compile.dispatch_loop hname hkeyword
    split at hloop
    next h =>
      rw [if_pos h]
      obtain ⟨-, hstep⟩ := step_written hs hdispatch hloop
      rw [hstep, ← k.first.write_line]
      rfl
    next h =>
      rw [if_neg h]
      obtain ⟨f, hf, hfault, hcompiler⟩ := hloop
      refine ⟨f, hf, ?_⟩
      rw [step_of_tokens hs, c.compile_written _ hdispatch, hfault]
      exact ⟨rfl, hcompiler⟩

/-- Tests with and without a relation, the first of which is negated. -/
theorem chains_of_tests_mixed :
    let c := ((start true).steps (statements "Var x")).2
    let s : Statement := ⟨2, "  ", "  If not x == 1 And 2 Or x < 3",
      Scan.statement "If not x == 1 And 2 Or x < 3".toList⟩
    (c.emitted s).length = 3 ∧ (c.step s).1.result = .ok (.text
      "  $\x7bIfNot\x7d $x == 1\r\n  $\x7bAndIf\x7d 2\r\n  $\x7bOrIf\x7d $x < 3") := by
  intro c s
  let x : c.Atom := ⟨⟨.name, "x"⟩, .var ⟨"x", .global, none⟩, by decide +kernel⟩
  let n (text : String) : c.Atom := ⟨⟨.integer, text⟩, .literal text, rfl⟩
  let k : c.Chain := ⟨⟨some ⟨.name, "not"⟩, x, some (.eq, n "1"), by decide +kernel, by decide +kernel⟩,
    [⟨⟨.name, "And"⟩, .andIf, by decide +kernel, ⟨none, n "2", none, by decide, by decide +kernel⟩⟩,
      ⟨⟨.name, "Or"⟩, .orIf, by decide +kernel,
        ⟨none, x, some (.lt, n "3"), by decide, by decide +kernel⟩⟩]⟩
  have hs : s.tokens = .ok (⟨⟨.name, "If"⟩, {}⟩ :: k.tokens) := by decide +kernel
  obtain ⟨hlength, hstep⟩ := (chains_of_tests (by decide +kernel) k s ⟨.name, "If"⟩).1 .ifTrue
    (by decide +kernel) hs
  rw [hstep]
  exact ⟨hlength, congrArg (fun t => Except.ok (Output.text t)) (by decide +kernel)⟩

end Compiler

end InstallScript
