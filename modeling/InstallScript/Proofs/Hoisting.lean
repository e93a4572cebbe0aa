import InstallScript.Proofs.TestedWords
import InstallScript.Proofs.Runs

/-!
Calls in a condition. The lines of a call stand ahead of the line that tests its result. Where the
condition of a branch is tested after another one has failed, and where the condition of a loop is
tested again, they are not carried out with the test: those lines belong to the body of the branch
before, or are done once before the loop. `calls_stand_ahead_of_test` says of every such statement
that its test is all that is done, declarations apart, exactly if no word of a value in the condition is
called.
-/

namespace InstallScript

/-- The statement tests a condition that more than the beginning of the statement can lead to: another
branch, or a loop that is tested where it begins. -/
def isRetested : List Token → Bool
  | [] => false
  | t :: rest => t.isPlain && (t.word.name = "elseif" || (t.word.name = "do" && !rest.isEmpty))

/-- The first line of such a condition, by the construct and the opener of its first term. -/
def retests : List (String × Opener) := [("", .elseIf), ("Do", .whileTrue), ("Do", .untilTrue)]

/-- The words of values in its condition. The word behind the one that begins a loop says how the condition
is meant. -/
def testedWords : List Token → List Token
  | [] => []
  | t :: rest => (Stage.term 1).valueWords (if t.word.name = "do" then rest.tail else rest)

theorem testedWords_sublist (t : Token) (rest : List Token) : (testedWords (t :: rest)).Sublist rest := by
  rw [testedWords]
  split
  · exact (Stage.valueWords_sublist _ _).trans (List.tail_sublist rest)
  · exact Stage.valueWords_sublist _ _

namespace Compile

variable {w w' : Work}

theorem mem_retests_of_isLoop {o : Opener} (h : o.isLoop) : ("Do", o) ∈ retests := by
  cases o with
  | whileTrue | untilTrue => decide
  | ifTrue | elseIf | andIf | orIf => cases h

theorem gives_dispatch_retested {t : Token} (h : isRetested (t :: w.cursor.ahead)) :
    Gives (dispatch t.word t.tail) w fun r w' => r = .lines w'.lines ∧
      (∃ test ∈ retests, Tests test.1 test.2 (testedWords (t :: w.cursor.ahead)) w w') ∧
      ∀ u ∈ w.cursor.ahead, u.word.isConnecting = false → u ∈ testedWords (t :: w.cursor.ahead) := by
  simp only [isRetested, Token.isPlain, Bool.and_eq_true, Bool.or_eq_true, Bool.not_eq_true',
    decide_eq_true_eq] at h
  obtain ⟨⟨⟨ha, ho⟩, hc⟩, hname⟩ := h
  unfold dispatch
  rw [ha, ho, hc]
  rcases hname with hname | ⟨hname, hahead⟩
  · simp only [hname]
    refine gives_written ((gives_branch t.word).mono ?_)
    rintro _ w' ⟨o, hword, h⟩
    rw [hname] at hword
    cases hword
    rw [testedWords, if_neg (by rw [hname]; decide)]
    exact ⟨⟨("", .elseIf), by decide, h⟩, fun u hu => Stage.mem_valueWords hu⟩
  · simp only [hname]
    refine gives_written ((gives_loop "Do").mono ?_)
    rintro _ w' (⟨he, _⟩ | ⟨v, vs, o, hvs, ho, hloop, h⟩)
    · rw [he] at hahead
      cases hahead
    rw [testedWords, if_pos hname, hvs]
    refine ⟨⟨("Do", o), mem_retests_of_isLoop hloop, h⟩, fun u hu hc => ?_⟩
    rcases List.mem_cons.mp hu with rfl | hu
    · simp [Word.isConnecting, ho] at hc
    · exact Stage.mem_valueWords hu hc

end Compile

/-- The lines of a condition that is tested at a time of its own end in the lines of its terms. The lines
ahead of them do more than declare variables exactly if a word of a value in the condition is called. All
words behind the first one are words of values but for some of those that conditions are built with. -/
theorem calls_stand_ahead_of_test (c : Compiler) {ts : List Token} {ls : List Line}
    (hts : isRetested ts) (h : (c.compile ts).result = .ok (.lines ls)) :
    ∃ ahead, ∃ terms : List Term, ∃ test ∈ retests, [test.2] <+: terms.map (·.opener) ∧
      ls = ahead ++ terms.map (fun t => ⟨0, .condition test.1 t⟩) ∧
      ((∃ l ∈ ahead, l.instr.declared? = none) ↔ ∃ t ∈ testedWords ts, t.opens) ∧
      (testedWords ts).Sublist ts.tail ∧
      ∀ t ∈ ts.tail, t.word.isConnecting = false → t ∈ testedWords ts := by
  cases ts with
  | nil => cases h
  | cons t rest =>
    obtain ⟨w', he, _⟩ := Compile.exec_dispatch_of_compile h
    obtain ⟨hls, ⟨test, htest, w₁, ahead, terms, hahead, hacts, _, hopener, hw⟩, hwords⟩ :=
      Compile.gives_dispatch_retested (w := { compiler := c, cursor := ⟨t.tail, rest⟩ }) hts _ _ he
    refine ⟨ahead, terms, test, htest, hopener, ?_, hacts, testedWords_sublist t rest, hwords⟩
    cases hls
    rw [hw, Work.write, hahead]
    rfl

/-- The word `GetParameters() ==`. -/
def loopCall : Token :=
  ⟨⟨.name, "GetParameters"⟩, { opens := true, closes := 1, relation := some .eq }⟩

/-- The words `do while GetParameters() == "a"`. -/
def loopWords : List Token :=
  [⟨⟨.name, "Do"⟩, {}⟩, ⟨⟨.name, "While"⟩, {}⟩, loopCall, ⟨⟨.quoted, "\"a\""⟩, {}⟩]

/-- The lines of a loop with these words, for the first variable that is generated. -/
def loopLines : List Line :=
  let v : Variable := ⟨"bridle_1", .global, none⟩
  [⟨0, .declare v⟩, ⟨0, .perform (.header "GetParameters") [.var v]⟩,
    ⟨0, .condition "Do" ⟨.whileTrue, false, [.var v], some ("==", .literal "\"a\"")⟩⟩]

/-- The words `do while (1 < 3)`, with a parenthesis behind a word that nobody calls. -/
def plainLoopWords : List Token :=
  [⟨⟨.name, "Do"⟩, {}⟩, ⟨⟨.name, "While"⟩, { opens := true }⟩,
    ⟨⟨.integer, "1"⟩, { relation := some .lt }⟩, ⟨⟨.integer, "3"⟩, { closes := 1 }⟩]

def plainLoopLines : List Line :=
  [⟨0, .condition "Do" ⟨.whileTrue, false, [.literal "1"], some ("<", .literal "3")⟩⟩]

/-- The call of the one loop stands ahead of its test, and nothing ahead of that of the other. -/
theorem calls_stand_ahead_of_test_of_loop :
    ((isRetested loopWords ∧ ((Compiler.start true).compile loopWords).result = .ok (.lines loopLines)) ∧
      ∃ ahead, ∃ terms : List Term, ∃ test ∈ retests,
        loopLines = ahead ++ terms.map (fun t => ⟨0, .condition test.1 t⟩) ∧
        ∃ l ∈ ahead, l.instr.declared? = none) ∧
    (isRetested plainLoopWords ∧
      ((Compiler.start true).compile plainLoopWords).result = .ok (.lines plainLoopLines)) ∧
      ∃ ahead, ∃ terms : List Term, ∃ test ∈ retests,
        plainLoopLines = ahead ++ terms.map (fun t => ⟨0, .condition test.1 t⟩) ∧
        ¬∃ l ∈ ahead, l.instr.declared? = none := by
  have hwords : isRetested loopWords := by decide
  have hlines : ((Compiler.start true).compile loopWords).result = .ok (.lines loopLines) := by rfl
  have hwords' : isRetested plainLoopWords := by decide
  have hlines' : ((Compiler.start true).compile plainLoopWords).result = .ok (.lines plainLoopLines) := by
    rfl
  obtain ⟨ahead, terms, test, htest, _, hls, hcalls, _⟩ :=
    calls_stand_ahead_of_test (Compiler.start true) hwords hlines
  obtain ⟨ahead', terms', test', htest', _, hls', hcalls', _⟩ :=
    calls_stand_ahead_of_test (Compiler.start true) hwords' hlines'
  refine ⟨⟨⟨hwords, hlines⟩, ahead, terms, test, htest, hls, hcalls.mpr ⟨loopCall, by decide, by decide⟩⟩,
    ⟨hwords', hlines'⟩, ahead', terms', test', htest', hls', fun h => ?_⟩
  exact absurd (hcalls'.mp h) (by decide)

/-- A script with a call in a condition of either kind. -/
def callsInConditions : List String :=
  ["Do While GetParameters() == \"a\"\nLoop",
    "If 1 == 2\nElseIf GetParameters() == \"a\"\nEndIf"]

/-- The call of the loop is done once, before it; the call of the branch is done at the end of the
branch that excludes it. -/
theorem call_of_condition_is_done_before_it :
    (((Compiler.start true).steps (program callsInConditions)).1.map (·.result.toOption)) =
      ["Var /GLOBAL bridle_1\r\n$\x7bGetParameters\x7d $bridle_1\r\n$\x7bDoWhile\x7d $bridle_1 == \"a\"",
        "$\x7bLoop\x7d", "$\x7bIf\x7d 1 == 2",
        "Var /GLOBAL bridle_2\r\n$\x7bGetParameters\x7d $bridle_2\r\n$\x7bElseIf\x7d $bridle_2 == \"a\"",
        "$\x7bEndIf\x7d"].map (some <| .text ·) := by
  decide +kernel

end InstallScript
