import InstallScript.Proofs.BuildParts
import InstallScript.Proofs.PostOrder
import InstallScript.Proofs.Respacing

/-!
Sources that hold nothing but the target language. A statement that is no construct of the language is
given back as it stands (`Compiler.step_of_foreign`). The texts of the statements are the lines of the
source, as long as no line is joined to the next one by a backslash at its end, which happens outside
of block comments only (`unlines_statements`). So a source of such statements becomes the prelude with
its own lines behind it (`foreign_source_passes_unchanged`).
-/

namespace InstallScript

open Text

/-! ## Statements of the target language -/

/-- The words that begin a construct, where no mark behind them makes them something else. -/
def keywords : List String :=
  ["var", "function", "return", "functionend", "if", "elseif", "else", "endif", "do", "loop",
    "continue", "break"]

/-- The words make no construct of the language: there are none, they are a command other than an
inclusion, or they begin with a word that is neither assigned to, nor called, nor a keyword. -/
def isForeign : List Token → Bool
  | [] => true
  | t :: ts =>
    if t.tail.command then ts.head?.all (·.word.name ≠ "include")
    else !t.tail.assigns && !t.tail.opens && !keywords.contains t.word.name

/-- The words of the statement can be read and make no construct of the language. -/
def Statement.isForeign (s : Statement) : Bool :=
  match s.tokens with
  | .error _ => false
  | .ok ts => InstallScript.isForeign ts

/-- No statement of the source is a construct of the language. -/
def IsForeignSource (source : String) : Prop := ∀ s ∈ statements source, s.isForeign

instance (source : String) : Decidable (IsForeignSource source) :=
  inferInstanceAs (Decidable (∀ s ∈ statements source, s.isForeign))

/-- The exclamation mark of a command has no other mark behind it. -/
theorem Scan.tail_of_command {cs : List Char} {t : Token} {ts : List Token}
    (h : statement cs = .ok (t :: ts)) (hc : t.tail.command) : t.tail = { command := true } := by
  unfold statement at h
  split at h
  · next rest _ =>
    cases hts : tokens rest with
    | error f =>
      rw [hts] at h
      cases h
    | ok us =>
      rw [hts] at h
      cases h
      rfl
  · have hword := ((tokens_rescan h).1 t List.mem_cons_self).2
    rw [hword] at hc
    cases hc

theorem mem_statementsFrom {n : Nat} {pending : Option Draft} {ls : List String} {s : Statement}
    (h : s ∈ statementsFrom n pending ls) : ∃ d k, s = Draft.finish d k := by
  induction ls generalizing n pending with
  | nil =>
    obtain ⟨d, -, rfl⟩ := Option.map_eq_some_iff.mp (Option.mem_toList.mp h)
    exact ⟨d, n, rfl⟩
  | cons l ls ih =>
    rw [statementsFrom_cons] at h
    rcases List.mem_append.mp h with h | h
    · split at h
      · cases h
      · exact ⟨_, _, List.mem_singleton.mp h⟩
    · exact ih h

/-- In a source the words of a command have the marks of one. -/
theorem tail_of_mem_statements {source : String} {s : Statement} {t : Token} {ts : List Token}
    (hs : s ∈ statements source) (h : s.tokens = .ok (t :: ts)) (hc : t.tail.command) :
    t.tail = { command := true } := by
  obtain ⟨d, k, rfl⟩ := mem_statementsFrom hs
  unfold Draft.finish at h
  dsimp only at h
  split at h
  · cases h
  · exact Scan.tail_of_command h hc

namespace Compile

/-- A command that includes nothing is left to the target language. -/
theorem exec_command_of_foreign {w : Work} (h : w.cursor.ahead.head?.all (·.word.name ≠ "include")) :
    ∃ cursor, exec command w = (.ok .verbatim, { w with cursor }) := by
  unfold command
  cases hc : w.cursor.ahead with
  | nil =>
    refine ⟨w.cursor, ?_⟩
    have hnext : w.cursor.hasNext = false := by rw [Cursor.hasNext, hc]; rfl
    rw [exec_bind_ok (exec_hasNext w), hnext]
    rfl
  | cons u us =>
    have hnext : w.cursor.hasNext = true := by rw [Cursor.hasNext, hc]; rfl
    have hu : u.word.name ≠ "include" := by simpa [hc] using h
    refine ⟨⟨u.tail, us⟩, ?_⟩
    rw [exec_bind_ok (exec_hasNext w), hnext]
    refine (exec_bind_ok (exec_nextWord_cons hc)).trans ?_
    rw [if_pos hu]
    rfl

theorem dispatch_of_foreign {word : Word} {t : Tail} (hc : t.command = false)
    (ha : t.assigns = false) (ho : t.opens = false) (hk : word.name ∉ keywords) :
    dispatch word t = pure .verbatim := by
  unfold dispatch
  rw [hc, ha, ho]
  simp only [keywords, List.mem_cons, List.not_mem_nil, or_false, not_or] at hk
  simp only [Bool.false_eq_true, if_false]
  split
  case h_13 => rfl
  all_goals simp_all only [not_true_eq_false, and_false, false_and]

end Compile

/-- Words that make no construct are passed over, in whatever state they are met. -/
theorem Compiler.compile_of_foreign {ts : List Token} (h : isForeign ts)
    (htail : ∀ t us, ts = t :: us → t.tail.command → t.tail = { command := true }) (c : Compiler) :
    (c.compile ts).result = .ok .verbatim ∧ (c.compile ts).compiler = c ∧ (c.compile ts).notes = [] := by
  have hexec : ∃ cursor, Compile.exec Compile.statement (c.work ts) =
      (.ok .verbatim, { c.work ts with cursor }) := by
    cases ts with
    | nil => exact ⟨{}, rfl⟩
    | cons t us =>
      have hnext : (c.work (t :: us)).cursor.next? = some (t.word, ⟨t.tail, us⟩) := rfl
      rw [Compile.exec_statement hnext]
      by_cases hc : t.tail.command = true
      · have hcommand : Compile.dispatch t.word t.tail = Compile.command := by
          rw [htail t us rfl hc]
          rfl
        rw [hcommand]
        rw [isForeign, if_pos hc] at h
        exact Compile.exec_command_of_foreign h
      · rw [isForeign, if_neg hc] at h
        simp only [Bool.and_eq_true, Bool.not_eq_true', List.contains_eq_mem,
          decide_eq_false_iff_not] at h
        rw [Compile.dispatch_of_foreign (Bool.eq_false_iff.mpr hc) h.1.1 h.1.2 h.2]
        exact ⟨_, rfl⟩
  obtain ⟨cursor, he⟩ := hexec
  refine ⟨congrArg Prod.fst he, ?_, ?_⟩
  · exact congrArg (fun r => r.2.compiler) he
  · exact congrArg (fun r => r.2.notes) he

/-- The step of a statement that passes unchanged. -/
def Statement.kept (s : Statement) : Step := ⟨.ok (.text s.text), s.line, s.indent, []⟩

theorem Compiler.step_of_foreign {source : String} (h : IsForeignSource source) {s : Statement}
    (hs : s ∈ statements source) (c : Compiler) : c.step s = (s.kept, c) := by
  have hforeign := h s hs
  rw [Statement.isForeign] at hforeign
  split at hforeign
  · cases hforeign
  next ts hts =>
  obtain ⟨hresult, hcompiler, hnotes⟩ := compile_of_foreign hforeign
    (fun t us he => tail_of_mem_statements hs (he ▸ hts)) c
  rw [step_of_tokens hts, hresult, hcompiler, hnotes]
  rfl

theorem Compiler.steps_of_kept {ss : List Statement} {c : Compiler}
    (h : ∀ s ∈ ss, c.step s = (s.kept, c)) : c.steps ss = (ss.map Statement.kept, c) := by
  induction ss with
  | nil => rfl
  | cons s ss ih =>
    obtain ⟨hs, hss⟩ := List.forall_mem_cons.mp h
    rw [steps_cons, hs, ih hss]
    rfl

/-! ## Lines of the target language -/

/-- The lines that belong to no block comment; `inside` says whether one is open before them. -/
def outsideComments (inside : Bool) : List String → List String
  | [] => []
  | l :: ls =>
    if inside || Draft.opensComment (unindented l).toList then
      outsideComments (!Draft.closesComment l.toList) ls
    else l :: outsideComments false ls

/-- No line is joined to the next one. -/
def Unjoined (inside : Bool) (ls : List String) : Prop :=
  ∀ l ∈ outsideComments inside ls, l.toList.getLast? ≠ some '\\'

instance (inside : Bool) (ls : List String) : Decidable (Unjoined inside ls) :=
  List.decidableBAll _ _

/-- The end of a comment does not stand on two lines. -/
theorem closesComment_append_line (cs ds : List Char) :
    Draft.closesComment (cs ++ '\r' :: '\n' :: ds) =
      (Draft.closesComment cs || Draft.closesComment ds) := by
  fun_induction Draft.closesComment cs with
  | case1 cs => rfl
  | case2 c cs hc ih =>
    have hcons : Draft.closesComment (c :: (cs ++ '\r' :: '\n' :: ds)) =
        Draft.closesComment (cs ++ '\r' :: '\n' :: ds) := by
      refine Draft.closesComment_cons fun rest hstar he => ?_
      subst hstar
      cases cs with
      | nil => cases he
      | cons d cs =>
        cases he
        exact hc cs rfl rfl
    rw [List.cons_append, hcons, ih]
  | case3 => rfl

theorem Draft.comment_start (l : String) : (start l).comment = opensComment (unindented l).toList := by
  rw [start]

/-- Nothing is left open but a block comment. -/
def Draft.InComment : Option Draft → Prop
  | none => True
  | some d => d.comment = true ∧ closesComment d.text.toList = false

/-- The text of a draft on lines of its own. -/
def Draft.written : Option Draft → String
  | none => ""
  | some d => d.text ++ newline

/-- A line goes to its draft as it is, and leaves nothing open but a block comment. -/
theorem Draft.next_inComment {pending : Option Draft} {l : String} {ls : List String}
    (hp : InComment pending) (hj : Unjoined pending.isSome (l :: ls)) :
    (next pending l).text = written pending ++ l ∧ InComment (next pending l).left? ∧
      Unjoined (next pending l).left?.isSome ls := by
  -- In a comment the line decides alone whether it ends: what was read before has no end in it.
  have hopen : ∀ d : Draft, d.comment = true → closesComment d.text.toList = closesComment l.toList →
      Unjoined (!closesComment l.toList) ls → InComment d.left? ∧ Unjoined d.left?.isSome ls := by
    intro d hc hclose hrest
    rw [left?, isOpen, if_pos hc, hclose]
    cases hl : closesComment l.toList with
    | true =>
      rw [hl] at hrest
      exact ⟨trivial, hrest⟩
    | false =>
      rw [hl] at hrest
      exact ⟨⟨hc, hclose.trans hl⟩, hrest⟩
  cases pending with
  | none =>
    refine ⟨String.empty_append.symm, ?_⟩
    by_cases hc : opensComment (unindented l).toList = true
    · rw [Unjoined, outsideComments, Option.isSome_none, Bool.false_or, if_pos hc] at hj
      exact hopen (start l) ((comment_start l).trans hc) rfl hj
    · rw [Unjoined, outsideComments, Option.isSome_none, Bool.false_or, if_neg hc] at hj
      obtain ⟨hlast, hrest⟩ := List.forall_mem_cons.mp hj
      have hclosed : (next none l).left? = none := by
        have hfinished : (start l).isOpen = false := by
          rw [isOpen, comment_start, if_neg hc]
          exact decide_eq_false hlast
        rw [next, left?, hfinished]
        rfl
      rw [hclosed]
      exact ⟨trivial, hrest⟩
  | some d =>
    have hd : next (some d) l = { d with text := d.text ++ newline ++ l } := if_pos hp.1
    refine ⟨by rw [hd]; rfl, hopen _ (by rw [hd]; exact hp.1) ?_ hj⟩
    rw [hd]
    simp [newline, closesComment_append_line, hp.2]

/-- The texts of the statements, each with a line end, are what has been read of an open comment and
the lines. -/
theorem unlines_statementsFrom {pending : Option Draft} {ls : List String} (n : Nat)
    (hp : Draft.InComment pending) (hj : Unjoined pending.isSome ls) :
    unlines ((statementsFrom n pending ls).map (·.text)) = Draft.written pending ++ unlines ls := by
  induction ls generalizing n pending with
  | nil => cases pending <;> simp [statementsFrom, unlines, Draft.written, Draft.finish, String.join_cons]
  | cons l ls ih =>
    obtain ⟨htext, hopen, hrest⟩ := Draft.next_inComment hp hj
    rw [statementsFrom_cons, List.map_append, unlines_append, ih _ hopen hrest, Draft.left?,
      show unlines (l :: ls) = unlines [l] ++ unlines ls from unlines_append [l] ls,
      ← String.append_assoc, ← String.append_assoc]
    have hline : Draft.written (some (Draft.next pending l)) = Draft.written pending ++ unlines [l] := by
      rw [Draft.written, htext, String.append_assoc]
      rfl
    split
    · rw [← hline]
      rfl
    · rw [← hline, Draft.written, String.append_empty]
      rfl

theorem unlines_statements {source : String} (h : Unjoined false (lines source)) :
    unlines ((statements source).map (·.text)) = unlines (lines source) := by
  have hp : Draft.InComment none := trivial
  rw [statements, unlines_statementsFrom 0 hp h]
  exact String.empty_append

/-! ## Builds of the target language -/

namespace Build

variable {o : Options} {b : Session} {path : Path} {source : String}

theorem run_statements_of_kept (compileFile : Path → Build String) {ss : List Statement}
    (h : ∀ s ∈ ss, b.compiler.step s = (s.kept, b.compiler)) :
    b.run (statements o compileFile path ss) = (.ok (unlines (ss.map (·.text))), b) := by
  induction ss with
  | nil => rfl
  | cons s ss ih =>
    obtain ⟨hs, hss⟩ := List.forall_mem_cons.mp h
    have hstatement : b.run (statement o compileFile path s) = (.ok s.text, b) := by
      rw [statement_eq, Session.run_bind, run_compiled, hs]
      show (_, { b with log := b.log ++ [] }) = _
      rw [List.append_nil]
    rw [statements, Session.run_bind, hstatement]
    dsimp only
    rw [Session.run_bind, ih hss]
    show (Except.ok (s.text ++ newline ++ _), b) = _
    rw [List.map_cons, ← List.singleton_append, unlines_append]
    rfl

theorem run_opening_of_source? (h : b.files.source? o path = some source) :
    ∃ z, b.run (opening o path) = (.ok (source, z), { b with fileCount := b.fileCount + 1 }) := by
  obtain ⟨z, bytes, hl, hn, hd⟩ := Tree.source?_eq_some.mp h
  refine ⟨z, ?_⟩
  unfold opening
  rw [run_get_bind, Tree.read_eq_ok.mpr ⟨z, hl, hn⟩]
  show b.run (ofFile path ((o.encoding.decode bytes).mapError .notText) >>= _) = _
  rw [hd]
  show ({ b with fileCount := b.fileCount + 1 } : Session).run
    (ofFile path (b.files.locate path) >>= fun place => pure (source, place)) = _
  rw [hl]
  rfl

/-- A file of the target language is compiled to its own lines. -/
theorem run_file_of_foreign (n : Nat) (h : IsForeignSource source) (hj : Unjoined false (lines source))
    (hs : b.files.source? o path = some source) :
    ∃ fileCount lineCount log, b.run (file o (n + 1) path) =
      (.ok (unlines (lines source)), { b with fileCount, lineCount, log }) := by
  obtain ⟨z, hopening⟩ := run_opening_of_source? hs
  rw [file_succ, Session.run_bind, hopening]
  let inside : Session := { b with fileCount := b.fileCount + 1, active := b.active ++ [z] }
  have hstatements : inside.run (statements o (file o n) path (InstallScript.statements source)) =
      (.ok (unlines (lines source)), inside) := by
    rw [run_statements_of_kept _ fun s hs => Compiler.step_of_foreign h hs _, unlines_statements hj]
  have hwithin : ∀ act : Build String, ({ b with fileCount := b.fileCount + 1 } : Session).run
      (within z act) =
        ((inside.run act).1, { (inside.run act).2 with active := (inside.run act).2.active.dropLast }) :=
    fun _ => rfl
  dsimp only
  rw [hwithin, Session.run_bind, hstatements]
  let count := linesRead (InstallScript.statements source)
  let log := b.log ++
    [⟨.info, .build, s!"End compiling {count} lines in file {path.text}"⟩]
  refine ⟨b.fileCount + 1, b.lineCount + count, log, ?_⟩
  show (_, ({ b with
    active := (b.active ++ [z]).dropLast
    fileCount := b.fileCount + 1
    lineCount := b.lineCount + count
    log } : Session)) = _
  rw [List.dropLast_concat]
  rfl

/-- A script of the target language is written with its own lines, and nothing else is done. -/
theorem run_script_of_foreign (name : String) (target : Path) (h : IsForeignSource source)
    (hj : Unjoined false (lines source)) (hs : b.files.source? o (sourceOf o name) = some source) :
    ∃ fileCount lineCount log, b.run (script o name target) =
      ({ b with fileCount, lineCount, log } : Session).run
        (writeFile o target (Line.prelude ++ newline ++ unlines (lines source))) := by
  obtain ⟨n, hn, -⟩ := exists_depth_eq b.files
  obtain ⟨log, hrun⟩ : ∃ log, b.run (script o name target) = ({ b with log } : Session).run
      (do
        let text ← file o (n + 1) (sourceOf o name)
        info s!"Output file: {target.text}"
        writeFile o target (Line.prelude ++ newline ++ text)) := by
    unfold script
    rw [run_info_bind, run_get_bind, hn]
    exact ⟨_, rfl⟩
  obtain ⟨fileCount, lineCount, log', hfile⟩ := run_file_of_foreign (b := { b with log }) n h hj hs
  rw [Session.run_bind, hfile] at hrun
  dsimp only at hrun
  rw [run_info_bind] at hrun
  exact ⟨fileCount, lineCount, _, hrun⟩

end Build

/-- The lines of the prelude and of a text behind it. -/
theorem lines_prelude_unlines (ls : List String) (h : ∀ l ∈ ls, '\n' ∉ l.toList) :
    lines (Line.prelude ++ newline ++ unlines ls) = lines Line.prelude ++ ls := by
  have hprelude : Line.prelude ++ newline = unlines (lines Line.prelude) := by decide +kernel
  rw [hprelude, ← unlines_append, lines_unlines]
  intro l hl
  exact (List.mem_append.mp hl).elim (newline_not_mem_lines _ l) (h l)

/-- The target language passes unchanged. Where no statement is a construct of the language, every
statement is given back as it is and the compiler stays as it is. If no line outside of block comments
goes on in the next one, the file that is written has the lines of the prelude and then those of the
source, and nothing can go wrong but the writing. -/
theorem foreign_source_passes_unchanged {source : String} (h : IsForeignSource source) :
    (∀ c : Compiler, ∀ s ∈ statements source,
      c.step s = (⟨.ok (.text s.text), s.line, s.indent, []⟩, c)) ∧
    (∀ c : Compiler, c.steps (statements source) =
      ((statements source).map fun s => ⟨.ok (.text s.text), s.line, s.indent, []⟩, c)) ∧
    (Unjoined false (lines source) →
      let text := Line.prelude ++ newline ++ unlines (lines source)
      lines text = lines Line.prelude ++ lines source ∧
      ∀ (o : Options) (b : Session) (name : String) (target : Path),
        b.files.source? o (Build.sourceOf o name) = some source →
        ∃ b' : Session, b'.files = b.files ∧ b'.compiler = b.compiler ∧
          b.run (Build.script o name target) = b'.run (Build.writeFile o target text) ∧
          ((b.run (Build.script o name target)).1 = .ok () →
            (b.run (Build.script o name target)).2.compiler = b.compiler ∧
            (b.run (Build.script o name target)).2.files.read target =
              .ok (o.encoding.encode text))) := by
  have hstep : ∀ c : Compiler, ∀ s ∈ statements source, c.step s = (s.kept, c) :=
    fun c s hs => Compiler.step_of_foreign h hs c
  refine ⟨hstep, fun c => Compiler.steps_of_kept (hstep c), fun hj => ?_⟩
  refine ⟨lines_prelude_unlines _ (newline_not_mem_lines source), fun o b name target hs => ?_⟩
  obtain ⟨fileCount, lineCount, log, hrun⟩ := Build.run_script_of_foreign name target h hj hs
  refine ⟨_, ?_, ?_, hrun, fun hok => ?_⟩
  · rfl
  · rfl
  rw [hrun] at hok ⊢
  obtain ⟨files, -, hread, hwrite⟩ := Build.run_writeFile (Build.FilesFine.of_ok (Prod.ext hok rfl))
  rw [hwrite]
  exact ⟨rfl, hread⟩

/-- A script with a command, a comment of several lines with a backslash in it, a blank line and
instructions; its lines end in both ways. -/
def plainScript : String :=
  "!define NAME \"a\"\r\n  /* a \\\n b\n*/\n\n; x = 1\n    File /r $NAME"

theorem foreign_source_passes_unchanged_of_plainScript :
    IsForeignSource plainScript ∧ Unjoined false (lines plainScript) ∧
    (∀ c : Compiler, (c.steps (statements plainScript)).2 = c) ∧
    let b : Session :=
      { files := { entries := [(["main"], .file (Encoding.utf8.encode plainScript))] } }
    b.files.source? {} (Build.sourceOf {} "main") = some plainScript ∧
    (b.run (Build.script {} "main" ⟨"out"⟩)).1 = .ok () ∧
    (b.run (Build.script {} "main" ⟨"out"⟩)).2.files.read ⟨"out"⟩ = .ok (Encoding.utf8.encode
      (Line.prelude ++ "\r\n!define NAME \"a\"\r\n  /* a \\\r\n b\r\n*/\r\n\r\n; x = 1\r\n" ++
        "    File /r $NAME\r\n")) := by
  have hforeign : IsForeignSource plainScript := by decide +kernel
  have hj : Unjoined false (lines plainScript) := by decide +kernel
  obtain ⟨-, hsteps, hbuild⟩ := foreign_source_passes_unchanged hforeign
  refine ⟨hforeign, hj, fun c => by rw [hsteps], ?_⟩
  intro b
  have hs : b.files.source? {} (Build.sourceOf {} "main") = some plainScript := by decide +kernel
  have hok : (b.run (Build.script {} "main" ⟨"out"⟩)).1 = .ok () := by decide +kernel
  obtain ⟨b', -, -, -, hwritten⟩ := (hbuild hj).2 {} b "main" ⟨"out"⟩ hs
  have htext : Line.prelude ++ newline ++ unlines (lines plainScript) = Line.prelude ++
      "\r\n!define NAME \"a\"\r\n  /* a \\\r\n b\r\n*/\r\n\r\n; x = 1\r\n" ++ "    File /r $NAME\r\n" := by
    decide +kernel
  exact ⟨hs, hok, (hwritten hok).2.trans (congrArg (Except.ok <| Encoding.utf8.encode ·) htext)⟩

end InstallScript
