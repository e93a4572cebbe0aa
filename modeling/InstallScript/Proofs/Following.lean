import InstallScript.Proofs.Inlining
import InstallScript.Proofs.Recording

/-!
Builds that follow inclusions. A build and a compiler of the inlined lines go side by side: `Matches`
says that from a state on the build has made the texts that the compiler has made, has done to its own
compiler the same, and has left files that resemble those of the inlining. Each part of a build is shown
to keep this (`Recorded.yields_statements` goes along the inlined lines), which gives
`build_follows_as_inlined`.
-/

namespace InstallScript

/-- A file that is not written to is found with the same text in trees that resemble each other. -/
theorem Tree.Resembles.source? {written : Place → Prop} {t t' : Tree} {o : Options} {path : Path}
    (h : t.Resembles written t') (hapart : ∀ z, t.locate path = .ok z → ¬written z) :
    t'.source? o path = t.source? o path := by
  have hread : t'.read path = t.read path := by
    rw [Tree.read, Tree.read, h.locate]
    cases hl : t.locate path with
    | error f => rfl
    | ok z =>
      dsimp only [bind, Except.bind]
      rw [h.same z (hapart z hl)]
  rw [Tree.source?, Tree.source?, hread]

namespace Recorded

/-! ## Builds side by side with compilers -/

/-- An action in which no file is at fault ends so. -/
def Yields (act : Recorded α) (σ : Session × List Event)
    (Q : Except BuildFault α → Session × List Event → Prop) : Prop :=
  Build.FilesFine (exec act σ).1 → Q (exec act σ).1 (exec act σ).2

theorem Yields.of_run {act : Build α} {σ : Session × List Event}
    {Q : Except BuildFault α → Session × List Event → Prop}
    (h : Build.FilesFine (σ.1.run act).1 → Q (σ.1.run act).1 ((σ.1.run act).2, σ.2)) :
    Yields (lift act) σ Q := h

/-- A build ends with the fault that compiling has ended with, or well if there is none. -/
def Concludes (fault : Option Fault) (r : Except BuildFault α) : Prop :=
  match fault with
  | none => ∃ a, r = .ok a
  | some f => ∃ path line, r = .error (.source path line f)

theorem Concludes.error {fault : Option Fault} {f : BuildFault}
    (h : Concludes fault (.error f : Except _ α)) :
    (∃ f, fault = some f) ∧ Concludes fault (.error f : Except _ β) := by
  cases fault with
  | none =>
    obtain ⟨a, ha⟩ := h
    cases ha
  | some fault =>
    obtain ⟨path, line, hf⟩ := h
    cases hf
    exact ⟨⟨fault, rfl⟩, path, line, rfl⟩

theorem Concludes.eq_none {fault : Option Fault} {a : α} (h : Concludes fault (.ok a)) :
    fault = none := by
  cases fault with
  | none => rfl
  | some fault =>
    obtain ⟨path, line, hf⟩ := h
    cases hf

section

variable (o : Options) (t : Tree) (main : Path)

/-- From a state on, a build has made the texts and done to the compiler what compiling has. If it goes
on, its files resemble those of the tree. -/
structure Matches (p : Progress) (u : Tree) (σ : Session × List Event) (r : Except BuildFault α)
    (σ' : Session × List Event) : Prop where
  texts : madeIn σ'.2 = madeIn σ.2 ++ p.texts
  compiler : σ'.1.compiler = p.compiler
  files : ∀ a, r = .ok a → u.Resembles (Written o t main) σ'.1.files
  active : σ'.1.active = σ.1.active
  result : Concludes p.fault r

/-- The files `ps` are being compiled, and the files of the build resemble those of the tree. -/
structure Among (ps : List Path) (u : Tree) (σ : Session × List Event) : Prop where
  files : u.Resembles (Written o t main) σ.1.files
  workDir : u.workDir = t.workDir
  active : ps.map t.place? = σ.1.active.map some

end

variable {o : Options} {t u u' : Tree} {main p : Path} {ps : List Path}
  {σ σ' σ'' : Session × List Event} {m : Progress} {next : Compiler → Progress} {act : Recorded α}
  {k : α → Recorded β} {Q : Except BuildFault β → Session × List Event → Prop}

theorem Matches.among {a : α} (h : Matches o t main m u' σ (.ok a) σ') (hat : Among o t main ps u σ)
    (hwork : u'.workDir = t.workDir) : Among o t main ps u' σ' :=
  ⟨h.files a rfl, hwork, by rw [h.active, hat.active]⟩

/-- Nothing has been compiled. -/
theorem Matches.idle {r : Except BuildFault α} {b : Session} {es : List Event}
    (hfiles : u.Resembles (Written o t main) b.files) (hcompiler : b.compiler = σ.1.compiler)
    (hactive : b.active = σ.1.active) (hes : madeIn es = madeIn σ.2) (hr : ∃ a, r = .ok a) :
    Matches o t main { compiler := σ.1.compiler } u σ r (b, es) :=
  ⟨hes.trans (List.append_nil _).symm, hcompiler, fun _ _ => hfiles, hactive, hr⟩

theorem Matches.error {f : BuildFault} (h : Matches o t main m u σ (.error f : Except _ α) σ') :
    Matches o t main (m.andThen next) u' σ (.error f : Except _ β) σ' := by
  obtain ⟨⟨fault, hfault⟩, hresult⟩ := h.result.error
  rw [Progress.andThen_of_fault hfault]
  exact ⟨h.texts, h.compiler, (fun _ hr => by cases hr), h.active, hresult⟩

theorem Matches.trans {a : α} {r : Except BuildFault β} (h : Matches o t main m u σ (.ok a) σ')
    (h' : Matches o t main (next m.compiler) u' σ' r σ'') :
    Matches o t main (m.andThen next) u' σ r σ'' := by
  rw [Progress.andThen_of_none h.result.eq_none]
  refine ⟨?_, h'.compiler, h'.files, h'.active.trans h.active, h'.result⟩
  rw [h'.texts, h.texts, List.append_assoc]

theorem Yields.bind {P : Except BuildFault α → Session × List Event → Prop} (h : Yields act σ P)
    (herror : ∀ f σ', P (.error f) σ' → Q (.error f) σ')
    (hok : ∀ a σ', P (.ok a) σ' → Yields (k a) σ' Q) : Yields (act >>= k) σ Q := by
  intro hfine
  rw [exec_bind] at hfine ⊢
  unfold Yields at h
  cases hact : exec act σ with
  | mk r σ' =>
    rw [hact] at h hfine
    cases r with
    | ok a => exact hok a σ' (h fun _ _ hr => by cases hr) hfine
    | error f =>
      refine herror f σ' (h ?_)
      rintro path f' ⟨⟩
      exact hfine path f' rfl

theorem Yields.andThen (h : Yields act σ (Matches o t main m u σ))
    (hk : ∀ a σ', Matches o t main m u σ (.ok a) σ' →
      Yields (k a) σ' (Matches o t main (next m.compiler) u' σ')) :
    Yields (act >>= k) σ (Matches o t main (m.andThen next) u' σ) :=
  h.bind (fun _ _ hm => hm.error) fun a σ' hm hfine => hm.trans (hk a σ' hm hfine)

/-- What is done behind compiling may leave it as it is. -/
theorem Yields.then_idle (h : Yields act σ (Matches o t main m u σ)) (u' : Tree)
    (hk : ∀ a σ', Matches o t main m u σ (.ok a) σ' →
      Yields (k a) σ' (Matches o t main { compiler := σ'.1.compiler } u' σ')) :
    Yields (act >>= k) σ (Matches o t main m u' σ) := by
  rw [← Compiler.andThen_advance_nil m]
  refine h.andThen fun a σ' hm => ?_
  have hcompiler : Compiler.advance m.compiler [] = { compiler := σ'.1.compiler } := by
    rw [hm.compiler]
    rfl
  rw [hcompiler]
  exact hk a σ' hm

theorem yields_pure (hat : Among o t main ps u σ) (a : α) :
    Yields (pure a) σ (Matches o t main { compiler := σ.1.compiler } u σ) :=
  fun _ => .idle hat.files rfl rfl rfl ⟨a, rfl⟩

theorem Yields.lift_bind {act : Build α} {a : α} {b : Session} (h : σ.1.run act = (.ok a, b))
    (hk : Yields (k a) (b, σ.2) Q) : Yields (lift act >>= k) σ Q := by
  rw [Yields, exec_bind, exec_lift, h]
  exact hk

/-! ## Statements -/

variable {way : List Place} {source : Path} {s : Statement} {name : String}

theorem yields_own {compileFile : Path → Recorded (List Passage)} (hat : Among o t main ps u σ)
    (hs : Build.included? s = none) : Yields (statement o compileFile way source s) σ
      (Matches o t main (σ.1.compiler.attempt s) u σ) := by
  intro _
  rw [statement, exec_get_bind, exec_bind, exec_lift, Build.run_compiled, Compiler.attempt]
  cases hr : (σ.1.compiler.step s).1.result with
  | error f =>
    exact ⟨(List.append_nil _).symm, rfl, (fun _ h => by cases h), rfl, source, s.line, rfl⟩
  | ok out =>
    cases out with
    | text text => exact ⟨madeIn_append _ _, rfl, fun _ _ => hat.files, rfl, _, rfl⟩
    | inclusion name => cases hs.symm.trans (included?_of_step hr)

section

variable {b : Block} {bs : List Block} (h : Inlinable o t main)
  (harrives : Arrives o t main ps p (b :: bs) u) (hname : Build.included? b.statement = some name)
  (hat : Among o t main (ps ++ [p]) u σ) (way : List Place) (source : Path) (s : Statement)
include h harrives hname hat

/-- An inclusion is left as it is where no file is found, and is followed where one is. -/
theorem inclusion_cases (compileFile : Path → Recorded (List Passage)) :
    ∃ log es, madeIn es = madeIn σ.2 ∧
      (((∃ f, u.locate (Build.sourceOf o name) = .error f) ∧
        exec (inclusion o compileFile way source s name) σ =
          (.ok (.own s.text), ({ σ.1 with log }, es ++ [.made s.text []]))) ∨
      exec (inclusion o compileFile way source s name) σ = exec (do
        let content ← compileFile (Build.sourceOf o name)
        lift (Build.writeFile o (Build.targetOf o name) (Passage.writeAll content))
        record (.wrote (Build.targetOf o name) content)
        return Passage.brought s.indent name) ({ σ.1 with log }, es)) := by
  have hmade : ∀ found outcome, madeIn (σ.2 ++ [.met way name found outcome]) = madeIn σ.2 :=
    fun _ _ => madeIn_concat rfl
  obtain ⟨f, log, hl, hrun⟩ | ⟨z, hl, hz, _⟩ | ⟨z, log, hl, _, hrun⟩ :=
    Build.run_fate (b := σ.1) source s (h.compiled name u ⟨ps, p, b, bs, harrives, hname⟩)
  · refine ⟨log, _, hmade (σ.1.files.locate (Build.sourceOf o name)) (.ok .absent),
      .inl ⟨⟨f, (hat.files.locate _).symm.trans hl⟩, ?_⟩⟩
    rw [inclusion, exec_bind, exec_meet hrun]
    rfl
  · refine absurd ?_ (h.not_on_way harrives hname ((hat.files.locate _).symm.trans hl))
    rw [hat.active]
    exact List.mem_map_of_mem hz
  · refine ⟨log, _, hmade (σ.1.files.locate (Build.sourceOf o name)) (.ok .followed), .inr ?_⟩
    rw [inclusion, exec_bind, exec_meet hrun]

/-- A missing file is not followed. -/
theorem yields_absent (hs : u.source? o (Build.sourceOf o name) = none) (n : Nat) :
    Yields (inclusion o (file o (n + 1) way) way source s name) σ
      (Matches o t main { texts := [s.text], compiler := σ.1.compiler } u σ) := by
  unfold Yields
  obtain ⟨log, es, hes, ⟨_, hexec⟩ | hexec⟩ :=
    inclusion_cases h harrives hname hat way source s (file o (n + 1) way)
  · rw [hexec]
    intro _
    refine ⟨?_, rfl, fun _ _ => hat.files, rfl, _, rfl⟩
    rw [madeIn_append, hes]
    rfl
  · have hopening : Yields (lift (Build.opening o (Build.sourceOf o name))) ({ σ.1 with log }, es)
        fun _ _ => False := by
      refine .of_run fun hfine => ?_
      obtain ⟨source', z, fileCount, hs', hl, _⟩ := Build.run_opening (b := { σ.1 with log }) hfine
      have hsame := hat.files.source? (o := o) fun z hz =>
        h.apart name u z ⟨ps, p, b, bs, harrives, hname⟩ hz
      rw [hsame, hs] at hs'
      cases hs'
    rw [hexec]
    exact (hopening.bind (Q := fun _ _ => False) (fun _ _ => id) fun _ _ => False.elim).bind
      (fun _ _ => False.elim) fun _ _ => False.elim

end

theorem yields_writeFile {path : Path} (hat : Among o t main ps u σ)
    (hwritten : ∀ z, t.place? path = some z → Written o t main z) (text : String) :
    Yields (lift (Build.writeFile o path text)) σ
      (Matches o t main { compiler := σ.1.compiler } (u.receive path) σ) := by
  refine .of_run fun hfine => ?_
  obtain ⟨files, hprepare, hwrite, hrun⟩ := Build.run_writeFile_eq (b := σ.1) hfine
  rw [hrun]
  refine .idle (hat.files.receive (fun z hz => hwritten z ?_) hprepare hwrite) rfl rfl rfl ⟨(), rfl⟩
  rw [← hz, Tree.place?_congr hat.workDir]

/-- A file that is there is followed, and its compiled form is written. -/
theorem yields_followed {b : Block} {bs : List Block} {text : String} {ms : List String}
    {compileFile : Path → Recorded (List Passage)} (h : Inlinable o t main)
    (harrives : Arrives o t main ps p (b :: bs) u)
    (hb : u.follows? o b.statement = some (name, text)) (hms : Inlines o u (blocks text) ms u')
    (hat : Among o t main (ps ++ [p]) u σ) (next : Compiler → Progress)
    (hfile : ∀ σ', Among o t main (ps ++ [p]) u σ' →
      Yields (compileFile (Build.sourceOf o name)) σ' (Matches o t main (next σ'.1.compiler) u' σ')) :
    Yields (inclusion o compileFile way source s name) σ
      (Matches o t main (next σ.1.compiler) (u'.receive (Build.targetOf o name)) σ) := by
  obtain ⟨hname, hs⟩ := Tree.follows?_eq_some.mp hb
  have hwork : u'.workDir = t.workDir := (workDir_of_inlines hms).trans harrives.workDir
  unfold Yields
  obtain ⟨log, es, hes, ⟨⟨f, hl⟩, _⟩ | hexec⟩ :=
    inclusion_cases h harrives hname hat way source s compileFile
  · obtain ⟨z, _, hl', _⟩ := Tree.source?_eq_some.mp hs
    cases hl.symm.trans hl'
  · rw [hexec]
    intro hfine
    have hat' : Among o t main (ps ++ [p]) u ({ σ.1 with log }, es) :=
      ⟨hat.files, hat.workDir, hat.active⟩
    have hm := (hfile _ hat').then_idle (u'.receive (Build.targetOf o name)) (fun content σ' hm => ?_) hfine
    · exact ⟨hm.texts.trans (by rw [hes]), hm.compiler, hm.files, hm.active, hm.result⟩
    · refine (yields_writeFile (hm.among hat' hwork) (fun z hz => harrives.written hb hz) _).then_idle _
        fun _ σ'' hm' _ => ?_
      exact .idle (hm'.files _ rfl) rfl rfl (madeIn_concat rfl) ⟨_, rfl⟩

/-! ## Files -/

theorem yields_opening {text : String} (hat : Among o t main ps u σ)
    (hs : σ.1.files.source? o p = some text) :
    Yields (lift (Build.opening o p)) σ fun r σ' => ∃ z fileCount, r = .ok (text, z) ∧
      t.place? p = some z ∧ σ' = ({ σ.1 with fileCount }, σ.2) := by
  refine .of_run fun hfine => ?_
  obtain ⟨text', z, fileCount, hs', hl, hrun⟩ := Build.run_opening (b := σ.1) hfine
  cases hs.symm.trans hs'
  rw [hrun]
  refine ⟨z, fileCount, rfl, ?_, rfl⟩
  rw [← Tree.place?_congr (hat.files.workDir.trans hat.workDir), Tree.place?_of_locate hl]

theorem yields_file {text : String} {n : Nat} (next : Compiler → Progress)
    (hat : Among o t main ps u σ) (hs : σ.1.files.source? o p = some text)
    (hbody : ∀ way σ', Among o t main (ps ++ [p]) u σ' →
      Yields (statements o (file o n way) way p (InstallScript.statements text)) σ'
        (Matches o t main (next σ'.1.compiler) u' σ')) :
    Yields (file o (n + 1) way p) σ (Matches o t main (next σ.1.compiler) u' σ) := by
  refine (yields_opening hat hs).bind ?_ ?_
  · rintro f σ' ⟨_, _, ⟨⟩, _⟩
  · rintro _ _ ⟨z, fileCount, ⟨⟩, hz, rfl⟩ hfine
    rw [exec_within] at hfine ⊢
    dsimp only at hfine ⊢
    have hat' : Among o t main (ps ++ [p]) u ({ σ.1 with fileCount, active := σ.1.active ++ [z] },
        σ.2 ++ [.moved (σ.1.active ++ [z])]) := by
      refine ⟨hat.files, hat.workDir, ?_⟩
      rw [List.map_append, List.map_append, hat.active, List.map_singleton, hz]
      rfl
    have hm := (hbody _ _ hat').then_idle u' (fun content σ' hm => ?_) hfine
    · refine ⟨?_, hm.compiler, hm.files, ?_, hm.result⟩
      · rw [madeIn_concat rfl, hm.texts]
        exact congrArg (· ++ _) (madeIn_concat rfl)
      · show List.dropLast _ = _
        rw [hm.active]
        exact List.dropLast_concat
    · exact fun _ => .idle (hm.files _ rfl) rfl rfl rfl ⟨content, rfl⟩

theorem yields_statements_cons {compileFile : Path → Recorded (List Passage)} {ss : List Statement}
    (hat : Among o t main ps u σ) (hwork : u'.workDir = t.workDir) {u'' : Tree}
    (hs : Yields (statement o compileFile way p s) σ (Matches o t main m u' σ))
    (hss : ∀ σ', Among o t main ps u' σ' → Yields (statements o compileFile way p ss) σ'
      (Matches o t main (next σ'.1.compiler) u'' σ')) :
    Yields (statements o compileFile way p (s :: ss)) σ (Matches o t main (m.andThen next) u'' σ) := by
  refine hs.andThen fun passage σ' hm => ?_
  rw [← hm.compiler]
  exact (hss σ' (hm.among hat hwork)).then_idle u'' fun rest σ'' hm' _ =>
    .idle (hm'.files _ rfl) rfl rfl rfl ⟨_, rfl⟩

/-- Compiling the statements of a file is compiling their lines with those of all included files. -/
theorem yields_statements {bs : List Block} {ls : List String} (h : Inlinable o t main)
    (hi : Inlines o u bs ls u') {n : Nat} (harrives : Arrives o t main ps p bs u)
    (hn : t.entries.length ≤ ps.length + n) (hat : Among o t main (ps ++ [p]) u σ) :
    Yields (statements o (file o n way) way p (bs.map (·.statement))) σ
      (Matches o t main (σ.1.compiler.advanceLines ls) u' σ) := by
  induction hi generalizing ps p n σ way with
  | nil => exact yields_pure hat _
  | @own u u' b bs ls hb hls ih =>
    have hwhole := h.whole harrives b List.mem_cons_self
    rw [Compiler.advanceLines_append hwhole.closed, Compiler.advanceLines_of_whole hwhole]
    refine yields_statements_cons hat harrives.workDir ?_ fun σ' hat' => ih (harrives.own hb) hn hat'
    cases hname : Build.included? b.statement with
    | none => exact yields_own hat hname
    | some name =>
      obtain ⟨n, rfl, _⟩ := h.exists_eq_succ harrives hn
      rw [Yields, exec_statement_of_included? hname, attempt_of_included? hname]
      exact yields_absent h harrives hname hat way p b.statement
        (Tree.source?_of_follows?_eq_none hb hname) n
  | @followed u u₁ u' b bs name text ms ls hb hms hls ihms ih =>
    obtain ⟨hname, hs⟩ := Tree.follows?_eq_some.mp hb
    have hpast := harrives.past hb hms
    have hclosed := h.endsClosed_of_inlines (harrives.into hb) hms
    rw [Compiler.advanceLines_append hclosed]
    refine yields_statements_cons hat hpast.workDir ?_ fun σ' hat' => ih hpast hn hat'
    obtain ⟨n, rfl, hn'⟩ := h.exists_eq_succ harrives hn
    rw [Yields, exec_statement_of_included? hname]
    refine yields_followed h harrives hb hms hat (·.advanceLines ms) fun σ' hat' => ?_
    have hsame := hat'.files.source? (o := o) fun z hz =>
      h.apart name u z ⟨ps, p, b, bs, harrives, hname⟩ hz
    refine yields_file (·.advanceLines ms) hat' (hsame.trans hs) fun way σ'' hat'' => ?_
    rw [← statement_blocks]
    exact ihms (harrives.into hb) hn' hat''

end Recorded

/-! ## Scripts -/

variable {o : Options} {t : Tree} {name : String} {target : Path}

/-- A build reads its source. -/
theorem source?_of_run_script
    (hfine : Build.FilesFine (({ files := t } : Session).run (Build.script o name target)).1) :
    (t.source? o (Build.sourceOf o name)).isSome := by
  rw [Build.script, Build.run_info_bind, Build.run_get_bind] at hfine
  have hfile := hfine.of_bind
  obtain ⟨n, hdepth, _⟩ := exists_depth_eq t
  rw [hdepth, Build.file_succ] at hfile
  obtain ⟨source, _, _, hs, _⟩ := Build.run_opening hfile.of_bind
  exact Option.isSome_iff_exists.mpr ⟨source, hs⟩

namespace Recorded

theorem yields_main {main : Path} {source : String} {ls : List String} {u : Tree}
    (h : Inlinable o t main) (hs : t.source? o main = some source)
    (hi : Inlines o t (blocks source) ls u) (log : List Entry) :
    Yields (file o (Build.depth t) [] main) ({ files := t, log }, [])
      (Matches o t main (({} : Compiler).advanceLines ls) u ({ files := t, log }, [])) := by
  obtain ⟨n, hdepth, hn⟩ := exists_depth_eq t
  rw [hdepth]
  have hat : Among o t main [] t ({ files := t, log }, []) := ⟨.refl t, rfl, rfl⟩
  refine yields_file (·.advanceLines ls) hat hs fun way σ hat => ?_
  rw [← statement_blocks]
  exact yields_statements h hi (.main hs) (Nat.le_trans hn (Nat.le_add_left _ _)) hat

/-- Writing the script changes nothing of what has been compiled. -/
theorem yields_output (message : String) (path : Path) (content : List Passage)
    (σ : Session × List Event) :
    Yields (do
      lift (Build.info message)
      lift (Build.writeFile o path (Passage.writeAll content))
      record (.wrote path content)) σ fun r σ' =>
        r = .ok () ∧ madeIn σ'.2 = madeIn σ.2 ∧ σ'.1.compiler = σ.1.compiler := by
  have hwrite : ∀ σ : Session × List Event,
      Yields (lift (Build.writeFile o path (Passage.writeAll content))) σ fun r σ' =>
        r = .ok () ∧ σ'.2 = σ.2 ∧ σ'.1.compiler = σ.1.compiler := by
    refine fun σ => .of_run fun hfine => ?_
    obtain ⟨files, -, -, hrun⟩ := Build.run_writeFile (b := σ.1) hfine
    rw [hrun]
    exact ⟨rfl, rfl, rfl⟩
  refine .lift_bind rfl ((hwrite _).bind ?_ ?_)
  · rintro f σ' ⟨⟨⟩, _⟩
  · rintro _ σ' ⟨-, hes, hcompiler⟩ _
    exact ⟨rfl, (madeIn_concat rfl).trans (congrArg madeIn hes), hcompiler⟩

theorem yields_script {source : String} {ls : List String} {u : Tree}
    (h : Inlinable o t (Build.sourceOf o name)) (hs : t.source? o (Build.sourceOf o name) = some source)
    (hi : Inlines o t (blocks source) ls u) :
    Yields (script o name target) ({ files := t }, []) fun r σ =>
      madeIn σ.2 = (({} : Compiler).advanceLines ls).texts ∧
      σ.1.compiler = (({} : Compiler).advanceLines ls).compiler ∧
      Concludes (({} : Compiler).advanceLines ls).fault r := by
  unfold script
  refine .lift_bind rfl (.lift_bind rfl ((yields_main h hs hi _).bind ?_ ?_))
  · exact fun f σ hm => ⟨hm.texts, hm.compiler, hm.result.error.2⟩
  · intro content σ hm hfine
    obtain ⟨hr, htexts, hcompiler⟩ := yields_output _ target _ σ hfine
    refine ⟨htexts.trans hm.texts, hcompiler.trans hm.compiler, ?_⟩
    rw [hm.result.eq_none]
    exact ⟨(), hr⟩

end Recorded

/-- A build that follows inclusions compiles the lines in which every included file stands for its
lines: the texts are the same, and so are the fault, if there is one, and the compiler at the end. -/
theorem build_follows_as_inlined (h : Inlinable o t (Build.sourceOf o name))
    (hfine : Build.FilesFine (({ files := t } : Session).run (Build.script o name target)).1) :
    ∃ ls, (∀ ms, Flattens o t (Build.sourceOf o name) ms ↔ ms = ls) ∧
      let p := ({} : Compiler).advance (statements (Text.unlines ls))
      ∃ r b es, ({ files := t } : Session).run (Build.script o name target) = (r, b) ∧
        Recorded.exec (Recorded.script o name target) ({ files := t }, []) = (r, b, es) ∧
        madeIn es = p.texts ∧ b.compiler = p.compiler ∧ Recorded.Concludes p.fault r := by
  obtain ⟨source, hs⟩ := Option.isSome_iff_exists.mp (source?_of_run_script hfine)
  obtain ⟨ls, u, hi⟩ := h.exists_inlines (Nat.le_add_left _ _) (.main hs)
  have hflattens : Flattens o t (Build.sourceOf o name) ls := ⟨source, u, hs, hi⟩
  refine ⟨ls, fun ms => ⟨fun hms => hms.unique hflattens, ?_⟩, ?_⟩
  · rintro rfl
    exact hflattens
  · dsimp only
    rw [Compiler.advance_unlines (newline_not_mem_of_inlines hi fun _ hb => newline_not_mem_blocks hb)]
    cases hexec : Recorded.exec (Recorded.script o name target) ({ files := t }, []) with
    | mk r σ =>
      obtain ⟨b, es⟩ := σ
      have hrun := Recorded.run_script hexec
      have hyields : Recorded.Yields (Recorded.script o name target) _ _ :=
        Recorded.yields_script h hs hi
      rw [Recorded.Yields, hexec] at hyields
      rw [hrun] at hfine
      obtain ⟨htexts, hcompiler, hresult⟩ := hyields hfine
      exact ⟨r, b, es, hrun, rfl, htexts, hcompiler, hresult⟩

/-- A script that includes a file which includes another one, then a missing file, then a file whose path
leads through a directory that only the build makes. The variable that the last of them declares is used
in the script. -/
def outAndBack : Tree where
  entries := [(["main"], .file (Encoding.utf8.encode
      "!include a\n!include c\n!include \"out/../b\"\ny = z\n")),
    (["a"], .file (Encoding.utf8.encode "!include d\nvar x\n")),
    (["b"], .file (Encoding.utf8.encode "var z\n")),
    (["d"], .file (Encoding.utf8.encode "var w\n"))]

theorem inlinable_outAndBack : Inlinable intoOut outAndBack (Build.sourceOf intoOut "main") := by
  let source := "!include a\n!include c\n!include \"out/../b\"\ny = z\n"
  have hcheck : CheckedWithin intoOut 8 outAndBack (Build.sourceOf intoOut "main") source := by
    decide +kernel
  exact hcheck.inlinable (by decide +kernel)

theorem build_follows_as_inlined_of_outAndBack :
    Inlinable intoOut outAndBack (Build.sourceOf intoOut "main") ∧
    Build.FilesFine (({ files := outAndBack } : Session).run
      (Build.script intoOut "main" ⟨"out/main"⟩)).1 ∧
    ∃ ls, Flattens intoOut outAndBack (Build.sourceOf intoOut "main") ls ∧
      (({} : Compiler).advance (statements (Text.unlines ls))).texts =
        ["Var /GLOBAL w", "Var /GLOBAL x", "!include c", "Var /GLOBAL z",
          "Var /GLOBAL y\r\nStrCpy $y $z"] := by
  have hexec : (fun e => (e.1, madeIn e.2.2))
      (Recorded.exec (Recorded.script intoOut "main" ⟨"out/main"⟩) ({ files := outAndBack }, [])) =
        (.ok (), ["Var /GLOBAL w", "Var /GLOBAL x", "!include c", "Var /GLOBAL z",
          "Var /GLOBAL y\r\nStrCpy $y $z"]) := by
    decide +kernel
  have hfine : Build.FilesFine (({ files := outAndBack } : Session).run
      (Build.script intoOut "main" ⟨"out/main"⟩)).1 := by
    cases hrec : Recorded.exec (Recorded.script intoOut "main" ⟨"out/main"⟩)
        ({ files := outAndBack }, []) with
    | mk r σ =>
      rw [hrec] at hexec
      rw [Recorded.run_script hrec, show r = .ok () from congrArg Prod.fst hexec]
      rintro path f ⟨⟩
  obtain ⟨ls, hflattens, r, b, es, -, hrec, htexts, -⟩ :=
    build_follows_as_inlined inlinable_outAndBack hfine
  rw [hrec] at hexec
  refine ⟨inlinable_outAndBack, hfine, ls, (hflattens ls).mpr rfl, ?_⟩
  rw [← htexts]
  exact congrArg Prod.snd hexec

end InstallScript
