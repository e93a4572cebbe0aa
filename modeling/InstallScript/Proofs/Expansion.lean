import Mathlib.Data.List.Basic
import InstallScript.Proofs.ActiveFiles
import InstallScript.Proofs.DeclaredFirst

/-!
What a build leaves on disk. Each included file has a compiled file of its own, and another one may be
written to the same place later. `Builds` says how the passages of a compiled file have come about, with
the texts that have been made for it and the files that have been written meanwhile; `Expands` reads the
files again at the end and puts them in the places of the lines that include them. Both have the same
texts if nothing has been written over with anything else (`expands_of_kept`) and, where only texts can
have changed, only then (`kept_of_expands`). What files hold and variables are declared follows from the
events of a build one by one (`Replays`).
-/

namespace InstallScript

open Build

/-! ## Files that replace each other -/

/-- A compiled file that has been written: the path and the content. -/
abbrev Writing := Path × List Passage

/-- What has been written last to the place of a path. -/
def latest (t : Tree) (ws : List Writing) (path : Path) : Option (List Passage) :=
  (ws.reverse.find? fun w => t.place? w.1 = t.place? path).map Prod.snd

/-- Nothing that has been written is replaced by anything else. -/
def AllKept (t : Tree) (ws : List Writing) : Prop := ∀ w ∈ ws, latest t ws w.1 = some w.2

instance (t : Tree) (ws : List Writing) : Decidable (AllKept t ws) :=
  inferInstanceAs (Decidable (∀ w ∈ ws, latest t ws w.1 = some w.2))

variable {t : Tree} {ws : List Writing} {path : Path}

theorem latest_concat (w : Writing) : latest t (ws ++ [w]) path =
    if t.place? w.1 = t.place? path then some w.2 else latest t ws path := by
  unfold latest
  rw [List.reverse_append, List.reverse_singleton, List.singleton_append, List.find?_cons]
  by_cases h : t.place? w.1 = t.place? path
  · simp only [h, decide_true, if_true, Option.map_some]
  · simp only [h, decide_false, if_false]

theorem latest_concat_self (w : Writing) : latest t (ws ++ [w]) w.1 = some w.2 := by
  rw [latest_concat, if_pos rfl]

theorem mem_of_latest {content : List Passage} (h : latest t ws path = some content) :
    ∃ w ∈ ws, t.place? w.1 = t.place? path ∧ w.2 = content := by
  obtain ⟨w, hw, hcontent⟩ := Option.map_eq_some_iff.mp h
  refine ⟨w, List.mem_reverse.mp (List.mem_of_find?_eq_some hw), ?_, hcontent⟩
  simpa using List.find?_some hw

theorem exists_latest {w : Writing} (h : w ∈ ws) : ∃ content, latest t ws w.1 = some content := by
  have hfound : (ws.reverse.find? fun w' => t.place? w'.1 = t.place? w.1).isSome :=
    List.find?_isSome.mpr ⟨w, List.mem_reverse.mpr h, decide_eq_true rfl⟩
  obtain ⟨w', hw'⟩ := Option.isSome_iff_exists.mp hfound
  exact ⟨w'.2, by rw [latest, hw', Option.map_some]⟩

/-! ## Contents of the same shape -/

/-- What a passage brings, if it is not a text of its own. -/
def Passage.brings? : Passage → Option (String × String)
  | own _ => none
  | brought indent name => some (indent, name)

/-- The contents differ at most in their own texts. -/
def Alike (ps qs : List Passage) : Prop := ps.map Passage.brings? = qs.map Passage.brings?

instance (ps qs : List Passage) : Decidable (Alike ps qs) :=
  inferInstanceAs (Decidable (ps.map Passage.brings? = qs.map Passage.brings?))

/-- Contents that are written to one place are alike. -/
def AllAlike (t : Tree) (ws : List Writing) : Prop :=
  ∀ w ∈ ws, ∀ w' ∈ ws, t.place? w.1 = t.place? w'.1 → Alike w.2 w'.2

instance (t : Tree) (ws : List Writing) : Decidable (AllAlike t ws) :=
  inferInstanceAs (Decidable (∀ w ∈ ws, ∀ w' ∈ ws, t.place? w.1 = t.place? w'.1 → Alike w.2 w'.2))

theorem AllAlike.exists_alike (h : AllAlike t ws) {w : Writing} (hw : w ∈ ws) :
    ∃ content, latest t ws w.1 = some content ∧ Alike w.2 content := by
  obtain ⟨content, hlatest⟩ := exists_latest (t := t) hw
  obtain ⟨w', hw', hplace, rfl⟩ := mem_of_latest hlatest
  exact ⟨w'.2, hlatest, h w hw w' hw' hplace.symm⟩

theorem Alike.of_own {text : String} {ps qs : List Passage} (h : Alike (.own text :: ps) qs) :
    ∃ text' qs', qs = .own text' :: qs' ∧ Alike ps qs' := by
  match qs, h with
  | .own text' :: qs', h => exact ⟨text', qs', rfl, (List.cons.inj h).2⟩

theorem Alike.of_brought {indent name : String} {ps qs : List Passage}
    (h : Alike (.brought indent name :: ps) qs) :
    ∃ qs', qs = .brought indent name :: qs' ∧ Alike ps qs' := by
  match qs, h with
  | .brought indent' name' :: qs', h =>
    obtain ⟨hhead, htail⟩ := List.cons.inj h
    cases hhead
    exact ⟨qs', rfl, htail⟩

/-! ## Building and expanding -/

/-- How the passages of a compiled file have come about: the texts made for it and for the files it
includes, and the files that have been written before it. -/
inductive Builds (o : Options) : List Passage → List String → List Writing → Prop
  | nil : Builds o [] [] []
  | own {text : String} {ps : List Passage} {ts : List String} {ws : List Writing} :
      Builds o ps ts ws → Builds o (.own text :: ps) (text :: ts) ws
  | brought {indent name : String} {content ps : List Passage} {us ts : List String}
      {vs ws : List Writing} : Builds o content us vs → Builds o ps ts ws →
      Builds o (.brought indent name :: ps) (us ++ ts) (vs ++ (targetOf o name, content) :: ws)

/-- The texts that passages become when the files are read that they bring, each with what `content?`
says was written to it. -/
inductive Expands (o : Options) (files : Tree) (content? : Path → Option (List Passage)) :
    List Passage → List String → Prop
  | nil : Expands o files content? [] []
  | own {text : String} {ps : List Passage} {ts : List String} :
      Expands o files content? ps ts → Expands o files content? (.own text :: ps) (text :: ts)
  | brought {indent name : String} {content ps : List Passage} {us ts : List String} :
      content? (targetOf o name) = some content →
      files.read (targetOf o name) = .ok (o.encoding.encode (Passage.writeAll content)) →
      Expands o files content? content us → Expands o files content? ps ts →
      Expands o files content? (.brought indent name :: ps) (us ++ ts)

variable {o : Options} {files : Tree} {content? : Path → Option (List Passage)} {ps qs : List Passage}
  {ts us : List String}

theorem Expands.unique (h : Expands o files content? ps ts) (h' : Expands o files content? ps us) :
    us = ts := by
  induction h generalizing us with
  | nil =>
    cases h'
    rfl
  | own _ ih =>
    cases h' with
    | own h' => rw [ih h']
  | brought hcontent _ _ _ ihcontent ih =>
    cases h' with
    | brought hcontent' _ hc h' =>
      cases hcontent.symm.trans hcontent'
      rw [ihcontent hc, ih h']

/-- What is kept expands to what it has been made of. -/
theorem expands_of_kept (h : Builds o ps ts ws) (hkept : ∀ w ∈ ws, content? w.1 = some w.2 ∧
      files.read w.1 = .ok (o.encoding.encode (Passage.writeAll w.2))) :
    Expands o files content? ps ts := by
  induction h with
  | nil => exact .nil
  | own _ ih => exact .own (ih hkept)
  | brought _ _ ihcontent ih =>
    obtain ⟨hinside, hkept⟩ := List.forall_mem_append.mp hkept
    obtain ⟨⟨hcontent, hread⟩, hbehind⟩ := List.forall_mem_cons.mp hkept
    dsimp only at hcontent hread
    exact .brought hcontent hread (ihcontent hinside) (ih hbehind)

/-- However own texts have changed, there are as many of them. -/
theorem length_of_expands (h : Builds o ps ts ws)
    (halike : ∀ w ∈ ws, ∃ content, content? w.1 = some content ∧ Alike w.2 content)
    (hqs : Alike ps qs) (he : Expands o files content? qs us) : us.length = ts.length := by
  induction h generalizing qs us with
  | nil =>
    cases List.map_eq_nil_iff.mp hqs.symm
    cases he
    rfl
  | own _ ih =>
    obtain ⟨text', qs', rfl, hqs'⟩ := hqs.of_own
    cases he with
    | own he => rw [List.length_cons, List.length_cons, ih halike hqs' he]
  | brought _ _ ihcontent ih =>
    obtain ⟨hinside, halike⟩ := List.forall_mem_append.mp halike
    obtain ⟨⟨content', hcontent', hlike⟩, hbehind⟩ := List.forall_mem_cons.mp halike
    dsimp only at hcontent' hlike
    obtain ⟨qs', rfl, hqs'⟩ := hqs.of_brought
    cases he with
    | brought hcontent hread hec he =>
      cases hcontent.symm.trans hcontent'
      rw [List.length_append, List.length_append, ihcontent hinside hlike hec, ih hbehind hqs' he]

/-- What expands to the texts it has been made of is kept, provided that it can only have been replaced
by something alike. -/
theorem kept_of_expands (h : Builds o ps ts ws)
    (halike : ∀ w ∈ ws, ∃ content, content? w.1 = some content ∧ Alike w.2 content)
    (hqs : Alike ps qs) (he : Expands o files content? qs ts) :
    qs = ps ∧ ∀ w ∈ ws, content? w.1 = some w.2 := by
  induction h generalizing qs with
  | nil => exact ⟨List.map_eq_nil_iff.mp hqs.symm, fun w hw => absurd hw List.not_mem_nil⟩
  | own _ ih =>
    obtain ⟨text', qs', rfl, hqs'⟩ := hqs.of_own
    cases he with
    | own he =>
      obtain ⟨rfl, hkept⟩ := ih halike hqs' he
      exact ⟨rfl, hkept⟩
  | @brought _ _ _ _ vs ts _ _ hbuilds _ ihcontent ih =>
    obtain ⟨hinside, halike⟩ := List.forall_mem_append.mp halike
    obtain ⟨⟨content', hcontent', hlike⟩, hbehind⟩ := List.forall_mem_cons.mp halike
    dsimp only at hcontent' hlike
    obtain ⟨qs', rfl, hqs'⟩ := hqs.of_brought
    generalize hall : vs ++ ts = all at he
    cases he with
    | brought hcontent hread hec he =>
      cases hcontent.symm.trans hcontent'
      -- the file that is read has as many texts as the one that was written, so both end together
      obtain ⟨rfl, rfl⟩ := List.append_inj hall (length_of_expands hbuilds hinside hlike hec).symm
      obtain ⟨rfl, hkept⟩ := ihcontent hinside hlike hec
      obtain ⟨rfl, hkept'⟩ := ih hbehind hqs' he
      refine ⟨rfl, List.forall_mem_append.mpr ⟨hkept, List.forall_mem_cons.mpr ⟨?_, hkept'⟩⟩⟩
      dsimp only
      exact hcontent'

/-! ## What is on disk -/

/-- The files that have been written have what was last written to their places. -/
def Stores (o : Options) (t files : Tree) (ws : List Writing) : Prop :=
  files.workDir = t.workDir ∧ ∀ w ∈ ws, ∃ content, latest t ws w.1 = some content ∧
    files.read w.1 = .ok (o.encoding.encode (Passage.writeAll content))

theorem Stores.initial (t : Tree) : Stores o t t [] :=
  ⟨rfl, fun _ hw => absurd hw List.not_mem_nil⟩

/-- One more file is written. Where there was one before it is read by all its names. -/
theorem Stores.write {b b' : Session} {content : List Passage} (h : Stores o t b.files ws)
    (hrun : b.run (writeFile o path (Passage.writeAll content)) = (.ok (), b')) :
    Stores o t b'.files (ws ++ [(path, content)]) := by
  obtain ⟨files, hgrows, hread, rfl⟩ := of_run_writeFile hrun
  obtain ⟨hdir, hstored⟩ := h
  have hplace : ∀ path, b.files.place? path = t.place? path := Tree.place?_congr hdir
  refine ⟨hgrows.workDir.trans hdir, List.forall_mem_append.mpr ⟨fun w hw => ?_, fun w hw => ?_⟩⟩
  · obtain ⟨old, hlatest, hold⟩ := hstored w hw
    rw [latest_concat]
    dsimp only
    split
    · next hsame =>
      rw [← hplace, ← hplace] at hsame
      exact ⟨content, rfl, hgrows.read_same hread hsame hold⟩
    · next hother =>
      refine ⟨old, hlatest, hgrows.read hold fun z hz hz' => hother ?_⟩
      rw [← hplace, ← hplace, hz, hz']
  · cases List.mem_singleton.mp hw
    exact ⟨content, latest_concat_self _, hread⟩

theorem Stores.read {content : List Passage} (h : Stores o t files ws) (hpath : path ∈ ws.map Prod.fst)
    (hlatest : latest t ws path = some content) :
    files.read path = .ok (o.encoding.encode (Passage.writeAll content)) := by
  obtain ⟨w, hw, rfl⟩ := List.mem_map.mp hpath
  obtain ⟨_, hcontent, hread⟩ := h.2 w hw
  cases hlatest.symm.trans hcontent
  exact hread

/-- Where all is kept that has been written, what is built expands to what it has been made of. -/
theorem Stores.expands {w : Writing} (h : Stores o t files (ws ++ [w])) (hbuilds : Builds o ps ts ws)
    (hkept : AllKept t (ws ++ [w])) : Expands o files (latest t (ws ++ [w])) ps ts := by
  refine expands_of_kept hbuilds fun w' hw' => ?_
  have hmem := List.mem_append_left [w] hw'
  exact ⟨hkept w' hmem, h.read (List.mem_map_of_mem hmem) (hkept w' hmem)⟩

theorem AllAlike.allKept {w : Writing} (h : AllAlike t (ws ++ [w])) (hbuilds : Builds o ps ts ws)
    (he : Expands o files (latest t (ws ++ [w])) ps ts) : AllKept t (ws ++ [w]) := by
  obtain ⟨-, hkept⟩ := kept_of_expands hbuilds
    (fun w' hw' => h.exists_alike (List.mem_append_left [w] hw')) rfl he
  refine List.forall_mem_append.mpr ⟨hkept, fun w' hw' => ?_⟩
  cases List.mem_singleton.mp hw'
  exact latest_concat_self w

/-! ## What has happened -/

/-- The lines of the texts that have been made. -/
def linesIn (es : List Event) : List Line :=
  es.flatMap fun
    | .made _ lines => lines
    | _ => []

/-- The compiled files, in the order in which they have been written. -/
def writtenIn (es : List Event) : List Writing :=
  es.filterMap fun
    | .wrote path content => some (path, content)
    | _ => none

@[simp] theorem linesIn_append (es es' : List Event) :
    linesIn (es ++ es') = linesIn es ++ linesIn es' :=
  List.flatMap_append

@[simp] theorem writtenIn_append (es es' : List Event) :
    writtenIn (es ++ es') = writtenIn es ++ writtenIn es' :=
  List.filterMap_append

/-- How files and compiler change while the events happen. Files change where one is written, and the
compiler where a statement is compiled. -/
inductive Replays (o : Options) : Session → List Event → Session → Prop
  | idle {b b' : Session} : b'.files = b.files → b'.compiler = b.compiler → Replays o b [] b'
  | moved {b b' : Session} {active : List Place} : b'.files = b.files → b'.compiler = b.compiler →
      Replays o b [.moved active] b'
  | met {b b' : Session} {way : List Place} {name : String} {found : Except FileFault Place}
      {outcome : Except BuildFault Fate} : b'.files = b.files → b'.compiler = b.compiler →
      Replays o b [.met way name found outcome] b'
  | compiled {b b' : Session} {s : Statement} {text : String} :
      (b.compiler.step s).1.result = .ok (.text text) → b'.files = b.files →
      b'.compiler = (b.compiler.step s).2 → Replays o b [.made text (b.compiler.emitted s)] b'
  | passed {b b' : Session} {s : Statement} {name : String} :
      (b.compiler.step s).1.result = .ok (.inclusion name) → b'.files = b.files →
      b'.compiler = (b.compiler.step s).2 → Replays o b [] b'
  | verbatim {b : Session} {text : String} : Replays o b [.made text []] b
  | wrote {b b' : Session} {path : Path} {content : List Passage} :
      b.run (writeFile o path (Passage.writeAll content)) = (.ok (), b') →
      Replays o b [.wrote path content] b'
  | trans {b b' b'' : Session} {es es' : List Event} :
      Replays o b es b' → Replays o b' es' b'' → Replays o b (es ++ es') b''

variable {b b' : Session} {es : List Event}

theorem Replays.stores (h : Replays o b es b') (hs : Stores o t b.files ws) :
    Stores o t b'.files (ws ++ writtenIn es) := by
  induction h generalizing ws with
  | idle hfiles _ | moved hfiles _ | met hfiles _ | compiled _ hfiles _ | passed _ hfiles _ =>
    rw [hfiles]
    simpa [writtenIn] using hs
  | verbatim => simpa [writtenIn] using hs
  | wrote hrun => exact hs.write hrun
  | trans _ _ ih ih' =>
    rw [writtenIn_append, ← List.append_assoc]
    exact ih' (ih hs)

theorem registered_step {c : Compiler} {s : Statement} {old : List Variable} {ls : List Line}
    (hs : c.Sound) (hr : Registered old ls c.declarations.vars) (h : (c.step s).1.result.isOk) :
    (c.step s).2.Sound ∧ Registered old (ls ++ c.emitted s) (c.step s).2.declarations.vars := by
  obtain ⟨ts, r, hts, hr'⟩ := Compiler.compiles_of_step h
  rw [Compiler.step_of_tokens hts, Compiler.emitted_of_result hts hr']
  exact ⟨Compiler.sound_compile hs ts, registered_compile hs hr hr'⟩

theorem emitted_of_inclusion {c : Compiler} {s : Statement} {name : String}
    (h : (c.step s).1.result = .ok (.inclusion name)) : c.emitted s = [] := by
  obtain ⟨ts, r, hts, hr⟩ := Compiler.compiles_of_step (by rw [h]; rfl)
  rw [Compiler.emitted_of_result hts hr]
  simp only [Compiler.step_of_tokens hts, hr] at h
  cases r with
  | lines | verbatim => cases h
  | inclusion => rfl

/-- The lines so far declare what the compiler knows, and use nothing else. -/
theorem Replays.registered {old : List Variable} {ls : List Line} (h : Replays o b es b')
    (hs : b.compiler.Sound ∧ Registered old ls b.compiler.declarations.vars) :
    b'.compiler.Sound ∧ Registered old (ls ++ linesIn es) b'.compiler.declarations.vars := by
  induction h generalizing ls with
  | idle _ hcompiler | moved _ hcompiler | met _ hcompiler =>
    rw [hcompiler]
    simpa [linesIn] using hs
  | verbatim => simpa [linesIn] using hs
  | compiled hstep _ hcompiler =>
    rw [hcompiler]
    have hr := registered_step hs.1 hs.2 (by rw [hstep]; rfl)
    simpa [linesIn] using hr
  | passed hstep _ hcompiler =>
    rw [hcompiler]
    have hr := registered_step hs.1 hs.2 (by rw [hstep]; rfl)
    rw [emitted_of_inclusion hstep] at hr
    exact hr
  | wrote hrun =>
    obtain ⟨files, -, -, rfl⟩ := of_run_writeFile hrun
    simpa [linesIn] using hs
  | trans _ _ ih ih' =>
    rw [linesIn_append, ← List.append_assoc]
    exact ih' (ih hs)

/-- A text is made of its lines, unless a statement has passed unchanged. -/
theorem Replays.text_made (h : Replays o b es b') {text : String} {lines : List Line}
    (hmade : .made text lines ∈ es) : lines = [] ∨ ∃ indent, text = Line.writeAll indent lines := by
  induction h with
  | idle | moved | met | passed | wrote => simp at hmade
  | @compiled b _ s _ hstep _ _ =>
    cases List.mem_singleton.mp hmade
    exact (Compiler.text_step hstep).elim (fun h => .inr ⟨s.indent, h⟩) fun h => .inl h.2
  | verbatim =>
    cases List.mem_singleton.mp hmade
    exact .inl rfl
  | trans _ _ ih ih' => exact (List.mem_append.mp hmade).elim ih ih'

/-! ## Builds -/

/-- No file that has been met is excluded. -/
def Unexcluded (o : Options) (es : List Event) : Prop :=
  ∀ way name found outcome, .met way name found outcome ∈ es →
    isExcluded o name (sourceOf o name) = false

theorem Unexcluded.append {es es' : List Event} (h : Unexcluded o (es ++ es')) :
    Unexcluded o es ∧ Unexcluded o es' :=
  ⟨fun way name found outcome he => h way name found outcome (List.mem_append_left _ he),
    fun way name found outcome he => h way name found outcome (List.mem_append_right _ he)⟩

namespace Recorded

/-- If the action gives a result, some events have happened that account for it. -/
def Leaves (o : Options) (act : Recorded α) (σ : Session × List Event) (Q : α → List Event → Prop) :
    Prop :=
  ∀ a σ', exec act σ = (.ok a, σ') →
    ∃ es, σ'.2 = σ.2 ++ es ∧ (Unexcluded o es → Replays o σ.1 es σ'.1 ∧ Q a es)

variable {act : Recorded α} {k : α → Recorded β} {σ : Session × List Event}
  {P : α → List Event → Prop} {Q : β → List Event → Prop}

namespace Leaves

protected theorem bind (h : Leaves o act σ P)
    (hk : ∀ a σ', Leaves o (k a) σ' fun c es' => ∀ es, P a es → Q c (es ++ es')) :
    Leaves o (act >>= k) σ Q := by
  intro c σ'' hrun
  match hact : exec act σ with
  | (.error f, σ') =>
    rw [exec_bind_error hact] at hrun
    cases hrun
  | (.ok a, σ') =>
    rw [exec_bind_ok hact] at hrun
    obtain ⟨es, hes, hP⟩ := h a σ' hact
    obtain ⟨es', hes', hQ⟩ := hk a σ' c σ'' hrun
    refine ⟨es ++ es', by rw [hes', hes, List.append_assoc], fun hx => ?_⟩
    obtain ⟨hreplay, hPa⟩ := hP hx.append.1
    obtain ⟨hreplay', hQc⟩ := hQ hx.append.2
    exact ⟨hreplay.trans hreplay', hQc es hPa⟩

theorem mono {P' : α → List Event → Prop} (h : Leaves o act σ P) (hP : ∀ a es, P a es → P' a es) :
    Leaves o act σ P' := by
  intro a σ' hrun
  obtain ⟨es, hes, hx⟩ := h a σ' hrun
  exact ⟨es, hes, fun hu => ⟨(hx hu).1, hP a es (hx hu).2⟩⟩

protected theorem pure {a : α} (h : P a []) : Leaves o (pure a) σ P := by
  intro _ _ hrun
  cases hrun
  exact ⟨[], (List.append_nil _).symm, fun _ => ⟨.idle rfl rfl, h⟩⟩

/-- A part that neither compiles nor writes. -/
theorem idle {act : Build α}
    (h : ∀ a b', σ.1.run act = (.ok a, b') → b'.files = σ.1.files ∧ b'.compiler = σ.1.compiler) :
    Leaves o (lift act) σ fun _ es => es = [] := by
  rintro a ⟨b', es⟩ hrun
  obtain ⟨hact, rfl⟩ := of_exec_lift hrun
  obtain ⟨hfiles, hcompiler⟩ := h a b' hact
  exact ⟨[], (List.append_nil _).symm, fun _ => ⟨.idle hfiles hcompiler, rfl⟩⟩

end Leaves

/-- The content has come about by the events. -/
def Makes (o : Options) (content : List Passage) (es : List Event) : Prop :=
  Builds o content (madeIn es) (writtenIn es)

/-- One more passage has come about by the events. -/
def Brings (o : Options) (p : Passage) (es : List Event) : Prop :=
  ∀ ps ts ws, Builds o ps ts ws → Builds o (p :: ps) (madeIn es ++ ts) (writtenIn es ++ ws)

theorem leaves_meet (way : List Place) (source : Path) (s : Statement) (name : String) :
    Leaves o (meet o way source s name) σ fun fate es =>
      fate ≠ .copied ∧ madeIn es = [] ∧ writtenIn es = [] := by
  intro r σ' hrun
  obtain ⟨hr, rfl⟩ := Prod.mk.inj hrun
  refine ⟨_, rfl, fun hx => ?_⟩
  replace hx := hx _ _ _ _ List.mem_cons_self
  obtain ⟨_, log, _, hfate⟩ | ⟨_, _, _, hfate⟩ | ⟨_, log, _, _, hfate⟩ :=
    run_fate (b := σ.1) source s hx
  · rw [hfate] at hr ⊢
    cases hr
    exact ⟨.met rfl rfl, Fate.noConfusion, rfl, rfl⟩
  · rw [hfate] at hr
    cases hr
  · rw [hfate] at hr ⊢
    cases hr
    exact ⟨.met rfl rfl, Fate.noConfusion, rfl, rfl⟩

theorem leaves_verbatim (text : String) :
    Leaves o (record (.made text [])) σ fun _ es => es = [.made text []] := by
  intro _ _ hrun
  cases hrun
  exact ⟨_, rfl, fun _ => ⟨.verbatim, rfl⟩⟩

theorem leaves_written (path : Path) (content : List Passage) :
    Leaves o (do
      lift (writeFile o path (Passage.writeAll content))
      record (.wrote path content)) σ fun _ es => es = [.wrote path content] := by
  intro _ σ' hrun
  match hact : exec (lift (writeFile o path (Passage.writeAll content))) σ with
  | (.error f, σ₁) =>
    rw [exec_bind_error hact] at hrun
    cases hrun
  | (.ok _, (b, es)) =>
    rw [exec_bind_ok hact] at hrun
    cases hrun
    obtain ⟨hwrite, rfl⟩ := of_exec_lift hact
    exact ⟨_, rfl, fun _ => ⟨.wrote hwrite, rfl⟩⟩

section

variable {compileFile : Path → Recorded (List Passage)} {way : List Place}
  (hfile : ∀ path σ, Leaves o (compileFile path) σ (Makes o))
include hfile

theorem leaves_inclusion (source : Path) (s : Statement) (name : String) :
    Leaves o (inclusion o compileFile way source s name) σ (Brings o) := by
  refine .bind (leaves_meet way source s name) fun fate σ₁ => ?_
  match fate with
  | .copied => exact .pure fun es h => absurd rfl h.1
  | .absent =>
    refine .bind (leaves_verbatim s.text) fun _ σ₂ => .pure ?_
    rintro _ rfl es ⟨-, hmade, hwritten⟩ ps ts ws hb
    rw [madeIn_append, hmade, writtenIn_append, hwritten]
    exact .own hb
  | .followed =>
    refine .bind (hfile _ _) fun content σ₂ => ?_
    rw [← bind_assoc]
    refine .bind (leaves_written _ _) fun _ σ₃ => .pure ?_
    rintro _ rfl es' hcontent es ⟨-, hmade, hwritten⟩ ps ts ws hb
    rw [List.append_nil, madeIn_append, madeIn_append, hmade]
    rw [writtenIn_append, writtenIn_append, hwritten]
    show Builds o _ (madeIn es' ++ [] ++ ts) (writtenIn es' ++ [(targetOf o name, content)] ++ ws)
    rw [List.append_nil, List.append_assoc]
    exact .brought hcontent hb

theorem leaves_statement (source : Path) (s : Statement) :
    Leaves o (statement o compileFile way source s) σ (Brings o) := by
  intro p σ' hrun
  have hget : exec (lift get) σ = (.ok σ.1, σ) := rfl
  unfold statement at hrun
  rw [exec_bind_ok hget, exec_bind, exec_lift, run_compiled] at hrun
  match hr : (σ.1.compiler.step s).1.result with
  | .error f =>
    simp only [hr] at hrun
    cases hrun
  | .ok (.text text) =>
    simp only [hr] at hrun
    cases hrun
    exact ⟨_, rfl, fun _ => ⟨.compiled hr rfl rfl, fun ps ts ws hb => .own hb⟩⟩
  | .ok (.inclusion name) =>
    simp only [hr] at hrun
    obtain ⟨es, hes, hx⟩ := leaves_inclusion hfile source s name p σ' hrun
    refine ⟨es, hes, fun hu => ?_⟩
    obtain ⟨hreplay, hbrings⟩ := hx hu
    rw [← List.nil_append es]
    exact ⟨.trans (.passed hr (by rfl) (by rfl)) hreplay, hbrings⟩

theorem leaves_statements (source : Path) (ss : List Statement) :
    Leaves o (statements o compileFile way source ss) σ (Makes o) := by
  induction ss generalizing σ with
  | nil => exact .pure .nil
  | cons s ss ih =>
    refine .bind (leaves_statement hfile source s) fun p σ₁ => ?_
    refine .bind ih fun ps σ₂ => .pure fun es' hps es hp => ?_
    rw [List.append_nil, Makes, madeIn_append, writtenIn_append]
    exact hp ps _ _ hps

end

theorem leaves_within {act : Recorded (List Passage)} {place : Place}
    (h : ∀ σ, Leaves o act σ (Makes o)) : Leaves o (within place act) σ (Makes o) := by
  intro content σ' hrun
  rw [exec_within] at hrun
  dsimp only at hrun
  match hact : exec act ({ σ.1 with active := σ.1.active ++ [place] },
      σ.2 ++ [.moved (σ.1.active ++ [place])]) with
  | (r, b, es₁) =>
    rw [hact] at hrun
    cases hrun
    obtain ⟨es, rfl, hx⟩ := h _ content _ hact
    refine ⟨[.moved (σ.1.active ++ [place])] ++ (es ++ [.moved b.active.dropLast]), by simp, ?_⟩
    intro hu
    obtain ⟨hreplay, hmakes⟩ := hx hu.append.2.append.1
    refine ⟨.trans (.moved (by rfl) (by rfl)) (.trans hreplay (.moved rfl rfl)), ?_⟩
    simpa [Makes, madeIn, writtenIn] using hmakes

theorem leaves_file (n : Nat) (way : List Place) (path : Path) :
    Leaves o (file o n way path) σ (Makes o) := by
  induction n generalizing way path σ with
  | zero => exact fun _ _ hrun => nomatch hrun
  | succ n ih =>
    refine .bind (.idle fun (source, z) b' hrun => ?_) fun (source, z) σ₁ => ?_
    · obtain ⟨-, -, fileCount, rfl⟩ := of_run_opening hrun
      exact ⟨rfl, rfl⟩
    · refine (leaves_within fun σ₂ => ?_).mono fun content es hmakes => ?_
      · refine .bind (leaves_statements (fun path σ => ih _ _) path _) fun content σ₃ => ?_
        refine .bind (.idle fun _ b' hrun => ?_) fun _ σ₄ => .pure ?_
        · cases hrun
          exact ⟨rfl, rfl⟩
        · rintro _ rfl es hmakes
          simpa using hmakes
      · rintro _ rfl
        exact hmakes

theorem leaves_info (message : String) : Leaves o (lift (info message)) σ fun _ es => es = [] :=
  .idle fun _ _ hrun => by cases hrun; exact ⟨rfl, rfl⟩

/-- The output is written last. -/
theorem leaves_script (name : String) (target : Path) :
    Leaves o (script o name target) σ fun _ es => ∃ content es', Makes o content es' ∧
      es = es' ++ [.wrote target (.own Line.prelude :: content)] := by
  refine .bind (leaves_info _) fun _ σ₁ => .bind (.idle fun _ _ hrun => ?_) fun b σ₂ => ?_
  · cases hrun
    exact ⟨rfl, rfl⟩
  · refine .bind (leaves_file _ _ _) fun content σ₃ => .bind (leaves_info _) fun _ σ₄ => ?_
    refine (leaves_written _ _).mono ?_
    rintro _ _ rfl _ rfl es' hmakes _ rfl _ rfl
    exact ⟨content, es', hmakes, rfl⟩

end Recorded

/-! ## Scripts -/

theorem replays_script {name : String} {target : Path} (hx : Unexcluded o es)
    (h : Recorded.exec (Recorded.script o name target) ({ files := t }, []) = (.ok (), b, es)) :
    Replays o { files := t } es b ∧ ∃ content es', Recorded.Makes o content es' ∧
      es = es' ++ [.wrote target (.own Line.prelude :: content)] := by
  obtain ⟨_, hes, hleaves⟩ := Recorded.leaves_script name target _ _ h
  cases hes
  exact hleaves hx

theorem stores_script {name : String} {target : Path} (hx : Unexcluded o es)
    (h : Recorded.exec (Recorded.script o name target) ({ files := t }, []) = (.ok (), b, es)) :
    Stores o t b.files (writtenIn es) :=
  (replays_script hx h).1.stores (.initial t)

/-- A script that has been compiled without excluding a file is on disk in files that hold what was last
written to their places. Put in the places of the lines that include them, these files make the prelude
and the texts of all statements in the order of compilation if none of them has been written over with
anything else; and only then, where what is written to one place differs in texts alone. Every variable
is declared above the lines of these texts that use it. -/
theorem files_expand_iff_kept {name : String} {target : Path} {b : Session}
    (h : ({ files := t } : Session).run (script o name target) = (.ok (), b)) :
    ∃ es, Recorded.exec (Recorded.script o name target) ({ files := t }, []) = (.ok (), b, es) ∧
      (Unexcluded o es →
        Stores o t b.files (writtenIn es) ∧
        (∃ content, latest t (writtenIn es) target = some (.own Line.prelude :: content) ∧
          b.files.read target =
            .ok (o.encoding.encode (Passage.writeAll (.own Line.prelude :: content))) ∧
          (AllKept t (writtenIn es) → Expands o b.files (latest t (writtenIn es))
            (.own Line.prelude :: content) (Line.prelude :: madeIn es)) ∧
          (AllAlike t (writtenIn es) → Expands o b.files (latest t (writtenIn es))
            (.own Line.prelude :: content) (Line.prelude :: madeIn es) → AllKept t (writtenIn es))) ∧
        UsesDeclared ({} : Compiler).declarations.vars (linesIn es) ∧
        ∀ text lines, .made text lines ∈ es →
          lines = [] ∨ ∃ indent, text = Line.writeAll indent lines) := by
  match hrun : Recorded.exec (Recorded.script o name target) ({ files := t }, []) with
  | (r, b', es) =>
    cases (Recorded.run_script hrun).symm.trans h
    refine ⟨es, rfl, fun hx => ?_⟩
    have hstores := stores_script hx hrun
    obtain ⟨hreplay, content, es', hmakes, rfl⟩ := replays_script hx hrun
    have hregistered := hreplay.registered ⟨Compiler.sound_start true, .initial _⟩
    have hmade : madeIn (es' ++ [.wrote target (.own Line.prelude :: content)]) = madeIn es' := by
      rw [madeIn_append]
      exact List.append_nil _
    have hwritten : writtenIn (es' ++ [.wrote target (.own Line.prelude :: content)]) =
        writtenIn es' ++ [(target, .own Line.prelude :: content)] := writtenIn_append _ _
    rw [hwritten] at hstores ⊢
    rw [hmade]
    have hlast : latest t (writtenIn es' ++ [(target, .own Line.prelude :: content)]) target =
        some (.own Line.prelude :: content) := latest_concat_self _
    refine ⟨hstores, ⟨content, hlast, hstores.read (by simp) hlast, fun hkept => ?_,
      fun halike hexpands => ?_⟩, hregistered.2.uses, fun text lines => hreplay.text_made⟩
    · exact .own (hstores.expands hmakes hkept)
    · cases hexpands with
      | own he => exact halike.allKept hmakes he

/-- Two files that include a third one, which makes no difference the second time, and a file that is
not there. -/
def diamond : Tree where
  entries := [(["main"], .file (Encoding.utf8.encode "!include a\n!include b\n!include e\n")),
    (["a"], .file (Encoding.utf8.encode "x = 1\n!include c\n")),
    (["b"], .file (Encoding.utf8.encode "!include c\n")),
    (["c"], .file (Encoding.utf8.encode "DetailPrint(x)\n"))]

theorem files_expand_iff_kept_of_diamond :
    ∃ b es, Recorded.exec (Recorded.script intoOut "main" ⟨"out/main"⟩) ({ files := diamond }, []) =
        (.ok (), b, es) ∧
      ({ files := diamond } : Session).run (script intoOut "main" ⟨"out/main"⟩) = (.ok (), b) ∧
      Unexcluded intoOut es ∧ AllKept diamond (writtenIn es) ∧
      ∃ content, b.files.read ⟨"out/main"⟩ =
          .ok (intoOut.encoding.encode (Passage.writeAll (.own Line.prelude :: content))) ∧
        Expands intoOut b.files (latest diamond (writtenIn es)) (.own Line.prelude :: content)
          [Line.prelude, "Var /GLOBAL x\r\nStrCpy $x 1", "DetailPrint $x", "DetailPrint $x",
            "!include e"] := by
  have hexec : (fun e => (e.1, madeIn e.2.2, decide (AllKept diamond (writtenIn e.2.2))))
      (Recorded.exec (Recorded.script intoOut "main" ⟨"out/main"⟩) ({ files := diamond }, [])) =
        (.ok (), ["Var /GLOBAL x\r\nStrCpy $x 1", "DetailPrint $x", "DetailPrint $x", "!include e"],
          true) := by
    decide +kernel
  match hrec : Recorded.exec (Recorded.script intoOut "main" ⟨"out/main"⟩)
      ({ files := diamond }, []) with
  | (r, b, es) =>
    rw [hrec] at hexec
    obtain ⟨rfl, hrest⟩ := Prod.mk.inj hexec
    obtain ⟨hmade, hkept⟩ := Prod.mk.inj hrest
    have hrun := Recorded.run_script hrec
    have hx : Unexcluded intoOut es := fun _ _ _ _ _ => rfl
    obtain ⟨es', hrec', hall⟩ := files_expand_iff_kept hrun
    cases hrec.symm.trans hrec'
    obtain ⟨-, ⟨content, -, hread, hexpands, -⟩, -⟩ := hall hx
    replace hkept := of_decide_eq_true hkept
    rw [← hmade]
    exact ⟨b, es, rfl, hrun, hx, hkept, content, hread, hexpands hkept⟩

/-- A script that includes the same file twice. -/
def twice : Tree where
  entries := [
    (["main.nsi"], .file (Encoding.utf8.encode "!include \"lib.nsh\"\n!include \"lib.nsh\"\n")),
    (["lib.nsh"], .file (Encoding.utf8.encode "x = 1\n"))]

/-- The second time a variable is not declared again, and the file that declares it is written over. So
the files make a script in which nothing declares the variable. -/
theorem second_inclusion_loses_declaration :
    ∃ b es, Recorded.exec (Recorded.script intoOut "main.nsi" ⟨"out/main.nsi"⟩)
        ({ files := twice }, []) = (.ok (), b, es) ∧
      ({ files := twice } : Session).run (script intoOut "main.nsi" ⟨"out/main.nsi"⟩) = (.ok (), b) ∧
      Unexcluded intoOut es ∧ ¬AllKept twice (writtenIn es) ∧
      madeIn es = ["Var /GLOBAL x\r\nStrCpy $x 1", "StrCpy $x 1"] ∧
      b.files.read ⟨"out/main.nsi"⟩ = .ok (intoOut.encoding.encode
        (Passage.writeAll [.own Line.prelude, .brought "" "lib.nsh", .brought "" "lib.nsh"])) ∧
      ∀ ts, Expands intoOut b.files (latest twice (writtenIn es))
          [.own Line.prelude, .brought "" "lib.nsh", .brought "" "lib.nsh"] ts ↔
        ts = [Line.prelude, "StrCpy $x 1", "StrCpy $x 1"] := by
  have hexec : (fun e => (e.1, madeIn e.2.2, writtenIn e.2.2))
      (Recorded.exec (Recorded.script intoOut "main.nsi" ⟨"out/main.nsi"⟩) ({ files := twice }, [])) =
        (.ok (), ["Var /GLOBAL x\r\nStrCpy $x 1", "StrCpy $x 1"],
          [(targetOf intoOut "lib.nsh", [.own "Var /GLOBAL x\r\nStrCpy $x 1"]),
            (targetOf intoOut "lib.nsh", [.own "StrCpy $x 1"]),
            (⟨"out/main.nsi"⟩, [.own Line.prelude, .brought "" "lib.nsh", .brought "" "lib.nsh"])]) := by
    decide +kernel
  match hrec : Recorded.exec (Recorded.script intoOut "main.nsi" ⟨"out/main.nsi"⟩)
      ({ files := twice }, []) with
  | (r, b, es) =>
    rw [hrec] at hexec
    obtain ⟨rfl, hrest⟩ := Prod.mk.inj hexec
    obtain ⟨hmade, hwritten⟩ := Prod.mk.inj hrest
    have hx : Unexcluded intoOut es := fun _ _ _ _ _ => rfl
    have hstores := stores_script hx hrec
    dsimp only at hmade hwritten
    have hmain : latest twice (writtenIn es) ⟨"out/main.nsi"⟩ =
        some [.own Line.prelude, .brought "" "lib.nsh", .brought "" "lib.nsh"] := by
      rw [hwritten]
      decide +kernel
    have hlib : latest twice (writtenIn es) (targetOf intoOut "lib.nsh") =
        some [.own "StrCpy $x 1"] := by
      rw [hwritten]
      decide +kernel
    have hmainRead := hstores.read (by rw [hwritten]; simp) hmain
    have hlibRead := hstores.read (by rw [hwritten]; simp) hlib
    have hlines : Expands intoOut b.files (latest twice (writtenIn es)) [.own "StrCpy $x 1"]
        ["StrCpy $x 1"] := .own .nil
    have hexpands : Expands intoOut b.files (latest twice (writtenIn es))
        [.own Line.prelude, .brought "" "lib.nsh", .brought "" "lib.nsh"]
        (Line.prelude :: (["StrCpy $x 1"] ++ (["StrCpy $x 1"] ++ []))) :=
      .own (.brought hlib hlibRead hlines (.brought hlib hlibRead hlines .nil))
    refine ⟨b, es, rfl, Recorded.run_script hrec, hx, ?_, hmade, hmainRead, fun ts => ⟨?_, ?_⟩⟩
    · rw [hwritten]
      decide +kernel
    · exact hexpands.unique
    · rintro rfl
      exact hexpands

end InstallScript
