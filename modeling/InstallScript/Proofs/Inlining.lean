import Mathlib.Data.List.Perm.Subperm
import InstallScript.Proofs.BuildParts
import InstallScript.Proofs.Progress

/-!
Sources with the files they include put in their places. Whether a file is there is decided when the
statement that includes it is met: a file that has been compiled has left a file of its own and the
directories on the way to it, and a path may lead through these (`Tree.receive`). `Inlines` says which
lines the statements of a file become, and what the files are afterwards; `Inlinable` says what is asked
of the files of a source. Then chains of inclusions are no longer than there are files, so the lines
exist (`Inlinable.exists_inlines`), and no statement begins in one file and ends in another
(`Inlinable.endsClosed_of_inlines`).
-/

namespace InstallScript

namespace Tree

/-- The name of the file that a statement includes, and its text, if the file is there. -/
def follows? (t : Tree) (o : Options) (s : Statement) : Option (String × String) :=
  (Build.included? s).bind fun name => (t.source? o (Build.sourceOf o name)).map fun source =>
    (name, source)

variable {t : Tree} {o : Options} {s : Statement} {name source : String}

theorem follows?_eq_some : t.follows? o s = some (name, source) ↔
    Build.included? s = some name ∧ t.source? o (Build.sourceOf o name) = some source := by
  unfold follows?
  cases Build.included? s with
  | none => simp
  | some name' =>
    rw [Option.bind_some, Option.map_eq_some_iff]
    constructor
    · rintro ⟨_, hs, ⟨⟩⟩
      exact ⟨rfl, hs⟩
    · rintro ⟨⟨⟩, hs⟩
      exact ⟨source, hs, rfl⟩

theorem source?_of_follows?_eq_none (h : t.follows? o s = none) (hname : Build.included? s = some name) :
    t.source? o (Build.sourceOf o name) = none := by
  rw [follows?, hname] at h
  exact Option.map_eq_none_iff.mp h

end Tree

/-! ## The lines -/

/-- The lines of statements in which every file that is there stands for its lines, and the files
afterwards. A statement that includes a missing file keeps its own lines. -/
inductive Inlines (o : Options) : Tree → List Block → List String → Tree → Prop
  | nil {t : Tree} : Inlines o t [] [] t
  | own {t t' : Tree} {b : Block} {bs : List Block} {ls : List String} :
      t.follows? o b.statement = none → Inlines o t bs ls t' → Inlines o t (b :: bs) (b.lines ++ ls) t'
  | followed {t t' t'' : Tree} {b : Block} {bs : List Block} {name source : String}
      {ms ls : List String} : t.follows? o b.statement = some (name, source) →
      Inlines o t (blocks source) ms t' → Inlines o (t'.receive (Build.targetOf o name)) bs ls t'' →
      Inlines o t (b :: bs) (ms ++ ls) t''

/-- The lines of a file with those of all files it includes. -/
def Flattens (o : Options) (t : Tree) (path : Path) (ls : List String) : Prop :=
  ∃ source t', t.source? o path = some source ∧ Inlines o t (blocks source) ls t'

theorem Inlines.unique {o : Options} {t u u' : Tree} {bs : List Block} {ls ms : List String}
    (h : Inlines o t bs ls u) (h' : Inlines o t bs ms u') : ls = ms ∧ u = u' := by
  induction h generalizing ms u' with
  | nil =>
    cases h'
    exact ⟨rfl, rfl⟩
  | own hown _ ih =>
    cases h' with
    | own _ h' =>
      obtain ⟨rfl, rfl⟩ := ih h'
      exact ⟨rfl, rfl⟩
    | followed hfollowed _ _ => cases hown.symm.trans hfollowed
  | followed hfollowed _ _ ihms ih =>
    cases h' with
    | own hown _ => cases hown.symm.trans hfollowed
    | followed hfollowed' hms' h' =>
      cases hfollowed.symm.trans hfollowed'
      obtain ⟨rfl, rfl⟩ := ihms hms'
      obtain ⟨rfl, rfl⟩ := ih h'
      exact ⟨rfl, rfl⟩

theorem Flattens.unique {o : Options} {t : Tree} {path : Path} {ls ms : List String}
    (h : Flattens o t path ls) (h' : Flattens o t path ms) : ls = ms := by
  obtain ⟨source, u, hs, hi⟩ := h
  obtain ⟨source', u', hs', hi'⟩ := h'
  cases hs.symm.trans hs'
  exact (hi.unique hi').1

/-! ## Chains of inclusions -/

section

variable (o : Options) (t : Tree) (main : Path)

/-- Reading has come to the statements `bs` of a file, when the files are those of the last tree. The files
`ps` lead from `main` to the file, each of them including the next. -/
inductive Arrives : List Path → Path → List Block → Tree → Prop
  | main {source : String} : t.source? o main = some source → Arrives [] main (blocks source) t
  | own {ps : List Path} {p : Path} {b : Block} {bs : List Block} {u : Tree} :
      Arrives ps p (b :: bs) u → u.follows? o b.statement = none → Arrives ps p bs u
  | into {ps : List Path} {p : Path} {b : Block} {bs : List Block} {u : Tree} {name source : String} :
      Arrives ps p (b :: bs) u → u.follows? o b.statement = some (name, source) →
      Arrives (ps ++ [p]) (Build.sourceOf o name) (blocks source) u
  | past {ps : List Path} {p : Path} {b : Block} {bs : List Block} {u u' : Tree} {name source : String}
      {ms : List String} :
      Arrives ps p (b :: bs) u → u.follows? o b.statement = some (name, source) →
      Inlines o u (blocks source) ms u' → Arrives ps p bs (u'.receive (Build.targetOf o name))

/-- A statement includes the name when the files are those of the tree. -/
def MetIn (name : String) (u : Tree) : Prop :=
  ∃ ps p b bs, Arrives o t main ps p (b :: bs) u ∧ Build.included? b.statement = some name

/-- The text of a file that is read. -/
def ReadIn (source : String) : Prop :=
  t.source? o main = some source ∨
    ∃ name u, MetIn o t main name u ∧ u.source? o (Build.sourceOf o name) = some source

/-- The compiled form of a file that is included goes to the place. -/
def Written (z : Place) : Prop :=
  ∃ name u, MetIn o t main name u ∧ (u.source? o (Build.sourceOf o name)).isSome ∧
    t.place? (Build.targetOf o name) = some z

/-- What has to be so of the files for inclusions to be as good as the included lines. -/
structure Inlinable : Prop where
  /-- No chain of inclusions comes back to a file. -/
  acyclic : ∀ ps p bs u, Arrives o t main ps p bs u → ((ps ++ [p]).map t.place?).Nodup
  /-- No file ends within a statement. -/
  closed : ∀ source, ReadIn o t main source → endsClosed (Text.lines source)
  /-- No included file is excluded. -/
  compiled : ∀ name u, MetIn o t main name u → Build.isExcluded o name (Build.sourceOf o name) = false
  /-- An included file is not one that is written. -/
  apart : ∀ name u z, MetIn o t main name u → u.locate (Build.sourceOf o name) = .ok z →
    ¬Written o t main z

end

variable {o : Options} {t u u' : Tree} {main p : Path} {ps : List Path} {name source : String}
  {b : Block} {bs : List Block} {ls : List String}

theorem Arrives.metIn (h : Arrives o t main ps p (b :: bs) u)
    (hb : u.follows? o b.statement = some (name, source)) : MetIn o t main name u :=
  ⟨ps, p, b, bs, h, (Tree.follows?_eq_some.mp hb).1⟩

theorem Arrives.written (h : Arrives o t main ps p (b :: bs) u)
    (hb : u.follows? o b.statement = some (name, source)) {z : Place}
    (hz : t.place? (Build.targetOf o name) = some z) : Written o t main z :=
  ⟨name, u, h.metIn hb, Option.isSome_iff_exists.mpr ⟨source, (Tree.follows?_eq_some.mp hb).2⟩, hz⟩

/-! ### Files on the way -/

theorem workDir_of_inlines (h : Inlines o u bs ls u') : u'.workDir = u.workDir := by
  induction h with
  | nil => rfl
  | own _ _ ih => exact ih
  | @followed _ t' _ _ _ name _ _ _ _ _ _ ihms ih =>
    have hreceive : Tree.Grows (fun _ => True) t' (t'.receive (Build.targetOf o name)) :=
      Tree.grows_receive fun _ _ => trivial
    exact (ih.trans hreceive.workDir).trans ihms

theorem Arrives.workDir (h : Arrives o t main ps p bs u) : u.workDir = t.workDir := by
  induction h with
  | main => rfl
  | own _ _ ih => exact ih
  | into _ _ ih => exact ih
  | @past _ _ _ _ _ u' name _ _ _ _ hi ih =>
    have hreceive : Tree.Grows (fun _ => True) u' (u'.receive (Build.targetOf o name)) :=
      Tree.grows_receive fun _ _ => trivial
    exact (hreceive.workDir.trans (workDir_of_inlines hi)).trans ih

/-- Files change where compiled ones go. -/
theorem Arrives.grows_receive (h : Arrives o t main ps p (b :: bs) u)
    (hb : u.follows? o b.statement = some (name, source)) (hi : Inlines o u (blocks source) ls u') :
    u'.Grows (Written o t main) (u'.receive (Build.targetOf o name)) := by
  refine Tree.grows_receive fun z hz => h.written hb ?_
  rw [← hz, Tree.place?_congr ((workDir_of_inlines hi).trans h.workDir)]

theorem Arrives.grows_of_inlines (h : Arrives o t main ps p bs u) (hi : Inlines o u bs ls u') :
    u.Grows (Written o t main) u' := by
  induction hi generalizing ps p with
  | nil => exact .refl _
  | own hb _ ih => exact ih (h.own hb)
  | followed hb hms _ ihms ih =>
    exact ((ihms (h.into hb)).trans (h.grows_receive hb hms)).trans (ih (h.past hb hms))

theorem Arrives.grows (h : Arrives o t main ps p bs u) : t.Grows (Written o t main) u := by
  induction h with
  | main => exact .refl _
  | own _ _ ih => exact ih
  | into _ _ ih => exact ih
  | past h hb hi ih => exact (ih.trans ((h.into hb).grows_of_inlines hi)).trans (h.grows_receive hb hi)

namespace Inlinable

/-- The files of a chain have been there from the start. -/
theorem files (h : Inlinable o t main) (harrives : Arrives o t main ps p bs u) :
    ∀ q ∈ ps ++ [p], ∃ z bytes source, t.place? q = some z ∧ t.node? z = some (.file bytes) ∧
      o.encoding.decode bytes = .ok source := by
  induction harrives with
  | main hs =>
    intro q hq
    cases List.mem_singleton.mp hq
    obtain ⟨z, bytes, hl, hn, hd⟩ := Tree.source?_eq_some.mp hs
    exact ⟨z, bytes, _, Tree.place?_of_locate hl, hn, hd⟩
  | own _ _ ih => exact ih
  | past _ _ _ ih => exact ih
  | into harrives hb ih =>
    intro q hq
    rcases List.mem_append.mp hq with hq | hq
    · exact ih q hq
    · cases List.mem_singleton.mp hq
      obtain ⟨z, bytes, hl, hn, hd⟩ := Tree.source?_eq_some.mp (Tree.follows?_eq_some.mp hb).2
      have hapart := h.apart _ _ z (harrives.metIn hb) hl
      refine ⟨z, bytes, _, ?_, (harrives.grows.ofFile z bytes hn).resolve_right hapart, hd⟩
      rw [← Tree.place?_congr harrives.workDir, Tree.place?_of_locate hl]

/-- The files of a chain have different entries of the tree. -/
theorem length_lt (h : Inlinable o t main) (harrives : Arrives o t main ps p bs u) :
    ps.length < t.entries.length := by
  have hsubset : (ps ++ [p]).map t.place? ⊆ (t.entries.map Prod.fst).map some := by
    intro z hz
    obtain ⟨q, hq, rfl⟩ := List.mem_map.mp hz
    obtain ⟨z, bytes, _, hz, hn, _⟩ := h.files harrives q hq
    rw [hz]
    exact List.mem_map_of_mem (Tree.mem_entries_of_file hn)
  have hlength := (List.subperm_of_subset (h.acyclic ps p bs u harrives) hsubset).length_le
  simp only [List.length_map, List.length_append, List.length_singleton] at hlength
  exact hlength

/-- A bound on what may still follow a chain is not used up. -/
theorem exists_eq_succ (h : Inlinable o t main) (harrives : Arrives o t main ps p bs u) {n : Nat}
    (hn : t.entries.length ≤ ps.length + n) :
    ∃ m, n = m + 1 ∧ t.entries.length ≤ (ps ++ [p]).length + m := by
  have hlength := h.length_lt harrives
  refine ⟨n - 1, by omega, ?_⟩
  rw [List.length_append, List.length_singleton]
  omega

/-- An included file is not on the way to the file that includes it. -/
theorem not_on_way (h : Inlinable o t main) (harrives : Arrives o t main ps p (b :: bs) u)
    (hname : Build.included? b.statement = some name) {z : Place}
    (hl : u.locate (Build.sourceOf o name) = .ok z) : some z ∉ (ps ++ [p]).map t.place? := by
  intro hmem
  obtain ⟨q, hq, hqz⟩ := List.mem_map.mp hmem
  obtain ⟨z', bytes, source, hz', hn, hd⟩ := h.files harrives q hq
  cases hz'.symm.trans hqz
  have hapart := h.apart name u z ⟨ps, p, b, bs, harrives, hname⟩ hl
  have hn' := harrives.grows.file z bytes hn hapart
  have hs := Tree.source?_eq_some.mpr ⟨z, bytes, hl, hn', hd⟩
  have hnodup := h.acyclic _ _ _ _ (harrives.into (Tree.follows?_eq_some.mpr ⟨hname, hs⟩))
  rw [List.map_append, List.nodup_append] at hnodup
  refine hnodup.2.2 _ hmem _ (List.mem_singleton_self _) ?_
  rw [← Tree.place?_congr harrives.workDir, Tree.place?_of_locate hl]

/-- Chains end, so the lines exist. -/
theorem exists_inlines (h : Inlinable o t main) {n : Nat} (hn : t.entries.length ≤ ps.length + n)
    (harrives : Arrives o t main ps p bs u) : ∃ ls u', Inlines o u bs ls u' := by
  induction n generalizing ps p bs u with
  | zero =>
    obtain ⟨_, ⟨⟩, _⟩ := h.exists_eq_succ harrives hn
  | succ n ih =>
    obtain ⟨_, ⟨⟩, hn'⟩ := h.exists_eq_succ harrives hn
    induction bs generalizing u with
    | nil => exact ⟨[], u, .nil⟩
    | cons b bs ihbs =>
      cases hb : u.follows? o b.statement with
      | none =>
        obtain ⟨ls, u', hls⟩ := ihbs (harrives.own hb)
        exact ⟨_, u', .own hb hls⟩
      | some found =>
        obtain ⟨name, source⟩ := found
        obtain ⟨ms, u₁, hms⟩ := ih hn' (harrives.into hb)
        obtain ⟨ls, u', hls⟩ := ihbs (harrives.past hb hms)
        exact ⟨_, u', .followed hb hms hls⟩

/-- No statement of a file goes on in another one. -/
theorem whole (h : Inlinable o t main) (harrives : Arrives o t main ps p bs u) :
    ∀ b ∈ bs, b.Whole := by
  induction harrives with
  | main hs => exact whole_blocks (h.closed _ (.inl hs))
  | own _ _ ih => exact (List.forall_mem_cons.mp ih).2
  | past _ _ _ ih => exact (List.forall_mem_cons.mp ih).2
  | into harrives hb _ =>
    exact whole_blocks (h.closed _ (.inr ⟨_, _, harrives.metIn hb, (Tree.follows?_eq_some.mp hb).2⟩))

/-- The last statement of the lines is finished. -/
theorem endsClosed_of_inlines (h : Inlinable o t main) (harrives : Arrives o t main ps p bs u)
    (hi : Inlines o u bs ls u') : endsClosed ls := by
  induction hi generalizing ps p with
  | nil => rfl
  | own hb _ ih =>
    have hwhole := h.whole harrives _ List.mem_cons_self
    exact endsClosed_append hwhole.closed (ih (harrives.own hb))
  | followed hb hms _ ihms ih =>
    exact endsClosed_append (ihms (harrives.into hb)) (ih (harrives.past hb hms))

end Inlinable

theorem newline_not_mem_blocks (hb : b ∈ blocks source) : ∀ l ∈ b.lines, '\n' ∉ l.toList := by
  intro l hl
  refine Text.newline_not_mem_lines source l ?_
  rw [← lines_blocks]
  exact List.mem_flatMap.mpr ⟨b, hb, hl⟩

/-- Each of the lines is one line. -/
theorem newline_not_mem_of_inlines (hi : Inlines o u bs ls u')
    (hbs : ∀ b ∈ bs, ∀ l ∈ b.lines, '\n' ∉ l.toList) : ∀ l ∈ ls, '\n' ∉ l.toList := by
  induction hi with
  | nil => simp
  | own _ _ ih =>
    obtain ⟨hb, hbs⟩ := List.forall_mem_cons.mp hbs
    exact List.forall_mem_append.mpr ⟨hb, ih hbs⟩
  | followed _ _ _ ihms ih =>
    exact List.forall_mem_append.mpr
      ⟨ihms fun _ hb => newline_not_mem_blocks hb, ih (List.forall_mem_cons.mp hbs).2⟩

/-! ## Checking -/

/-- The inlined lines and the files afterwards, if the bound is large enough. -/
def inlineWithin (o : Options) : Nat → Tree → List Block → Option (List String × Tree)
  | 0, _, _ => none
  | _ + 1, t, [] => some ([], t)
  | n + 1, t, b :: bs =>
    match t.follows? o b.statement with
    | none => (inlineWithin o n t bs).map fun r => (b.lines ++ r.1, r.2)
    | some (name, source) =>
      (inlineWithin o n t (blocks source)).bind fun r =>
        (inlineWithin o n (r.2.receive (Build.targetOf o name)) bs).map fun r' => (r.1 ++ r'.1, r'.2)

/-- Where reading has come, as in `Arrives`. -/
structure Arrival where
  way : List Path
  path : Path
  ahead : List Block
  files : Tree

/-- The name that is included there. -/
def Arrival.met? (a : Arrival) : Option String := a.ahead.head?.bind (Build.included? ·.statement)

/-- Where reading comes from the statements of a file on, if the bound is large enough. -/
def arrivalsWithin (o : Options) : Nat → List Path → Path → List Block → Tree → List Arrival
  | 0, _, _, _, _ => []
  | _ + 1, ps, p, [], u => [⟨ps, p, [], u⟩]
  | n + 1, ps, p, b :: bs, u => ⟨ps, p, b :: bs, u⟩ ::
    match u.follows? o b.statement with
    | none => arrivalsWithin o n ps p bs u
    | some (name, source) =>
      arrivalsWithin o n (ps ++ [p]) (Build.sourceOf o name) (blocks source) u ++
        ((inlineWithin o n u (blocks source)).map fun r =>
          arrivalsWithin o n ps p bs (r.2.receive (Build.targetOf o name))).getD []

theorem inlines_of_inlineWithin {n : Nat} (h : inlineWithin o n u bs = some (ls, u')) :
    Inlines o u bs ls u' := by
  induction n generalizing u bs ls u' with
  | zero => cases h
  | succ n ih =>
    cases bs with
    | nil =>
      cases h
      exact .nil
    | cons b bs =>
      rw [inlineWithin] at h
      split at h
      · next hb =>
        obtain ⟨⟨ls, u'⟩, hr, ⟨⟩⟩ := Option.map_eq_some_iff.mp h
        exact .own hb (ih hr)
      · next hb =>
        obtain ⟨⟨ms, u₁⟩, hr, h⟩ := Option.bind_eq_some_iff.mp h
        obtain ⟨⟨ls, u'⟩, hr', ⟨⟩⟩ := Option.map_eq_some_iff.mp h
        exact .followed hb (ih hr) (ih hr')

theorem mem_arrivalsWithin_self {n : Nat} (hn : (inlineWithin o n u bs).isSome) :
    ⟨ps, p, bs, u⟩ ∈ arrivalsWithin o n ps p bs u := by
  cases n with
  | zero => cases hn
  | succ n =>
    cases bs with
    | nil => exact List.mem_singleton_self _
    | cons b bs => exact List.mem_cons_self

/-- The list has what comes behind the statement `b` of a file, and the file that the statement includes. -/
def HasNext (o : Options) (as : List Arrival) (ps : List Path) (p : Path) (b : Block) (bs : List Block)
    (u : Tree) : Prop :=
  (u.follows? o b.statement = none → ⟨ps, p, bs, u⟩ ∈ as) ∧
    ∀ name source, u.follows? o b.statement = some (name, source) →
      ⟨ps ++ [p], Build.sourceOf o name, blocks source, u⟩ ∈ as ∧
      ∀ ms u', Inlines o u (blocks source) ms u' →
        ⟨ps, p, bs, u'.receive (Build.targetOf o name)⟩ ∈ as

theorem HasNext.mono {as as' : List Arrival} (h : HasNext o as ps p b bs u) (hsubset : as ⊆ as') :
    HasNext o as' ps p b bs u := by
  refine ⟨fun hb => hsubset (h.1 hb), fun name source hb => ?_⟩
  obtain ⟨hinto, hpast⟩ := h.2 name source hb
  exact ⟨hsubset hinto, fun ms u' hi => hsubset (hpast ms u' hi)⟩

theorem arrivalsWithin_closed {n : Nat} {ps₀ : List Path} {p₀ : Path} {bs₀ : List Block} {u₀ : Tree}
    (hn : (inlineWithin o n u₀ bs₀).isSome)
    (hmem : ⟨ps, p, b :: bs, u⟩ ∈ arrivalsWithin o n ps₀ p₀ bs₀ u₀) :
    HasNext o (arrivalsWithin o n ps₀ p₀ bs₀ u₀) ps p b bs u := by
  induction n generalizing ps₀ p₀ bs₀ u₀ with
  | zero => cases hn
  | succ n ih =>
    cases bs₀ with
    | nil => simp [arrivalsWithin] at hmem
    | cons b₀ bs₀ =>
      rw [arrivalsWithin] at hmem ⊢
      rw [inlineWithin] at hn
      cases hb₀ : u₀.follows? o b₀.statement with
      | none =>
        rw [hb₀] at hmem hn
        dsimp only at hmem hn ⊢
        rw [Option.isSome_map] at hn
        rcases List.mem_cons.mp hmem with heq | hmem
        · cases heq
          refine ⟨fun _ => .tail _ (mem_arrivalsWithin_self hn), fun name source hb => ?_⟩
          cases hb₀.symm.trans hb
        · exact (ih hn hmem).mono (List.subset_cons_self _ _)
      | some found =>
        obtain ⟨name, source⟩ := found
        rw [hb₀] at hmem hn
        dsimp only at hmem hn ⊢
        cases hr : inlineWithin o n u₀ (blocks source) with
        | none =>
          rw [hr] at hn
          cases hn
        | some r =>
          obtain ⟨ms, u₁⟩ := r
          rw [hr] at hmem hn
          rw [Option.bind_some, Option.isSome_map] at hn
          rw [Option.map_some, Option.getD_some] at hmem ⊢
          have hinto : (inlineWithin o n u₀ (blocks source)).isSome := by rw [hr]; rfl
          rcases List.mem_cons.mp hmem with heq | hmem
          · cases heq
            refine ⟨fun hb => ?_, fun name' source' hb => ?_⟩
            · cases hb₀.symm.trans hb
            · cases hb₀.symm.trans hb
              refine ⟨.tail _ (List.mem_append_left _ (mem_arrivalsWithin_self hinto)), fun ms' u' hi => ?_⟩
              cases ((inlines_of_inlineWithin hr).unique hi).2
              exact .tail _ (List.mem_append_right _ (mem_arrivalsWithin_self hn))
          · refine HasNext.mono ?_ (List.subset_cons_self _ _)
            rcases List.mem_append.mp hmem with hmem | hmem
            · exact (ih hinto hmem).mono (List.subset_append_left _ _)
            · exact (ih hn hmem).mono (List.subset_append_right _ _)

/-- All places where reading comes are in the list. -/
theorem mem_arrivalsWithin {n : Nat} (hs : t.source? o main = some source)
    (hn : (inlineWithin o n t (blocks source)).isSome) (h : Arrives o t main ps p bs u) :
    ⟨ps, p, bs, u⟩ ∈ arrivalsWithin o n [] main (blocks source) t := by
  induction h with
  | main hs' =>
    cases hs.symm.trans hs'
    exact mem_arrivalsWithin_self hn
  | own _ hb ih => exact (arrivalsWithin_closed hn ih).1 hb
  | into _ hb ih => exact ((arrivalsWithin_closed hn ih).2 _ _ hb).1
  | past _ hb hi ih => exact ((arrivalsWithin_closed hn ih).2 _ _ hb).2 _ _ hi

/-- What is asked of the files, put so that it can be decided. -/
def CheckedWithin (o : Options) (n : Nat) (t : Tree) (main : Path) (source : String) : Prop :=
  let as := arrivalsWithin o n [] main (blocks source) t
  (inlineWithin o n t (blocks source)).isSome ∧ endsClosed (Text.lines source) ∧
    ∀ a ∈ as, ((a.way ++ [a.path]).map t.place?).Nodup ∧ ∀ name ∈ a.met?,
      (∀ text ∈ a.files.source? o (Build.sourceOf o name), endsClosed (Text.lines text)) ∧
      Build.isExcluded o name (Build.sourceOf o name) = false ∧
      ∀ z ∈ (a.files.locate (Build.sourceOf o name)).toOption, ∀ a' ∈ as, ∀ name' ∈ a'.met?,
        (a'.files.source? o (Build.sourceOf o name')).isSome → z ∉ t.place? (Build.targetOf o name')

instance (n : Nat) : Decidable (CheckedWithin o n t main source) :=
  inferInstanceAs (Decidable (_ ∧ _ ∧ _))

theorem CheckedWithin.inlinable {n : Nat} (h : CheckedWithin o n t main source)
    (hs : t.source? o main = some source) : Inlinable o t main := by
  obtain ⟨hn, hmain, hall⟩ := h
  have hmem : ∀ {ps p bs u}, Arrives o t main ps p bs u → _ := fun h => mem_arrivalsWithin hs hn h
  have hmet : ∀ {name u}, MetIn o t main name u →
      ∃ a ∈ arrivalsWithin o n [] main (blocks source) t, a.files = u ∧ name ∈ a.met? := by
    rintro name u ⟨ps, p, b, bs, h, hname⟩
    exact ⟨_, hmem h, rfl, hname⟩
  refine ⟨fun ps p bs u h => (hall _ (hmem h)).1, ?_, ?_, ?_⟩
  · rintro text (htext | ⟨name, u, h, htext⟩)
    · cases hs.symm.trans htext
      exact hmain
    · obtain ⟨a, ha, rfl, hname⟩ := hmet h
      exact ((hall a ha).2 name hname).1 text htext
  · intro name u h
    obtain ⟨a, ha, -, hname⟩ := hmet h
    exact ((hall a ha).2 name hname).2.1
  · rintro name u z h hl ⟨name', u', h', hthere, hz⟩
    obtain ⟨a, ha, rfl, hname⟩ := hmet h
    obtain ⟨a', ha', rfl, hname'⟩ := hmet h'
    refine ((hall a ha).2 name hname).2.2 z ?_ a' ha' name' hname' hthere hz
    rw [hl]
    rfl

end InstallScript
