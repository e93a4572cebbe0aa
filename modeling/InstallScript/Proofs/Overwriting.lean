import InstallScript.File.Tree

/-!
What writing does to a tree. Directories stay, files change at the places that are written to and
nowhere else, and a path names one place whatever the tree holds. So a file is found as before unless
its path names a place that has been written to, and what has been written is what is read.
-/

namespace InstallScript.Tree

/-! ## Places of paths -/

/-- Where pieces lead from a place, whatever is there. -/
def walk (p : Place) : List String → Place
  | [] => p
  | b :: bs =>
    if !Path.isStep b then walk p bs
    else if b = ".." then walk p.dropLast bs
    else walk (p ++ [b]) bs

/-- The place that a path names, whatever is there. -/
def place? (t : Tree) (path : Path) : Option Place :=
  (t.start path).toOption.map fun s => walk s.1 s.2

variable {t t' t'' : Tree} {p q : Place} {bs cs : List String} {path : Path}

theorem walk_append : walk p (bs ++ cs) = walk (walk p bs) cs := by
  fun_induction walk p bs with
  | case1 p => rfl
  | case2 p b bs hb ih => rw [List.cons_append, walk, if_pos hb, ih]
  | case3 p bs hb ih => rw [List.cons_append, walk, if_neg hb, if_pos rfl, ih]
  | case4 p b bs hb hup ih => rw [List.cons_append, walk, if_neg hb, if_neg hup, ih]

theorem walk_of_follow (h : t.follow p bs = .ok q) : walk p bs = q := by
  fun_induction follow t p bs with
  | case1 p =>
    cases h
    rfl
  | case2 => cases h
  | case3 => cases h
  | case4 p b bs _ hb ih => rw [walk, if_pos hb, ih h]
  | case5 p bs _ hb ih => rw [walk, if_neg hb, if_pos rfl, ih h]
  | case6 => cases h
  | case7 => cases h
  | case8 p b bs _ hb hup _ _ ih => rw [walk, if_neg hb, if_neg hup, ih h]

theorem follow_append : t.follow p (bs ++ cs) = (do t.follow (← t.follow p bs) cs) := by
  fun_induction Tree.follow t p bs with
  | case1 p => rfl
  | case2 p b bs hp =>
    rw [List.cons_append, follow, hp]
    rfl
  | case3 p b bs content hp =>
    rw [List.cons_append, follow, hp]
    rfl
  | case4 p b bs hp hb ih => rw [List.cons_append, follow, hp, if_pos hb, ih]
  | case5 p bs hp hb ih => rw [List.cons_append, follow, hp, if_neg hb, if_pos rfl, ih]
  | case6 p b bs hp hb hup hlen =>
    rw [List.cons_append, follow, hp, if_neg hb, if_neg hup, if_pos hlen]
    rfl
  | case7 p b bs hp hb hup hlen hnone =>
    rw [List.cons_append, follow, hp, if_neg hb, if_neg hup, if_neg hlen, if_pos hnone]
    rfl
  | case8 p b bs hp hb hup hlen hthere ih =>
    rw [List.cons_append, follow, hp, if_neg hb, if_neg hup, if_neg hlen, if_neg hthere, ih]

/-- A way with a dot behind it leads to a directory. -/
theorem follow_dot (h : t.follow p (bs ++ ["."]) = .ok q) :
    t.follow p bs = .ok q ∧ t.node? q = some .directory := by
  rw [follow_append] at h
  cases hf : t.follow p bs with
  | error f =>
    rw [hf] at h
    cases h
  | ok r =>
    rw [hf] at h
    replace h : t.follow r ["."] = .ok q := h
    rw [follow] at h
    split at h
    · cases h
    · cases h
    · next hdir =>
      rw [if_pos (by decide), follow] at h
      cases h
      exact ⟨rfl, hdir⟩

theorem start_congr (h : t'.workDir = t.workDir) (path : Path) : t'.start path = t.start path := by
  unfold start
  rw [h]

theorem place?_congr (h : t'.workDir = t.workDir) (path : Path) : t'.place? path = t.place? path := by
  unfold place?
  rw [start_congr h]

theorem locate_eq_ok : t.locate path = .ok p ↔
    ∃ s, t.start path = .ok s ∧ t.follow s.1 s.2 = .ok p := by
  unfold locate
  cases hs : t.start path with
  | error f => exact iff_of_false (fun h => nomatch h) fun ⟨_, h, _⟩ => nomatch h
  | ok s =>
    refine ⟨fun h => ⟨s, rfl, h⟩, ?_⟩
    rintro ⟨_, ⟨⟩, h⟩
    exact h

theorem place?_of_locate (h : t.locate path = .ok p) : t.place? path = some p := by
  obtain ⟨s, hs, hf⟩ := locate_eq_ok.mp h
  rw [place?, hs]
  exact congrArg some (walk_of_follow hf)

theorem read_eq_ok {content : Bytes} : t.read path = .ok content ↔
    ∃ p, t.locate path = .ok p ∧ t.node? p = some (.file content) := by
  unfold read
  cases hl : t.locate path with
  | error f => exact iff_of_false (fun h => nomatch h) fun ⟨_, h, _⟩ => nomatch h
  | ok p =>
    dsimp only [bind, Except.bind]
    constructor
    · intro h
      split at h
      · next hn =>
        cases h
        exact ⟨p, rfl, hn⟩
      · cases h
      · cases h
    · rintro ⟨_, ⟨⟩, hn⟩
      rw [hn]

/-! ## Trees that grow -/

/-- From `t` to `t'` no directory has gone, and files have changed only at the places of `written`. -/
structure Grows (written : Place → Prop) (t t' : Tree) : Prop where
  workDir : t'.workDir = t.workDir
  directory : ∀ p, t.node? p = some .directory → t'.node? p = some .directory
  file : ∀ p bs, t.node? p = some (.file bs) → ¬written p → t'.node? p = some (.file bs)
  ofFile : ∀ p bs, t'.node? p = some (.file bs) → t.node? p = some (.file bs) ∨ written p

namespace Grows

variable {written : Place → Prop}

protected theorem refl (t : Tree) : Grows written t t :=
  ⟨rfl, fun _ h => h, fun _ _ h _ => h, fun _ _ h => .inl h⟩

theorem trans (h : Grows written t t') (h' : Grows written t' t'') : Grows written t t'' where
  workDir := h'.workDir.trans h.workDir
  directory p hp := h'.directory p (h.directory p hp)
  file p bs hp hw := h'.file p bs (h.file p bs hp hw) hw
  ofFile p bs hp := (h'.ofFile p bs hp).elim (h.ofFile p bs) .inr

theorem mono {written' : Place → Prop} (h : Grows written t t') (hw : ∀ p, written p → written' p) :
    Grows written' t t' where
  workDir := h.workDir
  directory := h.directory
  file p bs hp hp' := h.file p bs hp fun hw' => hp' (hw p hw')
  ofFile p bs hp := (h.ofFile p bs hp).imp_right (hw p)

/-- A way that leads to a place still leads there, if a file at its end has not gone. -/
theorem follow (h : Grows written t t') (hf : t.follow p bs = .ok q)
    (hq : ∀ content, t.node? q = some (.file content) → (t'.node? q).isSome) :
    t'.follow p bs = .ok q := by
  fun_induction Tree.follow t p bs with
  | case1 p => exact hf
  | case2 => cases hf
  | case3 => cases hf
  | case4 p b bs hp hb ih => rw [Tree.follow, h.directory p hp, if_pos hb, ih hf]
  | case5 p bs hp hb ih => rw [Tree.follow, h.directory p hp, if_neg hb, if_pos rfl, ih hf]
  | case6 => cases hf
  | case7 => cases hf
  | case8 p b bs hp hb hup hlen hthere ih =>
    have hthere' : ¬(t'.node? (p ++ [b])).isNone = true := by
      match hn : t.node? (p ++ [b]) with
      | none =>
        rw [hn] at hthere
        exact absurd rfl hthere
      | some .directory =>
        rw [h.directory _ hn]
        exact Bool.false_ne_true
      | some (.file content) =>
        cases bs with
        | nil =>
          cases hf
          obtain ⟨n, hn'⟩ := Option.isSome_iff_exists.mp (hq content hn)
          rw [hn']
          exact Bool.false_ne_true
        | cons c bs =>
          rw [Tree.follow, hn] at hf
          cases hf
    rw [Tree.follow, h.directory p hp, if_neg hb, if_neg hup, if_neg hlen, if_neg hthere', ih hf]

theorem locate_of_isSome (h : Grows written t t') (hl : t.locate path = .ok p)
    (hp : ∀ content, t.node? p = some (.file content) → (t'.node? p).isSome) :
    t'.locate path = .ok p := by
  obtain ⟨s, hs, hf⟩ := locate_eq_ok.mp hl
  exact locate_eq_ok.mpr ⟨s, by rw [start_congr h.workDir, hs], h.follow hf hp⟩

theorem locate (h : Grows written t t') (hl : t.locate path = .ok p) (hp : ¬written p) :
    t'.locate path = .ok p :=
  h.locate_of_isSome hl fun content hn => by rw [h.file p content hn hp]; rfl

/-- What is not written to is read as before. -/
theorem read {content : Bytes} (h : Grows written t t') (hr : t.read path = .ok content)
    (hp : ∀ p, t.place? path = some p → ¬written p) : t'.read path = .ok content := by
  obtain ⟨p, hl, hn⟩ := read_eq_ok.mp hr
  have hp := hp p (place?_of_locate hl)
  exact read_eq_ok.mpr ⟨p, h.locate hl hp, h.file p content hn hp⟩

/-- What is read at a place by one name is read there by any name that has led to a file before. -/
theorem read_same {other : Path} {content old : Bytes} (h : Grows written t t')
    (hr : t'.read path = .ok content) (hsame : t.place? path = t.place? other)
    (hold : t.read other = .ok old) : t'.read other = .ok content := by
  obtain ⟨p, hl, hn⟩ := read_eq_ok.mp hr
  obtain ⟨q, hl', -⟩ := read_eq_ok.mp hold
  have hq : some p = some q := by
    rw [← place?_of_locate hl, place?_congr h.workDir, hsame, place?_of_locate hl']
  cases hq
  refine read_eq_ok.mpr ⟨p, h.locate_of_isSome hl' fun _ _ => ?_, hn⟩
  rw [hn]
  rfl

end Grows

/-! ## Writing -/

theorem lookup_putNode (p q : Place) (n : Node) (es : List (Place × Node)) :
    (putNode p n es).lookup q = if q = p then some n else es.lookup q := by
  have hne : ∀ {a b : Place}, a ≠ b → (a == b) = false := fun h => beq_eq_false_iff_ne.mpr h
  induction es with
  | nil => by_cases hq : q = p <;> simp [putNode, List.lookup_cons, hq, hne]
  | cons e es ih =>
    obtain ⟨r, old⟩ := e
    by_cases hr : r = p
    · subst hr
      by_cases hq : q = r
      · simp [putNode, hq]
      · simp [putNode, List.lookup_cons, hq, hne hq]
    · by_cases hq : q = r
      · subst hq
        simp [putNode, hr]
      · simp only [putNode, if_neg hr, List.lookup_cons, hne hq, ih]

theorem node?_put (hp : p ≠ []) (n : Node) (q : Place) :
    (t.put p n).node? q = if q = p then some n else t.node? q := by
  unfold node?
  by_cases hq : q = []
  · rw [if_pos hq, if_pos hq, if_neg]
    exact fun h => hp (h.symm.trans hq)
  · rw [if_neg hq, if_neg hq]
    exact lookup_putNode p q n t.entries

theorem walk_blank (p : Place) {bs : List String} (h : ∀ b ∈ bs, b = "") : walk p bs = p := by
  induction bs with
  | nil => rfl
  | cons b bs ih =>
    rw [h b List.mem_cons_self, walk, if_pos (by decide)]
    exact ih fun c hc => h c (List.mem_cons_of_mem _ hc)

/-- The pieces of a path whose last one is looked up: the way to the directory, that piece, and nothing
but slashes behind it. -/
theorem locateLast_eq_ok {dir : Place} {name : String} {slash : Bool}
    (h : t.locateLast path = .ok (dir, some name, slash)) :
    ∃ p bs blanks, t.start path = .ok (p, bs ++ name :: blanks) ∧ (∀ b ∈ blanks, b = "") ∧
      t.follow p (bs ++ ["."]) = .ok dir ∧ Path.isStep name = true ∧ name ≠ ".." ∧
      (slash = false → blanks = []) := by
  unfold locateLast at h
  cases hs : t.start path with
  | error f =>
    rw [hs] at h
    cases h
  | ok s =>
    obtain ⟨p, bs⟩ := s
    rw [hs] at h
    dsimp only [bind, Except.bind] at h
    split at h
    · cases h
    next d hd =>
    simp only [pure, Except.pure, Except.ok.injEq, Prod.mk.injEq] at h
    obtain ⟨rfl, hname, rfl⟩ := h
    obtain ⟨hhead, hdots⟩ := Option.filter_eq_some_iff.mp hname
    obtain ⟨rest, hback⟩ := List.head?_eq_some_iff.mp hhead
    rw [hback, List.tail_cons] at hd
    simp only [Bool.and_eq_true, decide_eq_true_eq] at hdots
    have hbs : bs = rest.reverse ++ name :: (bs.reverse.takeWhile (· = "")).reverse := by
      have happ := congrArg List.reverse
        (List.takeWhile_append_dropWhile (p := (· = "")) (l := bs.reverse))
      rw [hback] at happ
      simpa using happ.symm
    have hblanks : ∀ b ∈ (bs.reverse.takeWhile (· = "")).reverse, b = "" := by
      intro b hb
      simpa using List.all_eq_true.mp List.all_takeWhile b (List.mem_reverse.mp hb)
    have hstep : Path.isStep name = true := by
      have hblank := List.head?_dropWhile_not (· = "") bs.reverse
      rw [hback] at hblank
      simp only [Path.isStep, Bool.and_eq_true, decide_eq_true_eq]
      exact ⟨by simpa using hblank, hdots.1⟩
    refine ⟨p, rest.reverse, _, by rw [← hbs], hblanks, hd, hstep, hdots.2, fun hslash => ?_⟩
    rcases List.eq_nil_or_concat (bs.reverse.takeWhile (· = "")).reverse with
      hnone | ⟨front, blank, hlast⟩
    · exact hnone
    · have hblank : blank = "" := hblanks blank (by rw [hlast]; simp)
      have hend : bs = (rest.reverse ++ name :: front) ++ [""] := by
        rw [hlast, hblank] at hbs
        simpa using hbs
      rw [hend, List.getLast?_concat] at hslash
      cases hslash

/-- Where the last piece of a path is looked up and that piece make the place of the path. -/
theorem place?_of_locateLast {dir : Place} {name : String} {slash : Bool}
    (h : t.locateLast path = .ok (dir, some name, slash)) : t.place? path = some (dir ++ [name]) := by
  obtain ⟨p, bs, blanks, hs, hblanks, hd, hstep, hup, -⟩ := locateLast_eq_ok h
  have hdir : walk p bs = dir := by
    have hd := walk_of_follow hd
    rw [walk_append] at hd
    exact hd
  rw [place?, hs]
  show some (walk p (bs ++ name :: blanks)) = _
  rw [walk_append, hdir, walk, hstep, if_neg (by decide), if_neg hup, walk_blank _ hblanks]

theorem grows_put {written : Place → Prop} {n : Node} (hp : p ≠ [])
    (hdir : t.node? p ≠ some .directory) (hn : written p ∨ n = .directory ∧ t.node? p = none) :
    Grows written t (t.put p n) where
  workDir := rfl
  directory q hq := by
    rw [node?_put hp, if_neg, hq]
    rintro rfl
    exact hdir hq
  file q bs hq hw := by
    rw [node?_put hp, if_neg, hq]
    rintro rfl
    rcases hn with hn | ⟨_, hn⟩
    · exact hw hn
    · rw [hn] at hq
      cases hq
  ofFile q bs hq := by
    rw [node?_put hp] at hq
    split at hq
    · next h =>
      rcases hn with hn | ⟨rfl, _⟩
      · exact .inr (h ▸ hn)
      · cases hq
    · exact .inl hq

/-- A file is put where the last piece of its path is looked up. -/
theorem write_eq_ok {content : Bytes} (h : t.write path content = .ok t') :
    ∃ dir name, t.locateLast path = .ok (dir, some name, false) ∧ ¬maxName < size name ∧
      t.node? (dir ++ [name]) ≠ some .directory ∧ t' = t.put (dir ++ [name]) (.file content) := by
  unfold write at h
  cases hl : t.locateLast path with
  | error f =>
    rw [hl] at h
    cases h
  | ok last =>
    rw [hl] at h
    dsimp only [bind, Except.bind] at h
    split at h
    · next dir name =>
      split at h
      · cases h
      next hlen =>
      split at h
      · cases h
      next hdir =>
      cases h
      exact ⟨dir, name, rfl, hlen, hdir, rfl⟩
    · cases h

theorem grows_write {content : Bytes} (h : t.write path content = .ok t') :
    Grows (fun p => t.place? path = some p) t t' := by
  obtain ⟨dir, name, hl, -, hdir, rfl⟩ := write_eq_ok h
  exact grows_put (by simp) hdir (.inl (place?_of_locateLast hl))

/-- What has been written is read. -/
theorem read_write {content : Bytes} (h : t.write path content = .ok t') :
    t'.read path = .ok content := by
  have hgrows := grows_write h
  obtain ⟨dir, name, hl, hlen, -, rfl⟩ := write_eq_ok h
  obtain ⟨p, bs, blanks, hs, -, hd, hstep, hup, hblanks⟩ := locateLast_eq_ok hl
  rw [hblanks rfl] at hs
  have hnode : (t.put (dir ++ [name]) (.file content)).node? (dir ++ [name]) = some (.file content) := by
    rw [node?_put (by simp), if_pos rfl]
  obtain ⟨hway, hdir⟩ := follow_dot hd
  have hway' := hgrows.follow hway fun _ hn => by rw [hdir] at hn; cases hn
  refine read_eq_ok.mpr ⟨dir ++ [name], locate_eq_ok.mpr ⟨(p, bs ++ [name]), hs, ?_⟩, hnode⟩
  rw [follow_append, hway']
  show follow _ dir [name] = _
  rw [follow, hgrows.directory dir hdir, hstep, if_neg (by decide), if_neg hup, if_neg hlen, hnode]
  rfl

/-- A new directory is all that is new. -/
theorem grows_makeDir {written : Place → Prop} (h : t.makeDir path = .ok t') : Grows written t t' := by
  unfold makeDir at h
  cases hl : t.locateLast path with
  | error f =>
    rw [hl] at h
    cases h
  | ok last =>
    rw [hl] at h
    dsimp only [bind, Except.bind] at h
    split at h
    · next dir name _ =>
      split at h
      · cases h
      split at h
      · cases h
      next hthere =>
      cases h
      have hnone : t.node? (dir ++ [name]) = none := by simpa using hthere
      exact grows_put (by simp) (by rw [hnone]; simp) (.inr ⟨rfl, hnone⟩)
    · cases h

theorem grows_makeDirs {written : Place → Prop} (t : Tree) (paths : List Path) :
    Grows written t (t.makeDirs paths).2 := by
  induction paths generalizing t with
  | nil => exact .refl t
  | cons path above ih =>
    unfold makeDirs
    split
    · next hmade => exact grows_makeDir hmade
    · split
      · next hmade =>
        have h := ih t
        rw [hmade] at h
        exact h
      · next hmade =>
        have h := ih t
        rw [hmade] at h
        split
        · next hlast => exact h.trans (grows_makeDir hlast)
        · exact h
    · exact .refl t

end InstallScript.Tree
