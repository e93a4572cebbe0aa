import InstallScript.File.Path

/-!
Where compiled files go. The name of a compiled file has a mark in front of its extension, or at its
end if there is none. From such a name the name of the source is got back (`compiledName_inj`): the
mark could only be taken for an extension, and then the source would have had that extension itself.
A path in plain form keeps all but its name (`compiled_build`), so that the files of different paths
go to different paths (`compiled_paths_distinct`).
-/

namespace InstallScript.Path

/-! ## Names and their extensions -/

/-- The extension follows the last dot, which is not the first character of the name. -/
def HasExtension (name stem ext : String) : Prop :=
  stem ≠ "" ∧ '.' ∉ ext.toList ∧ name = stem ++ "." ++ ext

variable {name name' stem ext : String} {anchor anchor' : Anchor} {dirs dirs' : List String}

theorem splitExtension_of_hasExtension (h : HasExtension name stem ext) :
    splitExtension name = (stem, some ext) := by
  obtain ⟨hstem, hext, rfl⟩ := h
  have hback : (stem ++ "." ++ ext).toList.reverse =
      ext.toList.reverse ++ '.' :: stem.toList.reverse := by simp
  have hdots : ∀ c ∈ ext.toList.reverse, decide (c ≠ '.') = true := by
    intro c hc
    refine decide_eq_true fun hdot => hext ?_
    rw [← hdot]
    exact List.mem_reverse.mp hc
  have hfront : stem.toList.reverse ≠ [] := by simpa using hstem
  obtain ⟨c, cs, hcs⟩ := List.exists_cons_of_ne_nil hfront
  have hstem' : stem = String.ofList (c :: cs).reverse := by
    rw [← hcs, List.reverse_reverse, String.ofList_toList]
  rw [splitExtension, hback, List.dropWhile_append_of_pos hdots, List.takeWhile_append_of_pos hdots,
    hcs, hstem']
  simp

theorem splitExtension_of_not_hasExtension (h : ∀ stem ext, ¬HasExtension name stem ext) :
    splitExtension name = (name, none) := by
  unfold splitExtension
  dsimp only
  split
  · next dot c cs hrest =>
    have hdot : dot = '.' := by
      have hhead := List.head?_dropWhile_not (· ≠ '.') name.toList.reverse
      rw [hrest] at hhead
      simpa using hhead
    have hsplit := List.takeWhile_append_dropWhile (p := (· ≠ '.')) (l := name.toList.reverse)
    rw [hrest, hdot] at hsplit
    refine absurd ⟨?_, ?_, ?_⟩ (h (String.ofList (c :: cs).reverse)
      (String.ofList (name.toList.reverse.takeWhile (· ≠ '.')).reverse))
    · simp
    · intro hmem
      rw [String.toList_ofList, List.mem_reverse] at hmem
      have hne := List.all_eq_true.mp List.all_takeWhile _ hmem
      simp at hne
    · rw [← String.toList_inj, ← List.reverse_inj]
      refine hsplit.symm.trans ?_
      simp
  · rfl

theorem compiledName_of_hasExtension (h : HasExtension name stem ext) :
    compiledName name = stem ++ ".bridle." ++ ext := by
  rw [compiledName, splitExtension_of_hasExtension h]

theorem compiledName_of_not_hasExtension (h : ∀ stem ext, ¬HasExtension name stem ext) :
    compiledName name = name ++ ".bridle" := by
  rw [compiledName, splitExtension_of_not_hasExtension h]

/-- The mark ends the stem of the compiled name. -/
theorem hasExtension_compiledName (h : HasExtension name stem ext) :
    HasExtension (compiledName name) (stem ++ ".bridle") ext := by
  refine ⟨by simp, h.2.1, ?_⟩
  rw [compiledName_of_hasExtension h, ← String.toList_inj]
  simp

/-- Without an extension, the mark is that of the compiled name. -/
theorem hasExtension_compiledName_of_not (hne : name ≠ "")
    (h : ∀ stem ext, ¬HasExtension name stem ext) : HasExtension (compiledName name) name "bridle" := by
  refine ⟨hne, by decide, ?_⟩
  rw [compiledName_of_not_hasExtension h, ← String.toList_inj]
  simp

/-- The mark at the end of a name is an extension, so it does not come from a name without one. -/
theorem compiledName_ne (hne : name' ≠ "") (hext : HasExtension name stem ext)
    (hnone : ∀ stem ext, ¬HasExtension name' stem ext) : compiledName name ≠ compiledName name' := by
  intro h
  have hsplit := splitExtension_of_hasExtension (hasExtension_compiledName hext)
  rw [h, splitExtension_of_hasExtension (hasExtension_compiledName_of_not hne hnone)] at hsplit
  obtain ⟨hname, -⟩ := Prod.mk.inj hsplit
  refine hnone stem "bridle" ⟨hext.1, by decide, ?_⟩
  rw [hname, ← String.toList_inj]
  simp

theorem compiledName_inj (hne : name ≠ "") (hne' : name' ≠ "")
    (h : compiledName name = compiledName name') : name = name' := by
  by_cases hext : ∃ stem ext, HasExtension name stem ext
  · obtain ⟨stem, ext, hext⟩ := hext
    by_cases hext' : ∃ stem ext, HasExtension name' stem ext
    · obtain ⟨stem', ext', hext'⟩ := hext'
      have hsplit := splitExtension_of_hasExtension (hasExtension_compiledName hext)
      rw [h, splitExtension_of_hasExtension (hasExtension_compiledName hext')] at hsplit
      obtain ⟨hstem, hexts⟩ := Prod.mk.inj hsplit
      cases Option.some.inj hexts
      cases (String.append_left_inj _).mp hstem
      rw [hext.2.2, hext'.2.2]
    · simp only [not_exists] at hext'
      exact absurd h (compiledName_ne hne' hext hext')
  · simp only [not_exists] at hext
    by_cases hext' : ∃ stem ext, HasExtension name' stem ext
    · obtain ⟨stem', ext', hext'⟩ := hext'
      exact absurd h.symm (compiledName_ne hne hext' hext)
    · simp only [not_exists] at hext'
      rw [compiledName_of_not_hasExtension hext, compiledName_of_not_hasExtension hext'] at h
      exact (String.append_left_inj _).mp h

/-- All characters of a name stay, and there are more of them. -/
theorem exists_compiledName (name : String) : ∃ front back : List Char,
    name.toList = front ++ back ∧ (compiledName name).toList = front ++ ".bridle".toList ++ back := by
  by_cases hext : ∃ stem ext, HasExtension name stem ext
  · obtain ⟨stem, ext, hext⟩ := hext
    refine ⟨stem.toList, '.' :: ext.toList, ?_, ?_⟩
    · rw [hext.2.2]
      simp
    · rw [compiledName_of_hasExtension hext]
      simp
  · simp only [not_exists] at hext
    refine ⟨name.toList, [], by simp, ?_⟩
    rw [compiledName_of_not_hasExtension hext]
    simp

theorem length_compiledName (name : String) :
    (compiledName name).toList.length = name.toList.length + 7 := by
  obtain ⟨front, back, hname, hcompiled⟩ := exists_compiledName name
  rw [hname, hcompiled, List.length_append, List.length_append, List.length_append,
    Nat.add_right_comm]
  rfl

/-! ## Paths in plain form -/

/-- What a directory or a file can be called. -/
def IsName (piece : String) : Prop := piece ≠ "" ∧ piece ≠ "." ∧ piece ≠ ".." ∧ '/' ∉ piece.toList

theorem isName_compiledName (h : IsName name) : IsName (compiledName name) := by
  have hlength := length_compiledName name
  obtain ⟨front, back, hname, hcompiled⟩ := exists_compiledName name
  refine ⟨?_, ?_, ?_, ?_⟩
  · intro he
    rw [he] at hlength
    simp at hlength
  · intro he
    rw [he] at hlength
    simp at hlength
  · intro he
    rw [he] at hlength
    simp at hlength
  · have hslash := h.2.2.2
    rw [hname, List.mem_append, not_or] at hslash
    rw [hcompiled, List.mem_append, List.mem_append]
    rintro ((hmem | hmem) | hmem)
    · exact hslash.1 hmem
    · exact absurd hmem (by decide)
    · exact hslash.2 hmem

/-- The path has names of directories and the name of a file, single slashes between them, and may have
a slash in front. -/
def Plain (p : Path) : Prop :=
  ∃ anchor dirs name, anchor ≠ .here ∧ (∀ d ∈ dirs, IsName d) ∧ IsName name ∧
    p = build anchor (dirs ++ [name])

theorem pieces_intercalate {bs : List String} (h : ∀ b ∈ bs, '/' ∉ b.toList) (hne : bs ≠ []) :
    pieces ("/".intercalate bs) = bs := by
  have hslash : ∀ l ∈ bs.map String.toList, '/' ∉ l := by
    intro l hl
    obtain ⟨b, hb, rfl⟩ := List.mem_map.mp hl
    exact h b hb
  have hsplit := List.splitOn_intercalate '/' hslash (by simpa using hne)
  rw [pieces, String.toList_intercalate]
  refine (congrArg (List.map String.ofList) hsplit).trans ?_
  simp [Function.comp_def]

theorem isStep_of_isName (h : IsName name) : isStep name = true := by
  simp [isStep, h.1, h.2.1]

theorem trim_concat (h : isStep name = true) (bs : List String) : trim (bs ++ [name]) = bs ++ [name] := by
  simp [trim, h]

theorem trim_of_isName (h : ∀ d ∈ dirs, IsName d) : trim dirs = dirs := by
  rcases List.eq_nil_or_concat dirs with rfl | ⟨bs, b, rfl⟩
  · rfl
  · rw [List.concat_eq_append] at h ⊢
    exact trim_concat (isStep_of_isName (h b (by simp))) bs

theorem split_build (hanchor : anchor ≠ .here) (hnames : ∀ d ∈ dirs, IsName d) (hne : dirs ≠ []) :
    (build anchor dirs).split = (anchor, dirs) := by
  obtain ⟨d, ds, rfl⟩ := List.exists_cons_of_ne_nil hne
  have hslash : ∀ b ∈ d :: ds, '/' ∉ b.toList := fun b hb => (hnames b hb).2.2.2
  obtain ⟨hd, hdot, -⟩ := hnames d List.mem_cons_self
  cases anchor with
  | here => exact absurd rfl hanchor
  | root =>
    have htext : "/" ++ "/".intercalate (d :: ds) = "/".intercalate ("" :: d :: ds) := by
      rw [String.intercalate_cons_of_ne_nil (List.cons_ne_nil d ds), String.empty_append]
    rw [split, build, htext, pieces_intercalate (List.forall_mem_cons.mpr ⟨by simp, hslash⟩) (by simp)]
    rfl
  | none =>
    rw [split, build, pieces_intercalate hslash (by simp)]
    split
    · next he =>
      cases he
      exact absurd rfl hd
    · next he =>
      cases he
      exact absurd rfl hdot
    · rfl

/-- What stands in front of the name of a file. -/
def front (anchor : Anchor) (dirs : List String) : String :=
  (if anchor = .root then "/" else "") ++ String.join (dirs.map (· ++ "/"))

theorem front_concat (anchor : Anchor) (dirs : List String) (d : String) :
    front anchor (dirs ++ [d]) = front anchor dirs ++ d ++ "/" := by
  rw [front, front, List.map_append, String.join_append, ← String.toList_inj]
  simp

theorem getLast?_front (anchor : Anchor) (dirs : List String) :
    front anchor dirs = "" ∨ (front anchor dirs).toList.getLast? = some '/' := by
  rcases List.eq_nil_or_concat dirs with rfl | ⟨bs, b, rfl⟩
  · cases anchor <;> simp [front]
  · rw [List.concat_eq_append, front_concat]
    exact .inr (by simp)

theorem intercalate_concat (dirs : List String) (name : String) :
    "/".intercalate (dirs ++ [name]) = String.join (dirs.map (· ++ "/")) ++ name := by
  induction dirs with
  | nil => simp [String.intercalate_singleton]
  | cons d dirs ih =>
    rw [List.cons_append, String.intercalate_cons_of_ne_nil (by simp), ih, List.map_cons,
      String.join_cons, ← String.append_assoc]

theorem text_build (hanchor : anchor ≠ .here) :
    (build anchor (dirs ++ [name])).text = front anchor dirs ++ name := by
  cases anchor with
  | here => exact absurd rfl hanchor
  | root =>
    rw [build, intercalate_concat, front, String.append_assoc]
    rfl
  | none =>
    rw [build, intercalate_concat, front, String.append_assoc]
    exact String.empty_append.symm

theorem join_build (hanchor : anchor ≠ .here) (hdirs : ∀ d ∈ dirs, IsName d) (hname : IsName name) :
    (build anchor dirs).join ⟨name⟩ = build anchor (dirs ++ [name]) := by
  have hsplit : (⟨name⟩ : Path).split = (.none, [name]) := by
    have hbuild : (build .none [name]).split = (.none, [name]) :=
      split_build (by decide) (by simpa using hname) (by simp)
    rwa [build, String.intercalate_singleton] at hbuild
  have hrelative : (⟨name⟩ : Path).isAbsolute = false := by
    rw [isAbsolute, hsplit]
    rfl
  rw [join, hrelative, Bool.false_or]
  rcases List.eq_nil_or_concat dirs with rfl | ⟨bs, d, rfl⟩
  · cases anchor with
    | here => exact absurd rfl hanchor
    | root => simp [build, String.intercalate_singleton]
    | none => simp [build, String.intercalate_singleton]
  · rw [List.concat_eq_append] at hdirs ⊢
    obtain ⟨hd, -, -, hslash⟩ := hdirs d (by simp)
    have hd' : d.toList ≠ [] := by simpa using hd
    have htext : (build anchor (bs ++ [d])).text = front anchor bs ++ d := text_build hanchor
    have hempty : (build anchor (bs ++ [d])).text ≠ "" := by
      rw [htext]
      simp [hd]
    have hlast : (build anchor (bs ++ [d])).text.toList.getLast? ≠ some '/' := by
      obtain ⟨cs, c, hc⟩ := List.eq_nil_or_concat d.toList |>.resolve_left hd'
      rw [List.concat_eq_append] at hc
      rw [htext, String.toList_append, hc, ← List.append_assoc, List.getLast?_concat]
      rintro ⟨⟩
      exact hslash (by simp [hc])
    rw [decide_eq_false hempty, if_neg Bool.false_ne_true, if_neg hlast, htext]
    have hlonger : (build anchor (bs ++ [d] ++ [name])).text = front anchor bs ++ d ++ "/" ++ name := by
      rw [text_build hanchor, front_concat]
    rw [← hlonger]

/-! ## Compiled files -/

/-- The compiled file of a path in plain form differs from it in the name only. -/
theorem compiled_build (hanchor : anchor ≠ .here) (hdirs : ∀ d ∈ dirs, IsName d) (hname : IsName name) :
    (build anchor (dirs ++ [name])).compiled = build anchor (dirs ++ [compiledName name]) := by
  have hnames : ∀ d ∈ dirs ++ [name], IsName d :=
    List.forall_mem_append.mpr ⟨hdirs, by simpa using hname⟩
  have hsplit := split_build hanchor hnames (by simp)
  have htrim := trim_concat (isStep_of_isName hname) dirs
  have hfile : (build anchor (dirs ++ [name])).fileName? = some name := by
    rw [fileName?, hsplit, htrim, List.getLast?_concat]
    simp [Option.filter, hname.2.2.1]
  have hparent : (build anchor (dirs ++ [name])).parent? = some (build anchor dirs) := by
    obtain ⟨b, bs, hbs⟩ := List.exists_cons_of_ne_nil (l := dirs ++ [name]) (by simp)
    rw [parent?, hsplit]
    dsimp only
    rw [htrim, hbs]
    dsimp only
    rw [← hbs, List.dropLast_concat, trim_of_isName hdirs]
  rw [compiled, withFileName, hfile, hparent]
  exact join_build hanchor hdirs (isName_compiledName hname)

/-- What stands in front of the last component of a path, and that component. -/
structure Ends (p : Path) (dir name : String) : Prop where
  text : p.text = dir ++ name
  dir : dir = "" ∨ dir.toList.getLast? = some '/'
  name : '/' ∉ name.toList

/-- Compiled files do not get in each other's way. The compiled files of two different paths in
plain form have different paths. None of them has the path of its source: it has the directory of its
source, and a name in which the mark comes in front of the extension or, if there is none, at the end. -/
theorem compiled_paths_distinct {a b : Path} (ha : a.Plain) (hb : b.Plain) :
    (a.compiled = b.compiled → a = b) ∧ a.compiled ≠ a ∧
      ∃ dir name, a.Ends dir name ∧
        (∀ stem ext, HasExtension name stem ext →
          a.compiled.Ends dir (stem ++ ".bridle." ++ ext)) ∧
        ((∀ stem ext, ¬HasExtension name stem ext) → a.compiled.Ends dir (name ++ ".bridle")) := by
  obtain ⟨anchor, dirs, name, hanchor, hdirs, hname, rfl⟩ := ha
  obtain ⟨anchor', dirs', name', hanchor', hdirs', hname', rfl⟩ := hb
  have hcompiled := compiled_build hanchor hdirs hname
  have hname₁ := isName_compiledName hname
  have hends : (build anchor (dirs ++ [name])).compiled.Ends (front anchor dirs) (compiledName name) := by
    rw [hcompiled]
    exact ⟨text_build hanchor, getLast?_front anchor dirs, hname₁.2.2.2⟩
  refine ⟨fun h => ?_, fun h => ?_, front anchor dirs, name, ?_, fun stem ext hext => ?_, fun hext => ?_⟩
  · rw [hcompiled, compiled_build hanchor' hdirs' hname'] at h
    have hsplit := split_build hanchor
      (List.forall_mem_append.mpr ⟨hdirs, List.forall_mem_singleton.mpr hname₁⟩) (by simp)
    rw [h, split_build hanchor' (List.forall_mem_append.mpr
      ⟨hdirs', List.forall_mem_singleton.mpr (isName_compiledName hname')⟩) (by simp)] at hsplit
    obtain ⟨rfl, hnames⟩ := Prod.mk.inj hsplit
    obtain ⟨rfl, hlast⟩ := List.append_inj' hnames rfl
    rw [compiledName_inj hname'.1 hname.1 (List.singleton_inj.mp hlast)]
  · have htext := congrArg Path.text h
    rw [hends.text, text_build hanchor, String.append_right_inj] at htext
    have hlength := length_compiledName name
    rw [htext] at hlength
    omega
  · exact ⟨text_build hanchor, getLast?_front anchor dirs, hname.2.2.2⟩
  · rw [← compiledName_of_hasExtension hext]
    exact hends
  · rw [← compiledName_of_not_hasExtension hext]
    exact hends

/-- A name with the mark of a compiled file is compiled like any other. -/
theorem compiled_paths_distinct_of_marked :
    (⟨"/lib/x.bridle"⟩ : Path).Plain ∧ (⟨"/lib/x"⟩ : Path).Plain ∧
      (⟨"/lib/x"⟩ : Path).compiled = ⟨"/lib/x.bridle"⟩ ∧
      (⟨"/lib/x.bridle"⟩ : Path).compiled = ⟨"/lib/x.bridle.bridle"⟩ ∧
      (⟨"/lib/x.bridle"⟩ : Path).compiled ≠ (⟨"/lib/x"⟩ : Path).compiled := by
  have hmarked : (⟨"/lib/x.bridle"⟩ : Path).Plain :=
    ⟨.root, ["lib"], "x.bridle", by decide, by simp [IsName], by simp [IsName], by decide +kernel⟩
  have hplain : (⟨"/lib/x"⟩ : Path).Plain :=
    ⟨.root, ["lib"], "x", by decide, by simp [IsName], by simp [IsName], by decide +kernel⟩
  refine ⟨hmarked, hplain, by decide +kernel, by decide +kernel, fun h => ?_⟩
  exact absurd ((compiled_paths_distinct hmarked hplain).1 h) (by decide)

end InstallScript.Path
