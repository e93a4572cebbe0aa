import InstallScript.Proofs.Bounds
import InstallScript.Proofs.Reading
import InstallScript.Proofs.Runs

/-!
Conditions by recursion. The compiler reads the terms of a condition in one loop, with the places of the
terms that are still open. `joinedTerms` reads them by recursion instead: a term that is joined to an open
one is read to its end, together with all that is joined to it, before the open one goes on. Both do the
same (`condition_eq_recursion`); the open terms are those whose calls have not returned.
-/

namespace InstallScript.Compile

/-! ## The recursion -/

/-- Reads on until the term is closed or the words end, with the terms that are joined to it so far and
`n` words ahead. -/
def finishTerm : Nat → Term → List Term → Compile (List Term)
  | 0, t, joined => do
    match (← tail).relation with
    | some r => fail (.missingOperand r.text)
    | none => return t :: joined
  | n + 1, t, joined => do
    match (← tail).relation with
    | some r =>
      if !(← hasNext) then fail (.missingOperand r.text)
      let right ← value (← nextWord)
      return t.compare r.text right :: joined
    | none =>
      if !(← hasNext) then return t :: joined
      let word ← nextWord
      match connective? word with
      | some o =>
        let u ← openTerm o
        let us ← finishTerm n u []
        finishTerm n t (joined ++ us)
      | none =>
        let x ← value word
        finishTerm n (t.addLeft x) joined

/-- A term that is open and all that is joined to it. -/
def finished (t : Term) (joined : List Term) : Compile (List Term) := do
  finishTerm (← wordsAhead) t joined

/-- A term that begins with `o` and all that is joined to it. -/
def joinedTerms (o : Opener) : Compile (List Term) := do
  finished (← openTerm o) []

theorem balanced_finishTerm (n : Nat) (t : Term) (joined : List Term) :
    Balanced (finishTerm n t joined) := by
  induction n generalizing t joined with
  | zero =>
    refine .bind balanced_tail fun m => ?_
    split
    · exact .fail _
    · exact .pure _
  | succ n ih =>
    refine .bind balanced_tail fun m => ?_
    split
    · refine .bind balanced_hasNext fun more => ?_
      dsimp only
      split
      · exact .fail_bind _
      exact .bind balanced_nextWord fun word => .bind (balanced_value word) fun x => .pure _
    · refine .bind balanced_hasNext fun more => ?_
      split
      · exact .pure _
      refine .bind balanced_nextWord fun word => ?_
      split
      · exact .bind (balanced_openTerm _) fun u => .bind (ih u []) fun us => ih t _
      · exact .bind (balanced_value word) fun x => ih _ joined

theorem balanced_finished (t : Term) (joined : List Term) : Balanced (finished t joined) :=
  .bind balanced_wordsAhead fun n => balanced_finishTerm n t joined

/-- The bound is of no account. -/
theorem same_finishTerm {d n m m' : Nat} (hm : n ≤ m) (hm' : n ≤ m') (t : Term) (joined : List Term) :
    Same d n (finishTerm m t joined) (finishTerm m' t joined) := by
  induction n generalizing m m' t joined with
  | zero =>
    have hnone : ∀ m, Same d 0 (finishTerm m t joined) (finishTerm 0 t joined) := by
      intro m
      cases m with
      | zero => exact .refl _
      | succ m =>
        intro w _ hn
        have hnext := exec_hasNext_none hn
        unfold finishTerm
        rw [exec_bind_ok (exec_tail w), exec_bind_ok (exec_tail w)]
        split
        · rw [exec_bind_ok hnext]
          exact exec_bind_error (exec_fail _ w)
        · rw [exec_bind_ok hnext]
          rfl
    exact (hnone m).trans (hnone m').symm
  | succ n ih =>
    obtain ⟨m, rfl⟩ := Nat.exists_eq_add_of_lt hm
    obtain ⟨m', rfl⟩ := Nat.exists_eq_add_of_lt hm'
    have hrest := fun t joined => ih (Nat.le_add_right n m) (Nat.le_add_right n m') t joined
    refine .after balanced_tail fun mark => ?_
    split
    · refine .after balanced_hasNext fun more => ?_
      dsimp only
      split
      · exact .fail_bind _
      · exact .nextWord fun word => .refl _
    · refine .after balanced_hasNext fun more => ?_
      split
      · exact .refl _
      refine .nextWord fun word => ?_
      split
      · refine .after (balanced_openTerm _) fun u => ?_
        exact .bind (hrest u []) (balanced_finishTerm _ _ _) fun us => hrest t _
      · exact .after (balanced_value word) fun x => hrest _ _

theorem finished_unrolled (t : Term) (joined : List Term) : finished t joined = (do
    match (← tail).relation with
    | some r =>
      if !(← hasNext) then fail (.missingOperand r.text)
      let right ← value (← nextWord)
      return t.compare r.text right :: joined
    | none =>
      if !(← hasNext) then return t :: joined
      let word ← nextWord
      match connective? word with
      | some o => finished t (joined ++ (← joinedTerms o))
      | none => finished (t.addLeft (← value word)) joined) := by
  have hloop : ∀ d t joined n m m', n ≤ m → n ≤ m' →
      Same d n (finishTerm m t joined) (finishTerm m' t joined) :=
    fun d t joined n m m' hm hm' => same_finishTerm hm hm' t joined
  funext w
  refine (same_wordsAhead (hloop _ t _) (Nat.le_succ _) w rfl (Nat.le_refl _)).trans ?_
  have hrest := fun t joined => (same_wordsAhead (hloop w.compiler.depth t joined)
    (Nat.le_refl w.cursor.ahead.length)).symm
  refine (Same.after (n := w.cursor.ahead.length + 1) balanced_tail fun mark => ?_) w rfl (Nat.le_succ _)
  cases mark.relation with
  | some r =>
    refine .after balanced_hasNext fun more => ?_
    dsimp only
    split
    · exact .fail_bind _
    · exact .nextWord fun word => .refl _
  | none =>
    refine .after balanced_hasNext fun more => ?_
    split
    · exact .refl _
    refine .nextWord fun word => ?_
    cases connective? word with
    | some o =>
      simp only [joinedTerms, bind_assoc]
      refine .after (balanced_openTerm o) fun u => ?_
      exact .bind (hrest u []) (balanced_finishTerm _ _ _) fun us => hrest t _
    | none => exact .after (balanced_value word) fun x => hrest _ _

/-! ## The loop -/

/-- Reads on with terms of which some are open. -/
def readOn (ts : List Term) (opened : List Nat) : Compile (List Term) := do
  moreTerms (← wordsAhead) ts opened

theorem modify_length (f : Term → Term) (pre : List Term) (t : Term) (joined : List Term) :
    (pre ++ t :: joined).modify pre.length f = pre ++ f t :: joined := by
  simp [List.modify_eq_take_drop]

/-- No term is open. -/
theorem readOn_closed (ts : List Term) : readOn ts [] = pure ts := by
  funext w
  refine (exec_bind_ok (exec_wordsAhead w)).trans ?_
  rw [moreTerms]
  rfl

/-- Where nothing lies ahead and no relation waits for its operand, all terms are finished. -/
theorem exec_readOn_nil {w : Work} (hrel : w.cursor.tail.relation = none) (ha : w.cursor.ahead = [])
    (ts : List Term) (opened : List Nat) : exec (readOn ts opened) w = (.ok ts, w) := by
  cases opened with
  | nil => rw [readOn_closed, exec_pure]
  | cons i outer =>
    unfold readOn
    rw [exec_bind_ok (exec_wordsAhead w), ha, List.length_nil, moreTerms, exec_bind_ok (exec_tail w), hrel,
      exec_pure]

/-- The loop finishes the innermost open term as recursion does, and then goes on with the others. -/
theorem same_readOn (d n : Nat) (pre : List Term) (t : Term) (joined : List Term) (outer : List Nat) :
    Same d n (readOn (pre ++ t :: joined) (pre.length :: outer))
      (finished t joined >>= fun us => readOn (pre ++ us) outer) := by
  -- the induction is on the words ahead; a connective needs it twice, for the term that it opens and for
  -- the one that is open before
  induction n using Nat.strongRecOn generalizing pre t joined outer with
  | ind n ih =>
    intro w hd hn
    rw [readOn, moreTerms_unrolled, finished_unrolled, bind_assoc, exec_bind_ok (exec_tail w),
      exec_bind_ok (exec_tail w)]
    cases hrel : w.cursor.tail.relation with
    | some r =>
      rw [bind_assoc, exec_bind_ok (exec_hasNext w), exec_bind_ok (exec_hasNext w)]
      cases w.cursor.hasNext <;>
        simp only [Bool.not_false, Bool.not_true, Bool.false_eq_true, if_true, if_false, bind_assoc,
          pure_bind, modify_length, readOn]
    | none =>
      rw [bind_assoc, exec_bind_ok (exec_hasNext w), exec_bind_ok (exec_hasNext w), Cursor.hasNext]
      cases ha : w.cursor.ahead with
      | nil =>
        simp only [List.isEmpty_nil, Bool.not_true, Bool.not_false, if_true, pure_bind]
        exact (exec_readOn_nil hrel ha _ _).symm
      | cons token rest =>
        obtain ⟨word, mark⟩ := token
        simp only [List.isEmpty_cons, Bool.not_false, Bool.not_true, Bool.false_eq_true, if_false,
          bind_assoc]
        rw [exec_bind_ok (exec_nextWord_cons ha), exec_bind_ok (exec_nextWord_cons ha)]
        have hlt : rest.length < n := by
          rw [ha] at hn
          exact hn
        refine (?_ : Same d rest.length _ _) _ hd (Nat.le_refl _)
        cases connective? word with
        | some o =>
          simp only [joinedTerms, bind_assoc]
          refine .after (balanced_openTerm o) fun u => ?_
          refine (ih _ hlt (pre ++ t :: joined) u [] (pre.length :: outer)).trans ?_
          refine .after (balanced_finished u []) fun us => ?_
          rw [List.append_assoc, List.cons_append]
          exact ih _ hlt pre t (joined ++ us) outer
        | none =>
          simp only [bind_assoc]
          refine .after (balanced_value word) fun x => ?_
          rw [modify_length]
          exact ih _ hlt pre (t.addLeft x) joined outer

theorem condition_eq_joinedTerms (o : Opener) : condition o = nested (joinedTerms o) := by
  funext w
  refine Same.nested (fun _ => ?_) w rfl (Nat.le_refl _)
  refine .after (balanced_openTerm o) fun t => (same_readOn _ _ [] t [] []).trans ?_
  simp only [List.nil_append, readOn_closed, bind_pure]
  exact .refl _

/-! ## Operands -/

theorem gives_openTerm_left {w : Work} (o : Opener) :
    Gives (openTerm o) w fun t _ => t.left ≠ [] := by
  unfold openTerm
  refine .whatever fun word _ => ?_
  split
  · exact .whatever fun _ _ => .whatever fun _ _ => .pure (List.cons_ne_nil _ _)
  · exact .whatever fun _ _ => .pure (List.cons_ne_nil _ _)

theorem gives_finishTerm_left {w : Work} (n : Nat) {t : Term} {joined : List Term}
    (h : ∀ u ∈ t :: joined, u.left ≠ []) :
    Gives (finishTerm n t joined) w fun ts _ => ∀ u ∈ ts, u.left ≠ [] := by
  induction n generalizing w t joined with
  | zero =>
    refine .whatever fun mark _ => ?_
    split
    · exact .fail
    · exact .pure h
  | succ n ih =>
    obtain ⟨ht, hjoined⟩ := List.forall_mem_cons.mp h
    refine .whatever fun mark _ => ?_
    split
    · refine .whatever fun more _ => ?_
      dsimp only
      split
      · exact .fail_bind
      · refine .whatever fun _ _ => .whatever fun _ _ => .pure ?_
        exact List.forall_mem_cons.mpr ⟨ht, hjoined⟩
    · refine .whatever fun more _ => ?_
      split
      · exact .pure h
      refine .whatever fun word _ => ?_
      split
      · refine .bind (gives_openTerm_left _) fun u _ hu => ?_
        refine .bind (ih (List.forall_mem_singleton.mpr hu)) fun us _ hus => ih ?_
        refine List.forall_mem_cons.mpr ⟨ht, fun v hv => ?_⟩
        exact (List.mem_append.mp hv).elim (hjoined v) (hus v)
      · refine .whatever fun x _ => ih (List.forall_mem_cons.mpr ⟨?_, hjoined⟩)
        exact List.append_ne_nil_of_right_ne_nil _ (List.cons_ne_nil _ _)

/-- Reading a condition in one loop with the places of the open terms is reading it by recursion: it gives
the same terms or the same fault, and leaves the same lines, notes and words and the same compiler. The
recursion needs no bound, nor does it go a level deeper for a term that is joined. Every term has an
operand on its left. -/
theorem condition_eq_recursion (o : Opener) :
    condition o = nested (joinedTerms o) ∧
    (joinedTerms o = do finished (← openTerm o) []) ∧
    (∀ t joined, finished t joined = (do
      match (← tail).relation with
      | some r =>
        if !(← hasNext) then fail (.missingOperand r.text)
        let right ← value (← nextWord)
        return t.compare r.text right :: joined
      | none =>
        if !(← hasNext) then return t :: joined
        let word ← nextWord
        match connective? word with
        | some o => finished t (joined ++ (← joinedTerms o))
        | none => finished (t.addLeft (← value word)) joined)) ∧
    ∀ w ts w', exec (condition o) w = (.ok ts, w') → ∀ t ∈ ts, t.left ≠ [] := by
  refine ⟨condition_eq_joinedTerms o, rfl, finished_unrolled, fun w => ?_⟩
  rw [condition_eq_joinedTerms]
  refine Gives.nested (.bind (gives_openTerm_left o) fun t w' ht => ?_)
  refine .whatever fun n _ => ?_
  exact (gives_finishTerm_left n (List.forall_mem_singleton.mpr ht)).mono fun _ _ h _ => h

/-- In `1 and 2 == 3 4` the second term is closed by its relation, so the last word belongs to the
first. -/
theorem condition_eq_recursion_reopened :
    let w : Work := ({} : Compiler).work
      [⟨⟨.integer, "1"⟩, {}⟩, ⟨⟨.name, "and"⟩, {}⟩, ⟨⟨.integer, "2"⟩, { relation := some .eq }⟩,
        ⟨⟨.integer, "3"⟩, {}⟩, ⟨⟨.integer, "4"⟩, {}⟩]
    let ts : List Term := [{ opener := .ifTrue, left := [.literal "1", .literal "4"] },
      { opener := .andIf, left := [.literal "2"], comparison := some ("==", .literal "3") }]
    (exec (nested (joinedTerms .ifTrue)) w).1.toOption = some ts ∧ ∀ t ∈ ts, t.left ≠ [] := by
  intro w ts
  obtain ⟨hloop, -, -, hleft⟩ := condition_eq_recursion .ifTrue
  have hts : (exec (condition .ifTrue) w).1.toOption = some ts := by decide +kernel
  refine ⟨hloop ▸ hts, ?_⟩
  cases he : exec (condition .ifTrue) w with
  | mk r w' =>
    rw [he] at hts
    cases r with
    | error f => cases hts
    | ok us =>
      cases hts
      exact hleft w ts w' he

end InstallScript.Compile
