import InstallScript.Proofs.Balance

/-!
The bounds on loops and on recursion are of no account. A loop over the words is bounded by their
number, and each round reads one; what calls itself is bounded by the greatest depth of nesting, and goes
one level deeper each time. So a part of the compiler does the same under all bounds that are large enough
(`same_chain`, `same_argumentList`, `same_moreTerms`, `same_moreConditions`,
`same_expression_and_arguments`), and satisfies the equation that it would satisfy without any
(`expression_levels_succ`, `arguments_levels_succ`).
-/

namespace InstallScript.Compile

/-- What is nested may be replaced by what does the same one level deeper. -/
theorem exec_nested_congr {act act' : Compile α} {w : Work}
    (h : w.compiler.depth < maxNesting → exec act (w.atDepth (w.compiler.depth + 1)) =
      exec act' (w.atDepth (w.compiler.depth + 1))) : exec (nested act) w = exec (nested act') w := by
  by_cases hd : w.compiler.depth < maxNesting
  · rw [exec_nested act hd, exec_nested act' hd, h hd]
  · rw [exec_nested_of_le act (Nat.le_of_not_lt hd), exec_nested_of_le act' (Nat.le_of_not_lt hd)]

/-- At the depth `d`, and with `n` words ahead at most, both actions do the same. -/
def Same (d n : Nat) (act act' : Compile α) : Prop :=
  ∀ w : Work, w.compiler.depth = d → w.cursor.ahead.length ≤ n → exec act w = exec act' w

namespace Same

variable {d n : Nat} {act act' : Compile α} {k k' : α → Compile β}

protected theorem refl (act : Compile α) : Same d n act act := fun _ _ _ => rfl

theorem symm (h : Same d n act act') : Same d n act' act := fun w hd hn => (h w hd hn).symm

theorem trans {act'' : Compile α} (h : Same d n act act') (h' : Same d n act' act'') :
    Same d n act act'' :=
  fun w hd hn => (h w hd hn).trans (h' w hd hn)

/-- What comes behind an action that is balanced has the same bounds. -/
protected theorem bind (h : Same d n act act') (hb : Balanced act)
    (hk : ∀ a, Same d n (k a) (k' a)) : Same d n (act >>= k) (act' >>= k') := by
  intro w hd hn
  obtain ⟨hdepth, hwords⟩ := hb w
  rw [exec_bind, exec_bind, ← h w hd hn]
  match hact : exec act w with
  | (.ok a, w') =>
    rw [hact] at hdepth hwords
    exact hk a w' (hdepth.trans hd) (Nat.le_trans hwords hn)
  | (.error f, w') => rfl

theorem after (hb : Balanced act) (hk : ∀ a, Same d n (k a) (k' a)) :
    Same d n (act >>= k) (act >>= k') :=
  .bind (.refl act) hb hk

theorem fail_bind (f : Fault) : Same d n (Compile.fail f >>= k) (Compile.fail f >>= k') :=
  fun w _ _ => (exec_bind_error (exec_fail f w)).trans (exec_bind_error (exec_fail f w)).symm

/-- Where a word is read, one word less lies ahead. -/
theorem nextWord {k k' : Word → Compile β} (hk : ∀ word, Same d n (k word) (k' word)) :
    Same d (n + 1) (Compile.nextWord >>= k) (Compile.nextWord >>= k') := by
  intro w hd hn
  match ha : w.cursor.ahead with
  | [] =>
    have hnext := exec_nextWord_nil ha
    rw [exec_bind_error hnext, exec_bind_error hnext]
  | t :: ts =>
    have hnext := exec_nextWord_cons ha
    rw [exec_bind_ok hnext, exec_bind_ok hnext]
    rw [ha, List.length_cons] at hn
    exact hk t.word _ hd (Nat.le_of_succ_le_succ hn)

/-- Where nothing lies ahead, asking for a word is a fault. -/
theorem nextWord_none {k : Word → Compile β} :
    Same d 0 (Compile.nextWord >>= k) (fail .endOfStatement) := by
  intro w _ hn
  have hnext := exec_nextWord_nil (List.eq_nil_of_length_eq_zero (Nat.le_zero.mp hn))
  rw [exec_bind_error hnext, exec_fail]

theorem nested (h : d < maxNesting → Same (d + 1) n act act') :
    Same d n (nested act) (nested act') := by
  rintro w rfl hn
  exact exec_nested_congr fun hd => h hd _ rfl hn

/-- At the greatest depth nothing can be nested. -/
theorem nested_of_le (hd : maxNesting ≤ d) : Same d n (Compile.nested act) (fail .nesting) := by
  rintro w rfl _
  rw [exec_nested_of_le act hd, exec_fail]

end Same

theorem exec_hasNext_none {w : Work} (hn : w.cursor.ahead.length ≤ 0) :
    exec hasNext w = (.ok false, w) := by
  rw [exec_hasNext, Cursor.hasNext, List.eq_nil_of_length_eq_zero (Nat.le_zero.mp hn)]
  rfl

/-- A loop for which all bounds are the same from the number of words on may be given that number. -/
theorem same_wordsAhead {d n : Nat} {loop : Nat → Compile α}
    (hloop : ∀ n m m', n ≤ m → n ≤ m' → Same d n (loop m) (loop m')) {m : Nat} (hm : n ≤ m) :
    Same d n (wordsAhead >>= loop) (loop m) := by
  intro w hd hn
  rw [exec_bind_ok (exec_wordsAhead w)]
  exact hloop _ _ _ (Nat.le_refl _) (Nat.le_trans hn hm) w hd (Nat.le_refl _)

/-! ## Values -/

section Parts

variable {d n : Nat} {expression expression' call call' : Word → Compile Operand}
  {arguments arguments' : Callee → Option Variable → Compile (List Operand)}

theorem same_chain (hcall : ∀ n word, Same d n (call word) (call' word))
    (hb : ∀ word, Balanced (call word)) {m m' : Nat} (hm : n ≤ m) (hm' : n ≤ m') (left : Operand) :
    Same d n (chain call m left) (chain call' m' left) := by
  induction n generalizing m m' left with
  | zero =>
    have hnone : ∀ (call : Word → Compile Operand) (m : Nat), Same d 0 (chain call m left)
        (tail >>= fun t => if !continues t then pure left else fail .endOfStatement) := by
      intro call m
      cases m with
      | zero => exact .refl _
      | succ m =>
        refine .after balanced_tail fun t => ?_
        split
        · exact .refl _
        · exact .nextWord_none
    exact (hnone call m).trans (hnone call' m').symm
  | succ n ih =>
    obtain ⟨m, rfl⟩ := Nat.exists_eq_add_of_lt hm
    obtain ⟨m', rfl⟩ := Nat.exists_eq_add_of_lt hm'
    refine .after balanced_tail fun t => ?_
    split
    · exact .refl _
    refine .nextWord fun word => .after balanced_tail fun t => ?_
    have hrest := fun left => ih (Nat.le_add_right n m) (Nat.le_add_right n m') left
    dsimp only
    split
    · exact .bind (hcall n word) (hb word) fun right => hrest _
    · exact .after (balanced_resolve word) fun right => hrest _

theorem same_concatenation (hcall : ∀ n word, Same d n (call word) (call' word))
    (hb : ∀ word, Balanced (call word)) (left : Operand) :
    Same d n (concatenation call left) (concatenation call' left) := by
  intro w hd _
  unfold concatenation
  rw [exec_bind_ok (exec_wordsAhead w), exec_bind_ok (exec_wordsAhead w)]
  exact same_chain hcall hb (Nat.le_refl _) (Nat.le_refl _) left w hd (Nat.le_refl _)

theorem same_argumentList (hexpr : ∀ n word, Same d n (expression word) (expression' word))
    (hb : ∀ word, Balanced (expression word)) {m m' : Nat} (hm : n ≤ m) (hm' : n ≤ m') :
    Same d n (argumentList expression m) (argumentList expression' m') := by
  induction n generalizing m m' with
  | zero =>
    have hnone : ∀ (expression : Word → Compile Operand) (m : Nat),
        Same d 0 (argumentList expression m) (fail .endOfStatement) := by
      intro expression m
      cases m with
      | zero => exact .refl _
      | succ m => exact .nextWord_none
    exact (hnone _ m).trans (hnone _ m').symm
  | succ n ih =>
    obtain ⟨m, rfl⟩ := Nat.exists_eq_add_of_lt hm
    obtain ⟨m', rfl⟩ := Nat.exists_eq_add_of_lt hm'
    have hrest := ih (Nat.le_add_right n m) (Nat.le_add_right n m')
    refine .nextWord fun word => .after balanced_tail fun t => ?_
    have hmore : ∀ x : Operand, Same d n
        (tail >>= fun t => if (t.separates && !t.isClosing) = true then
          argumentList expression (n + m) >>= fun xs => pure (x :: xs) else pure [x])
        (tail >>= fun t => if (t.separates && !t.isClosing) = true then
          argumentList expression' (n + m') >>= fun xs => pure (x :: xs) else pure [x]) := by
      intro x
      refine .after balanced_tail fun t => ?_
      split
      · exact .bind hrest (balanced_argumentList hb _) fun _ => .refl _
      · exact .refl _
    dsimp only
    split
    · exact .bind (hexpr n word) (hb word) hmore
    · exact .after (balanced_resolve word) hmore

theorem same_argumentsWith (hexpr : ∀ n word, Same d n (expression word) (expression' word))
    (hb : ∀ word, Balanced (expression word)) (c : Callee) (result : Option Variable) :
    Same d n (argumentsWith expression c result) (argumentsWith expression' c result) := by
  have hread : Same d n (wordsAhead >>= fun m => argumentList expression m >>= closeArguments c)
      (wordsAhead >>= fun m => argumentList expression' m >>= closeArguments c) := by
    intro w hd _
    rw [exec_bind_ok (exec_wordsAhead w), exec_bind_ok (exec_wordsAhead w)]
    refine Same.bind ?_ (balanced_argumentList hb _) (fun _ => .refl _) w hd (Nat.le_refl _)
    exact same_argumentList hexpr hb (Nat.le_refl _) (Nat.le_refl _)
  rw [argumentsWith_eq, argumentsWith_eq]
  dsimp only
  split
  · exact .fail_bind _
  · refine .after balanced_tail fun t => ?_
    split
    · exact .refl _
    · exact hread

theorem same_heldCall (hb : ∀ c result, Balanced (arguments c result))
    (hargs : d < maxNesting → ∀ n c result, Same (d + 1) n (arguments c result) (arguments' c result))
    (word : Word) : Same d n (heldCall arguments word) (heldCall arguments' word) := by
  refine .after balanced_declareTemporary fun v => .after (balanced_note _) fun _ => ?_
  refine .bind ?_ (balanced_callWith hb word (some v)) fun _ => .refl _
  refine .after (balanced_introduce word) fun c => .after (balanced_noteCall word c _) fun _ => ?_
  exact .bind (.nested fun hd => hargs hd n c _) (.nested (hb c _)) fun _ => .refl _

theorem concatenation_unrolled (hb : ∀ word, Balanced (call word)) (left : Operand) :
    concatenation call left = tail >>= fun t =>
      if !continues t then pure left
      else nextWord >>= fun word => tail >>= fun t =>
        (if t.opens then call word else resolve word) >>= fun right =>
          concatenation call (left.join right) := by
  have hloop : ∀ d left n m m', n ≤ m → n ≤ m' → Same d n (chain call m left) (chain call m' left) :=
    fun d left n m m' hm hm' => same_chain (fun _ _ => .refl _) hb hm hm' left
  funext w
  refine (same_wordsAhead (hloop _ left) (Nat.le_succ _) w rfl (Nat.le_refl _)).trans ?_
  refine (Same.after (n := w.cursor.ahead.length + 1) balanced_tail fun t => ?_) w rfl (Nat.le_succ _)
  split
  · exact .refl _
  refine .nextWord fun word => .after balanced_tail fun t => ?_
  have hrest := fun right => (same_wordsAhead (hloop w.compiler.depth (left.join right))
    (Nat.le_refl w.cursor.ahead.length)).symm
  dsimp only
  split
  · exact .after (hb word) hrest
  · exact .after (balanced_resolve word) hrest

theorem argumentList_unrolled (hb : ∀ word, Balanced (expression word)) :
    wordsAhead >>= argumentList expression = nextWord >>= fun word => tail >>= fun t =>
      (if t.opens || (t.joins && !t.isClosing) then expression word else resolve word) >>= fun x =>
        tail >>= fun t =>
          if t.separates && !t.isClosing then
            (wordsAhead >>= argumentList expression) >>= fun xs => pure (x :: xs)
          else pure [x] := by
  have hloop : ∀ d n m m', n ≤ m → n ≤ m' →
      Same d n (argumentList expression m) (argumentList expression m') :=
    fun d n m m' hm hm' => same_argumentList (fun _ _ => .refl _) hb hm hm'
  funext w
  refine (same_wordsAhead (hloop _) (Nat.le_succ _) w rfl (Nat.le_refl _)).trans ?_
  refine (Same.nextWord (n := w.cursor.ahead.length) fun word => ?_) w rfl (Nat.le_succ _)
  refine .after balanced_tail fun t => ?_
  have hmore : ∀ x : Operand, Same w.compiler.depth w.cursor.ahead.length
      (tail >>= fun t => if (t.separates && !t.isClosing) = true then
        argumentList expression w.cursor.ahead.length >>= fun xs => pure (x :: xs) else pure [x])
      (tail >>= fun t => if (t.separates && !t.isClosing) = true then
        (wordsAhead >>= argumentList expression) >>= fun xs => pure (x :: xs) else pure [x]) := by
    intro x
    refine .after balanced_tail fun t => ?_
    split
    · refine .bind ?_ (balanced_argumentList hb _) fun _ => .refl _
      exact (same_wordsAhead (hloop _) (Nat.le_refl _)).symm
    · exact .refl _
  dsimp only
  split
  · exact .after (hb word) hmore
  · exact .after (balanced_resolve word) hmore

end Parts

/-- An expression takes one level and its calls another, so a bound on the recursion that reaches down to
the greatest depth is as good as any other. -/
theorem same_expression_and_arguments (n : Nat) : ∀ m d,
    (maxNesting ≤ n + d → maxNesting ≤ m + d →
      ∀ k word, Same d k (expression n word) (expression m word)) ∧
    (0 < n → 0 < m → maxNesting < n + d → maxNesting < m + d →
      ∀ k c result, Same d k (arguments n c result) (arguments m c result)) := by
  induction n with
  | zero =>
    refine fun m d => ⟨fun hn _ k word => ?_, fun h => absurd h (Nat.lt_irrefl 0)⟩
    cases m with
    | zero => exact .refl _
    | succ m => exact (Same.nested_of_le (by omega)).symm
  | succ n ih =>
    refine fun m d => ⟨fun hn hm k word => ?_, fun _ hm₀ hn hm k c result => ?_⟩
    · cases m with
      | zero => exact Same.nested_of_le (by omega)
      | succ m =>
        refine .nested fun hd => .after balanced_tail fun t => ?_
        have hbalanced := (balanced_expression_and_arguments n).2
        have hcall : ∀ k word, Same (d + 1) k (heldCall (arguments n) word)
            (heldCall (arguments m) word) := fun k word =>
          same_heldCall hbalanced (fun hd' k c result =>
            (ih m (d + 1 + 1)).2 (by omega) (by omega) (by omega) (by omega) k c result) word
        have hchain := fun left => same_concatenation (n := k) hcall (balanced_heldCall hbalanced) left
        split
        · exact .bind (hcall k word) (balanced_heldCall hbalanced word) hchain
        split
        · exact .after (balanced_resolve word) hchain
        · exact .refl _
    · obtain ⟨m, rfl⟩ : ∃ m', m = m' + 1 := ⟨m - 1, by omega⟩
      refine same_argumentsWith (fun k word => ?_) (balanced_expression_and_arguments n).1 c result
      exact (ih m d).1 (by omega) (by omega) k word

/-- One more level makes no difference to a value. -/
theorem expression_levels_succ (word : Word) : expression levels word = expression (levels + 1) word := by
  funext w
  refine ((same_expression_and_arguments levels (levels + 1) w.compiler.depth).1 ?_ ?_ _ word) w rfl
    (Nat.le_refl _) <;> unfold levels <;> omega

theorem arguments_levels_succ (c : Callee) (result : Option Variable) :
    arguments levels c result = arguments (levels + 1) c result := by
  funext w
  refine ((same_expression_and_arguments levels (levels + 1) w.compiler.depth).2 ?_ ?_ ?_ ?_ _ c
    result) w rfl (Nat.le_refl _) <;> unfold levels <;> omega

/-! ## Conditions -/

theorem same_moreTerms {d n m m' : Nat} (hm : n ≤ m) (hm' : n ≤ m') (ts : List Term)
    (opened : List Nat) : Same d n (moreTerms m ts opened) (moreTerms m' ts opened) := by
  induction n generalizing m m' ts opened with
  | zero =>
    cases opened with
    | nil =>
      rw [moreTerms, moreTerms]
      exact .refl _
    | cons i outer =>
      have hnone : ∀ m, Same d 0 (moreTerms m ts (i :: outer)) (moreTerms 0 ts (i :: outer)) := by
        intro m
        cases m with
        | zero => exact .refl _
        | succ m =>
          intro w _ hn
          have hnext := exec_hasNext_none hn
          unfold moreTerms
          rw [exec_bind_ok (exec_tail w), exec_bind_ok (exec_tail w)]
          split
          · rw [exec_bind_ok hnext]
            exact exec_bind_error (exec_fail _ w)
          · rw [exec_bind_ok hnext]
            rfl
      exact (hnone m).trans (hnone m').symm
  | succ n ih =>
    obtain ⟨m, rfl⟩ := Nat.exists_eq_add_of_lt hm
    obtain ⟨m', rfl⟩ := Nat.exists_eq_add_of_lt hm'
    have hrest := fun ts opened => ih (Nat.le_add_right n m) (Nat.le_add_right n m') ts opened
    cases opened with
    | nil =>
      rw [moreTerms, moreTerms]
      exact .refl _
    | cons i outer =>
      refine .after balanced_tail fun t => ?_
      split
      · refine .after balanced_hasNext fun b => ?_
        dsimp only
        split
        · exact .fail_bind _
        · exact .nextWord fun word => .after (balanced_value word) fun x => hrest _ _
      · refine .after balanced_hasNext fun b => ?_
        split
        · exact .refl _
        refine .nextWord fun word => ?_
        split
        · exact .after (balanced_openTerm _) fun t => hrest _ _
        · exact .after (balanced_value word) fun x => hrest _ _

theorem moreTerms_unrolled (ts : List Term) (i : Nat) (outer : List Nat) :
    (wordsAhead >>= fun n => moreTerms n ts (i :: outer)) = tail >>= fun t =>
      match t.relation with
      | some r => hasNext >>= fun more =>
        let rest := nextWord >>= fun word => value word >>= fun right =>
          wordsAhead >>= fun n => moreTerms n (ts.modify i (·.compare r.text right)) outer
        if !more then fail (.missingOperand r.text) >>= fun (_ : PUnit) => rest else rest
      | none => hasNext >>= fun more =>
        if !more then pure ts
        else nextWord >>= fun word =>
          match connective? word with
          | some o => openTerm o >>= fun t =>
            wordsAhead >>= fun n => moreTerms n (ts ++ [t]) (ts.length :: i :: outer)
          | none => value word >>= fun x =>
            wordsAhead >>= fun n => moreTerms n (ts.modify i (·.addLeft x)) (i :: outer) := by
  have hloop : ∀ d ts opened n m m', n ≤ m → n ≤ m' →
      Same d n (moreTerms m ts opened) (moreTerms m' ts opened) :=
    fun d ts opened n m m' hm hm' => same_moreTerms hm hm' ts opened
  funext w
  refine (same_wordsAhead (hloop _ ts _) (Nat.le_succ _) w rfl (Nat.le_refl _)).trans ?_
  have hrest := fun ts opened => (same_wordsAhead (hloop w.compiler.depth ts opened)
    (Nat.le_refl w.cursor.ahead.length)).symm
  refine (Same.after (n := w.cursor.ahead.length + 1) balanced_tail fun t => ?_) w rfl (Nat.le_succ _)
  cases t.relation with
  | some r =>
    refine .after balanced_hasNext fun more => ?_
    dsimp only
    split
    · exact .fail_bind _
    · exact .nextWord fun word => .after (balanced_value word) fun x => hrest _ _
  | none =>
    refine .after balanced_hasNext fun more => ?_
    split
    · exact .refl _
    refine .nextWord fun word => ?_
    cases connective? word with
    | some o => exact .after (balanced_openTerm o) fun t => hrest _ _
    | none => exact .after (balanced_value word) fun x => hrest _ _

theorem same_moreConditions {d n m m' : Nat} (hm : n ≤ m) (hm' : n ≤ m') :
    Same d n (moreConditions m) (moreConditions m') := by
  induction n generalizing m m' with
  | zero =>
    have hnone : ∀ m, Same d 0 (moreConditions m) (pure []) := by
      intro m
      cases m with
      | zero => exact .refl _
      | succ m =>
        intro w _ hn
        exact exec_bind_ok (exec_hasNext_none hn)
    exact (hnone m).trans (hnone m').symm
  | succ n ih =>
    obtain ⟨m, rfl⟩ := Nat.exists_eq_add_of_lt hm
    obtain ⟨m', rfl⟩ := Nat.exists_eq_add_of_lt hm'
    refine .after balanced_hasNext fun b => ?_
    split
    · exact .refl _
    refine .nextWord fun word => ?_
    split
    · refine .after (balanced_condition _) fun ts => .bind ?_ (balanced_moreConditions _) fun _ => .refl _
      exact ih (Nat.le_add_right n m) (Nat.le_add_right n m')
    · exact .refl _

theorem moreConditions_unrolled : wordsAhead >>= moreConditions = hasNext >>= fun more =>
    if !more then pure []
    else nextWord >>= fun word =>
      match (Opener.ofName? word.name).filter (·.isConnective) with
      | some o => condition o >>= fun ts =>
        (wordsAhead >>= moreConditions) >>= fun us => pure (ts ++ us)
      | none => fail (.connective word.text) := by
  have hloop : ∀ d n m m', n ≤ m → n ≤ m' → Same d n (moreConditions m) (moreConditions m') :=
    fun d n m m' hm hm' => same_moreConditions hm hm'
  funext w
  refine (same_wordsAhead (hloop _) (Nat.le_succ _) w rfl (Nat.le_refl _)).trans ?_
  refine (Same.after (n := w.cursor.ahead.length + 1) balanced_hasNext fun more => ?_) w rfl
    (Nat.le_succ _)
  split
  · exact .refl _
  refine .nextWord fun word => ?_
  cases (Opener.ofName? word.name).filter (·.isConnective) with
  | some o =>
    refine .after (balanced_condition o) fun ts => .bind ?_ (balanced_moreConditions _) fun _ => .refl _
    exact (same_wordsAhead (hloop _) (Nat.le_refl _)).symm
  | none => exact .refl _

end InstallScript.Compile
