import InstallScript.Source

/-!
Lines and statements. A source whose last statement is finished can be followed by other lines without
any effect on its statements (`statementsFrom_append`), and so can every statement of it taken for
itself: `blocks` has the statements with the lines they are put together from.
-/

namespace InstallScript

/-! ## Lines -/

namespace Text

/-- The text with the given lines. -/
def unlines (ls : List String) : String := String.join (ls.map (· ++ newline))

theorem unlines_append (ls ms : List String) : unlines (ls ++ ms) = unlines ls ++ unlines ms := by
  rw [unlines, List.map_append, String.join_append]
  rfl

theorem newline_not_mem_splitLines (cs : List Char) : ∀ l ∈ splitLines cs, '\n' ∉ l := by
  fun_induction splitLines cs with
  | case1 => simp
  | case2 cs ih => simpa using ih
  | case3 cs ih => simpa using ih
  | case4 c cs _ hc _ _ =>
    intro l hl
    rw [List.mem_singleton.mp hl, List.mem_singleton]
    exact fun h => hc h.symm
  | case5 c cs _ hc l ls hs ih =>
    rw [hs] at ih
    intro m hm
    rcases List.mem_cons.mp hm with rfl | hm
    · rw [List.mem_cons, not_or]
      exact ⟨fun h => hc h.symm, ih l List.mem_cons_self⟩
    · exact ih m (List.mem_cons_of_mem _ hm)

theorem newline_not_mem_lines (s : String) : ∀ l ∈ lines s, '\n' ∉ l.toList := by
  intro l hl
  obtain ⟨cs, hcs, rfl⟩ := List.mem_map.mp hl
  rw [String.toList_ofList]
  exact newline_not_mem_splitLines _ cs hcs

/-- A text without line ends is one line. -/
theorem splitLines_of_not_mem {cs : List Char} (hn : '\n' ∉ cs) (hne : cs ≠ []) :
    splitLines cs = [cs] := by
  fun_induction splitLines cs with
  | case1 => exact absurd rfl hne
  | case2 cs ih => simp at hn
  | case3 cs ih => simp at hn
  | case4 c cs _ _ hs ih =>
    cases cs with
    | nil => rfl
    | cons d cs => rw [ih (fun h => hn (List.mem_cons_of_mem _ h)) (List.cons_ne_nil _ _)] at hs; cases hs
  | case5 c cs _ _ l ls hs ih =>
    cases cs with
    | nil => cases hs
    | cons d cs =>
      rw [ih (fun h => hn (List.mem_cons_of_mem _ h)) (List.cons_ne_nil _ _)] at hs
      cases hs
      rfl

theorem splitLines_line {l : List Char} (h : '\n' ∉ l) (cs : List Char) :
    splitLines (l ++ '\r' :: '\n' :: cs) = l :: splitLines cs := by
  induction l with
  | nil => rfl
  | cons c l ih =>
    rw [List.mem_cons, not_or] at h
    have hnext : ∀ rest, l ++ '\r' :: '\n' :: cs ≠ '\n' :: rest := by
      intro rest he
      cases l with
      | nil => cases he
      | cons d l =>
        cases he
        exact h.2 List.mem_cons_self
    rw [List.cons_append, splitLines.eq_4, ih h.2]
    · exact fun rest _ he => hnext rest he
    · exact fun hc => h.1 hc.symm

theorem lines_unlines {ls : List String} (h : ∀ l ∈ ls, '\n' ∉ l.toList) : lines (unlines ls) = ls := by
  induction ls with
  | nil => rfl
  | cons l ls ih =>
    have htext : (unlines (l :: ls)).toList = l.toList ++ '\r' :: '\n' :: (unlines ls).toList := by
      simp [unlines, newline, String.join_cons]
    rw [lines, htext, splitLines_line (h l List.mem_cons_self), List.map_cons, String.ofList_toList]
    exact congrArg (l :: ·) (ih fun m hm => h m (List.mem_cons_of_mem _ hm))

end Text

/-! ## Statements one behind the other -/

/-- A comment does not end with a character in front, unless it is a star with a slash behind it. -/
theorem Draft.closesComment_cons {c : Char} {cs : List Char} (h : ∀ ds, c = '*' → cs = '/' :: ds → False) :
    closesComment (c :: cs) = closesComment cs := by
  rw [closesComment]
  exact h

/-- The draft that a line begins or goes on with. -/
def Draft.next (pending : Option Draft) (l : String) : Draft :=
  match pending with
  | none => .start l
  | some d => d.extend l

/-- What is left open of a draft. -/
def Draft.left? (d : Draft) : Option Draft := if d.isOpen then some d else none

/-- The draft that is open behind some lines. -/
def pendingAfter (pending : Option Draft) : List String → Option Draft
  | [] => pending
  | l :: ls => pendingAfter (Draft.next pending l).left? ls

/-- The last statement is finished: no continuation is pending and no block comment is open. -/
def endsClosed (ls : List String) : Bool := (pendingAfter none ls).isNone

/-- The statement without its place. -/
def Statement.unnumbered (s : Statement) : Statement := { s with line := 0 }

variable {pending : Option Draft} {ls ms : List String} {n m : Nat}

theorem statementsFrom_cons (l : String) : statementsFrom n pending (l :: ls) =
    (if (Draft.next pending l).isOpen then [] else [(Draft.next pending l).finish (n + 1)]) ++
      statementsFrom (n + 1) (Draft.next pending l).left? ls := by
  rw [Draft.left?]
  by_cases h : (Draft.next pending l).isOpen = true
  · rw [if_pos h, if_pos h]
    cases pending <;> exact if_pos h
  · rw [if_neg h, if_neg h]
    cases pending <;> exact if_neg h

theorem statementsFrom_append (h : pendingAfter pending ls = none) :
    statementsFrom n pending (ls ++ ms) =
      statementsFrom n pending ls ++ statementsFrom (n + ls.length) none ms := by
  induction ls generalizing n pending with
  | nil =>
    cases h
    rfl
  | cons l ls ih =>
    rw [List.cons_append, statementsFrom_cons, statementsFrom_cons, ih h, List.append_assoc,
      List.length_cons, Nat.add_right_comm, Nat.add_assoc]

theorem pendingAfter_append : pendingAfter pending (ls ++ ms) =
    pendingAfter (pendingAfter pending ls) ms := by
  induction ls generalizing pending with
  | nil => rfl
  | cons l ls ih => exact ih

theorem endsClosed_append (h : endsClosed ls) (h' : endsClosed ms) : endsClosed (ls ++ ms) := by
  rw [endsClosed, pendingAfter_append, Option.isNone_iff_eq_none.mp h]
  exact h'

/-- Where a statement stands makes no difference to the statement. -/
theorem unnumbered_statementsFrom (n m : Nat) (pending : Option Draft) (ls : List String) :
    (statementsFrom n pending ls).map Statement.unnumbered =
      (statementsFrom m pending ls).map Statement.unnumbered := by
  induction ls generalizing n m pending with
  | nil => cases pending <;> rfl
  | cons l ls ih =>
    rw [statementsFrom_cons, statementsFrom_cons, List.map_append, List.map_append,
      ih (n + 1) (m + 1)]
    split <;> rfl

/-- The last statement ends with the last line. -/
theorem getLast?_statementsFrom (h : pending.isSome ∨ ls ≠ []) :
    (statementsFrom n pending ls).getLast?.map (·.line) = some (n + ls.length) := by
  induction ls generalizing n pending with
  | nil =>
    cases pending with
    | none => simp at h
    | some d => rfl
  | cons l ls ih =>
    rw [statementsFrom_cons, Draft.left?, List.length_cons, Nat.add_comm ls.length, ← Nat.add_assoc]
    split
    · exact ih (.inl rfl)
    · cases ls with
      | nil => rfl
      | cons l' ls =>
        have hlast : (statementsFrom (n + 1) none (l' :: ls)).getLast?.map (·.line) = _ :=
          ih (.inr (List.cons_ne_nil l' ls))
        obtain ⟨s, hs, hline⟩ := Option.map_eq_some_iff.mp hlast
        rw [List.getLast?_append, hs, Option.some_or, Option.map_some, hline]

/-- All lines of a source are read. -/
theorem linesRead_statements (source : String) :
    linesRead (statements source) = (Text.lines source).length := by
  rw [linesRead, statements]
  cases hls : Text.lines source with
  | nil => rfl
  | cons l ls =>
    rw [getLast?_statementsFrom (.inr (List.cons_ne_nil l ls)), Nat.zero_add]
    rfl

/-! ## Blocks -/

/-- A statement with the lines it is put together from. -/
structure Block where
  lines : List String
  statement : Statement

/-- The blocks of the lines that follow line `n`, with the lines seen of an open draft. -/
def blocksFrom (n : Nat) (pending : Option Draft) (seen : List String) : List String → List Block
  | [] => (pending.map fun d => ⟨seen, d.finish n⟩).toList
  | l :: ls =>
    if (Draft.next pending l).isOpen then
      blocksFrom (n + 1) (some (Draft.next pending l)) (seen ++ [l]) ls
    else ⟨seen ++ [l], (Draft.next pending l).finish (n + 1)⟩ :: blocksFrom (n + 1) none [] ls

/-- The statements of a source with their lines. -/
def blocks (source : String) : List Block := blocksFrom 0 none [] (Text.lines source)

theorem statement_blocksFrom (n : Nat) (pending : Option Draft) (seen ls : List String) :
    (blocksFrom n pending seen ls).map (·.statement) = statementsFrom n pending ls := by
  induction ls generalizing n pending seen with
  | nil => cases pending <;> rfl
  | cons l ls ih =>
    rw [statementsFrom_cons, blocksFrom, Draft.left?]
    split
    · exact ih _ _ _
    · rw [List.map_cons, ih]
      rfl

theorem lines_blocksFrom (n : Nat) (seen ls : List String) (h : pending = none → seen = []) :
    (blocksFrom n pending seen ls).flatMap (·.lines) = seen ++ ls := by
  induction ls generalizing n pending seen with
  | nil =>
    cases pending with
    | none =>
      rw [h rfl]
      rfl
    | some d => simp [blocksFrom]
  | cons l ls ih =>
    rw [blocksFrom]
    split
    · rw [ih _ _ (by simp), List.append_assoc]
      rfl
    · rw [List.flatMap_cons, ih _ _ fun _ => rfl, List.append_assoc]
      rfl

theorem statement_blocks (source : String) :
    (blocks source).map (·.statement) = statements source := statement_blocksFrom _ _ _ _

theorem lines_blocks (source : String) : (blocks source).flatMap (·.lines) = Text.lines source :=
  lines_blocksFrom _ _ _ fun _ => rfl

/-- The lines of the block make up its statement and nothing else. -/
structure Block.Whole (b : Block) : Prop where
  closed : endsClosed b.lines
  alone : ∀ n, (statementsFrom n none b.lines).map Statement.unnumbered = [b.statement.unnumbered]

theorem whole_blocksFrom {seen : List String}
    (hseen : ∀ m ls, statementsFrom m none (seen ++ ls) = statementsFrom (m + seen.length) pending ls)
    (hpending : pendingAfter none seen = pending) (hend : pendingAfter pending ls = none) :
    ∀ b ∈ blocksFrom n pending seen ls, b.Whole := by
  induction ls generalizing n pending seen with
  | nil =>
    cases hend
    simp [blocksFrom]
  | cons l ls ih =>
    have hline : ∀ m ls, statementsFrom m none (seen ++ [l] ++ ls) =
        statementsFrom (m + seen.length) pending (l :: ls) := fun m ls => by
      rw [List.append_assoc, hseen]
      rfl
    have hafter : pendingAfter none (seen ++ [l]) = (Draft.next pending l).left? := by
      rw [pendingAfter_append, hpending]
      rfl
    rw [pendingAfter] at hend
    rw [blocksFrom]
    split
    · next ho =>
      rw [Draft.left?, if_pos ho] at hafter hend
      refine ih (fun m ls => ?_) hafter hend
      rw [hline, statementsFrom_cons, if_pos ho, Draft.left?, if_pos ho, List.length_append]
      rfl
    · next ho =>
      rw [Draft.left?, if_neg ho] at hafter hend
      intro b hb
      rcases List.mem_cons.mp hb with rfl | hb
      · refine ⟨by rw [endsClosed, hafter]; rfl, fun m => ?_⟩
        have hstatement := hline m []
        rw [List.append_nil] at hstatement
        rw [hstatement, statementsFrom_cons, if_neg ho, Draft.left?, if_neg ho]
        rfl
      · exact ih (fun m ls => (rfl : statementsFrom m none ([] ++ ls) = _)) rfl hend b hb

theorem whole_blocks {source : String} (h : endsClosed (Text.lines source)) :
    ∀ b ∈ blocks source, b.Whole :=
  whole_blocksFrom (fun _ _ => rfl) rfl (by simpa [endsClosed] using h)

end InstallScript
