import InstallScript.Proofs.ValueSpans

/-!
The words of a condition. Some of them build the condition: `not` at the beginning of a term, and `and`
and `or` between values. All others are words of values. `Stage.valueWords` tells them apart by the words
and marks alone, and a condition that compiles reads them so: its lines do more than declare variables
exactly if a word of a value is called (`Heeds`). An opening parenthesis behind a word that builds the
condition is of no account.
-/

namespace InstallScript

/-- The word is one that conditions are built with. -/
def Word.isConnecting (w : Word) : Bool := w.name = "not" || (Opener.ofName? w.name).isSome

/-! ## Stages -/

/-- Where the next word of a condition stands: at the beginning of a term, in a value with some calls
open, or behind a value. The last number is that of the terms that wait for a relation. -/
inductive Stage
  | term (terms : Nat)
  | operand (calls terms : Nat)
  | between (terms : Nat)

/-- How many calls are open behind the marks, with `d` open at the word before them, if the value goes on
there. -/
def Tail.inside? : Tail → Nat → Option Nat
  | t, 0 => if Compile.continues t then some 0 else none
  | t, d + 1 =>
    if Compile.continues t || (t.separates && !t.isClosing) then some (d + 1)
    else if t.isClosing then t.closeOne.inside? d
    else none

namespace Stage

def calls : Stage → Nat
  | operand d _ => d
  | term _ | between _ => 0

def terms : Stage → Nat
  | term k | operand _ k | between k => k

/-- The stage behind an item, by the marks that are left. A relation is taken by the last term that waits
for one. -/
def behind (t : Tail) (d k : Nat) : Stage :=
  match t.inside? d with
  | some d => operand d k
  | none => if 0 < k && t.relation.isSome then operand 0 (k - 1) else between k

/-- The stage behind a word of a value. -/
def after (t : Tail) (d k : Nat) : Stage :=
  if t.opens then if t.isClosing then behind t.closeOne d k else operand (d + 1) k
  else behind t d k

/-- The word is part of a value where it stands. -/
def isValue : Stage → Word → Bool
  | term _, w => !(w.isName && w.name = "not")
  | operand _ _, _ => true
  | between 0, w => ((Opener.ofName? w.name).filter (·.isConnective)).isNone
  | between (_ + 1), w => (Compile.connective? w).isNone

/-- The stage behind a word that builds the condition. -/
def skip : Stage → Stage
  | term k | operand _ k => operand 0 k
  | between k => term (k + 1)

/-- The words of values. -/
def valueWords : Stage → List Token → List Token
  | _, [] => []
  | s, t :: ts =>
    if s.isValue t.word then t :: (after t.tail s.calls s.terms).valueWords ts
    else s.skip.valueWords ts

variable {s : Stage} {t : Token} {ts : List Token}

theorem valueWords_of_isValue (h : s.isValue t.word = true) :
    s.valueWords (t :: ts) = t :: (after t.tail s.calls s.terms).valueWords ts := by
  rw [valueWords, if_pos h]

theorem valueWords_of_not_isValue (h : s.isValue t.word = false) :
    s.valueWords (t :: ts) = s.skip.valueWords ts := by
  rw [valueWords, h]
  rfl

theorem valueWords_nil (s : Stage) : s.valueWords [] = [] := by
  rw [valueWords]

theorem valueWords_sublist (s : Stage) (ts : List Token) : (s.valueWords ts).Sublist ts := by
  induction ts generalizing s with
  | nil => exact s.valueWords_nil ▸ .refl _
  | cons t ts ih =>
    cases h : s.isValue t.word with
    | true => exact valueWords_of_isValue h ▸ (ih _).cons_cons t
    | false => exact valueWords_of_not_isValue h ▸ (ih _).cons t

theorem isConnecting_of_filter {w : Word} {p : Opener → Bool}
    (h : ((Opener.ofName? w.name).filter p).isSome = true) : w.isConnecting = true := by
  cases ho : Opener.ofName? w.name with
  | none => simp [ho] at h
  | some o => simp [Word.isConnecting, ho]

/-- Only a word that conditions are built with can be left out. -/
theorem isConnecting_of_not_isValue {w : Word} (h : s.isValue w = false) : w.isConnecting = true := by
  cases s with
  | term k => simp_all [isValue, Word.isConnecting]
  | operand d k => cases h
  | between k =>
    cases k with
    | zero => exact isConnecting_of_filter (Option.isNone_eq_false_iff.mp h)
    | succ k =>
      have hsome : (Compile.connective? w).isSome = true := Option.isNone_eq_false_iff.mp h
      unfold Compile.connective? at hsome
      split at hsome
      · exact isConnecting_of_filter hsome
      · cases hsome

theorem mem_valueWords (ht : t ∈ ts) (hw : t.word.isConnecting = false) : t ∈ s.valueWords ts := by
  induction ts generalizing s with
  | nil => cases ht
  | cons u ts ih =>
    cases h : s.isValue u.word with
    | true =>
      rw [valueWords_of_isValue h]
      rcases List.mem_cons.mp ht with rfl | ht
      · exact List.mem_cons_self
      · exact List.mem_cons_of_mem _ (ih ht)
    | false =>
      rw [valueWords_of_not_isValue h]
      rcases List.mem_cons.mp ht with rfl | ht
      · cases (isConnecting_of_not_isValue h).symm.trans hw
      · exact ih ht

/-! ### Stages of a value -/

theorem behind_of_continues {t : Tail} (h : Compile.continues t = true) (d k : Nat) :
    behind t d k = operand d k := by
  cases d <;> simp [behind, Tail.inside?, h]

theorem behind_of_separates {t : Tail} (hs : t.separates = true) (hc : t.isClosing = false) (d k : Nat) :
    behind t (d + 1) k = operand (d + 1) k := by
  simp [behind, Tail.inside?, hs, hc]

theorem behind_of_isClosing {t : Tail} (hc : t.isClosing = true) (d k : Nat) :
    behind t (d + 1) k = behind t.closeOne d k := by
  have hstop : Compile.continues t = false := by simp [Compile.continues, hc]
  simp only [behind, Tail.inside?, hstop, hc, Bool.not_true, Bool.and_false, Bool.or_false,
    Bool.false_eq_true, if_false, if_true]
  rfl

end Stage

namespace Cursor

variable {p : Part} {c c' : Cursor}

/-- Where the words of a part begin. -/
def Part.enters : Part → Tail → Nat → Nat → Stage
  | .item, t, d, k | .value, t, d, k => .after t d k
  | .chain, t, d, k => .behind t d k
  | .arguments, _, d, k => .operand (d + 1) k

/-- Where the words behind a part begin. -/
def Part.leaves : Part → Tail → Nat → Nat → Stage
  | .arguments, t, d, k => .behind t (d + 1) k
  | .item, t, d, k | .value, t, d, k | .chain, t, d, k => .behind t d k

/-- A word of a value, with what follows it. -/
theorem valueWords_next {word : Word} (hn : c.next? = some (word, c')) (d k : Nat) :
    (Stage.operand d k).valueWords c.ahead =
      ⟨word, c'.tail⟩ :: (Stage.after c'.tail d k).valueWords c'.ahead := by
  rw [Compile.ahead_of_next? hn, Stage.valueWords_of_isValue rfl]
  rfl

/-- All words that are read are words of values. -/
theorem Reads.valueWords_eq (h : c.Reads p c') : ∃ us, c.ahead = us ++ c'.ahead ∧ ∀ d k,
    (p.enters c.tail d k).valueWords c.ahead = us ++ (p.leaves c'.tail d k).valueWords c'.ahead := by
  induction h with
  | @word c ho =>
    refine ⟨[], rfl, fun d k => ?_⟩
    rw [Part.enters, Stage.after, ho]
    rfl
  | @bare c ho hc =>
    refine ⟨[], rfl, fun d k => ?_⟩
    rw [Part.enters, Stage.after, ho, hc]
    rfl
  | @call c c' ho hargs hc ih =>
    obtain ⟨us, hus, hwords⟩ := ih
    refine ⟨us, hus, fun d k => ?_⟩
    rw [Part.enters, Stage.after, ho, hargs.isClosing_of_arguments]
    refine (hwords d k).trans ?_
    rw [Part.leaves, Stage.behind_of_isClosing hc]
    rfl
  | stop hc => exact ⟨[], rfl, fun d k => rfl⟩
  | @join c c₁ c₂ c₃ word hc hn _ _ ihItem ihMore =>
    obtain ⟨us, hus, hitem⟩ := ihItem
    obtain ⟨vs, hvs, hmore⟩ := ihMore
    refine ⟨⟨word, c₁.tail⟩ :: (us ++ vs), ?_, fun d k => ?_⟩
    · rw [Compile.ahead_of_next? hn, hus, hvs, List.cons_append, List.append_assoc]
    · rw [Part.enters, Stage.behind_of_continues hc, valueWords_next hn, List.cons_append, List.append_assoc,
        ← hmore d k]
      exact congrArg _ (hitem d k)
  | value _ _ ihItem ihMore =>
    obtain ⟨us, hus, hitem⟩ := ihItem
    obtain ⟨vs, hvs, hmore⟩ := ihMore
    refine ⟨us ++ vs, by rw [hus, hvs, List.append_assoc], fun d k => (hitem d k).trans ?_⟩
    rw [List.append_assoc]
    exact congrArg _ (hmore d k)
  | @last c c₁ c₂ word hc hn _ _ ih =>
    obtain ⟨us, hus, hvalue⟩ := ih
    refine ⟨⟨word, c₁.tail⟩ :: us, ?_, fun d k => ?_⟩
    · rw [Compile.ahead_of_next? hn, hus, List.cons_append]
    · rw [Part.enters, valueWords_next hn, List.cons_append]
      exact congrArg _ (hvalue (d + 1) k)
  | @next c c₁ c₂ c₃ word hc hn _ hs hmore ihValue ihMore =>
    obtain ⟨us, hus, hvalue⟩ := ihValue
    obtain ⟨vs, hvs, hwords⟩ := ihMore
    refine ⟨⟨word, c₁.tail⟩ :: (us ++ vs), ?_, fun d k => ?_⟩
    · rw [Compile.ahead_of_next? hn, hus, hvs, List.cons_append, List.append_assoc]
    · rw [Part.enters, valueWords_next hn, List.cons_append, List.append_assoc, ← hwords d k, Part.enters,
        ← Stage.behind_of_separates hs hmore.isClosing_of_arguments]
      exact congrArg _ (hvalue (d + 1) k)

/-- A value ends where no further item is called for. -/
theorem Reads.continues_eq_false (h : c.Reads p c') (hp : p = .chain ∨ p = .value) :
    Compile.continues c'.tail = false := by
  induction h with
  | stop hc => exact hc
  | join _ _ _ _ _ ih | value _ _ _ ih => exact ih (.inl rfl)
  | word | bare | call | last | next => simp at hp

end Cursor

/-! ## Conditions -/

namespace Compile

variable {w w' w'' : Work} {s s' s'' : Stage}

/-- From `w` on words of a condition have been read and lines added, which do more than declare variables
exactly if one of the words of values is called. The condition was at the stage `s` and is at `s'`. -/
def Heeds (s s' : Stage) (w w' : Work) : Prop :=
  ∃ vs ls, w'.cursor.ahead <:+ w.cursor.ahead ∧ w'.lines = w.lines ++ ls ∧
    (Acts ls ↔ ∃ t ∈ vs, t.opens) ∧
    s.valueWords w.cursor.ahead = vs ++ s'.valueWords w'.cursor.ahead

namespace Heeds

protected theorem refl (s : Stage) (w : Work) : Heeds s s w w :=
  ⟨[], [], List.suffix_rfl, (List.append_nil _).symm, by simpa using not_acts_nil, rfl⟩

theorem trans (h : Heeds s s' w w') (h' : Heeds s' s'' w' w'') : Heeds s s'' w w'' := by
  obtain ⟨vs, ls, hahead, hls, hacts, hwords⟩ := h
  obtain ⟨us, ms, hahead', hms, hacts', hwords'⟩ := h'
  refine ⟨vs ++ us, ls ++ ms, hahead'.trans hahead, ?_, ?_, ?_⟩
  · rw [hms, hls, List.append_assoc]
  · rw [acts_append, hacts, hacts']
    simp only [List.mem_append, or_and_right, exists_or]
  · rw [hwords, hwords', List.append_assoc]

/-- At the end all stages are the same. -/
theorem of_ends (h : w.cursor.ahead = []) (s s' : Stage) : Heeds s s' w w := by
  refine ⟨[], [], List.suffix_rfl, (List.append_nil _).symm, by simpa using not_acts_nil, ?_⟩
  rw [h, s.valueWords_nil, s'.valueWords_nil]
  rfl

/-- A word that builds the condition is of no account, whatever follows it. -/
theorem skip {word : Word} {cursor : Cursor} (hn : w.cursor.next? = some (word, cursor))
    (hword : s.isValue word = false) : Heeds s s.skip w { w with cursor := cursor } := by
  have hahead := ahead_of_next? hn
  refine ⟨[], [], ?_, (List.append_nil _).symm, by simpa using not_acts_nil, ?_⟩
  · rw [hahead]
    exact List.suffix_cons _ _
  · rw [hahead, Stage.valueWords_of_not_isValue hword]
    rfl

/-- A value begins with a word of its own. -/
theorem value {word : Word} {cursor : Cursor} (hn : w.cursor.next? = some (word, cursor))
    (hword : s.isValue word = true) (hs : s.calls = 0)
    (hcalls : Calls (cursor.tail.opens = true) { w with cursor := cursor } w')
    (hreads : cursor.Reads .value w'.cursor) : Heeds s (.behind w'.cursor.tail 0 s.terms) w w' := by
  obtain ⟨ts, ls, hts, hls, hacts⟩ := Calls.word hn hcalls
  obtain ⟨us, hus, hwords⟩ := hreads.valueWords_eq
  have hahead := ahead_of_next? hn
  have htokens : ts = ⟨word, cursor.tail⟩ :: us := by
    refine List.append_cancel_right (hts.symm.trans (hahead.trans ?_))
    rw [hus]
    rfl
  refine ⟨ts, ls, ⟨ts, hts.symm⟩, hls, by simpa using hacts, ?_⟩
  rw [hahead, Stage.valueWords_of_isValue hword, hs, htokens]
  exact congrArg _ (hwords 0 s.terms)

end Heeds

/-- The condition has been read through a value, and the stage behind it is what the marks say. -/
structure HeedsValue (s : Stage) (k : Nat) (w w' : Work) : Prop where
  heeds : Heeds s (.behind w'.cursor.tail 0 k) w w'
  continues : continues w'.cursor.tail = false
  length : w'.cursor.ahead.length < w.cursor.ahead.length

theorem HeedsValue.before {k : Nat} (h' : HeedsValue s' k w' w'') (h : Heeds s s' w w') :
    HeedsValue s k w w'' where
  heeds := h.trans h'.heeds
  continues := h'.continues
  length := by
    obtain ⟨_, _, hsuffix, _⟩ := h
    exact Nat.lt_of_lt_of_le h'.length hsuffix.length_le

theorem gives_value_heeded {word : Word} {cursor : Cursor}
    (hn : w.cursor.next? = some (word, cursor)) (hword : s.isValue word = true) (hs : s.calls = 0) :
    Gives (value word) { w with cursor := cursor } fun _ w' => HeedsValue s s.terms w w' := by
  intro x w' he
  have hcalls := gives_value word x w' he
  have hreads := reads_value word _ x w' he
  refine ⟨.value hn hword hs hcalls hreads, hreads.continues_eq_false (.inr rfl), ?_⟩
  obtain ⟨ts, _, hts, _⟩ := hcalls
  have hsuffix : w'.cursor.ahead <:+ cursor.ahead := ⟨ts, hts.symm⟩
  rw [ahead_of_next? hn]
  exact Nat.lt_succ_of_le hsuffix.length_le

/-- Going on with a value that is read off the words ahead. -/
theorem Gives.nextValue {k : Operand → Compile α} {Q : α → Work → Prop} (terms : Nat)
    (hk : ∀ x w', HeedsValue (.operand 0 terms) terms w w' → Gives (k x) w' Q) :
    Gives (nextWord >>= fun word => value word >>= k) w Q := by
  refine .bind gives_nextWord ?_
  rintro word _ ⟨cursor, hn, rfl⟩
  exact .bind (gives_value_heeded hn rfl rfl) hk

theorem gives_openTerm (o : Opener) (k : Nat) :
    Gives (openTerm o) w fun t w' => HeedsValue (.term k) k w w' ∧ t.opener = o := by
  unfold openTerm
  refine .bind gives_nextWord ?_
  rintro word _ ⟨cursor, hn, rfl⟩
  split
  · next hw =>
    have hskip := Heeds.skip (s := .term k) hn (by simp [Stage.isValue, hw])
    exact .nextValue k fun x w₂ h₂ => .pure ⟨h₂.before hskip, rfl⟩
  · next hw =>
    have hword : (Stage.term k).isValue word = true := by
      rw [Stage.isValue, Bool.eq_false_iff.mpr hw]
      rfl
    exact .bind (gives_value_heeded hn hword rfl) fun x w₂ h₂ => .pure ⟨h₂, rfl⟩

theorem map_opener_modify {f : Term → Term} (hf : ∀ t, (f t).opener = t.opener) (ts : List Term)
    (i : Nat) : (ts.modify i f).map (·.opener) = ts.map (·.opener) := by
  induction ts generalizing i with
  | nil => cases i <;> rfl
  | cons t ts ih =>
    cases i with
    | zero => exact congrArg (· :: _) (hf t)
    | succ i => exact congrArg (t.opener :: ·) (ih i)

section Behind

variable {t : Tail} {k : Nat}

theorem behind_zero (ht : continues t = false) : Stage.behind t 0 0 = .between 0 := by
  simp [Stage.behind, Tail.inside?, ht]

theorem behind_of_relation (ht : continues t = false) (hr : t.relation.isSome = true) :
    Stage.behind t 0 (k + 1) = .operand 0 k := by
  simp [Stage.behind, Tail.inside?, ht, hr]

theorem behind_of_no_relation (ht : continues t = false) (hr : t.relation = none) :
    Stage.behind t 0 k = .between k := by
  simp [Stage.behind, Tail.inside?, ht, hr]

end Behind

/-- The terms that are there keep their openers, and further ones go behind them. What is left begins
with a word that joins another condition. -/
theorem gives_moreTerms (n : Nat) (ts : List Term) (opened : List Nat)
    (hn : w.cursor.ahead.length ≤ n) (ht : continues w.cursor.tail = false) :
    Gives (moreTerms n ts opened) w fun us w' =>
      Heeds (.behind w.cursor.tail 0 opened.length) (.between 0) w w' ∧
        ts.map (·.opener) <+: us.map (·.opener) := by
  fun_induction moreTerms n ts opened generalizing w with
  | case1 ts => exact .pure ⟨behind_zero ht ▸ .refl _ w, List.prefix_rfl⟩
  | case2 ts i outer =>
    have hend : w.cursor.ahead = [] := List.eq_nil_of_length_eq_zero (Nat.le_zero.mp hn)
    refine .read (a := w.cursor.tail) rfl ?_
    split
    · exact .fail
    · exact .pure ⟨.of_ends hend _ _, List.prefix_rfl⟩
  | case3 n ts i outer ihCompare ihOpen ihLeft =>
    have hle : ∀ {s k w₁}, HeedsValue s k w w₁ → w₁.cursor.ahead.length ≤ n := fun h =>
      Nat.le_of_lt_succ (Nat.lt_of_lt_of_le h.length hn)
    refine .read (a := w.cursor.tail) rfl ?_
    split
    · next r hr =>
      refine .read (a := w.cursor.hasNext) rfl ?_
      dsimp only
      split
      · exact .fail_bind
      refine .nextValue outer.length fun x w₁ h₁ => ?_
      refine (ihCompare _ x (hle h₁) h₁.continues).mono fun us w₂ h₂ => ?_
      rw [map_opener_modify (f := (·.compare _ x)) fun _ => rfl] at h₂
      refine ⟨?_, h₂.2⟩
      rw [List.length_cons, behind_of_relation ht (by rw [hr]; rfl)]
      exact h₁.heeds.trans h₂.1
    · next hr =>
      rw [List.length_cons, behind_of_no_relation ht hr]
      refine .read (a := w.cursor.hasNext) rfl ?_
      split
      · next hnext => exact .pure ⟨.of_ends (by simpa [Cursor.hasNext] using hnext) _ _, List.prefix_rfl⟩
      refine .bind gives_nextWord ?_
      rintro word _ ⟨cursor, hnext, rfl⟩
      split
      · next o ho =>
        have hskip := Heeds.skip (s := .between (outer.length + 1)) hnext (by rw [Stage.isValue, ho]; rfl)
        refine .bind (gives_openTerm o (outer.length + 2)) fun t w₂ h₂ => ?_
        have hvalue := h₂.1.before hskip
        refine (ihOpen t (hle hvalue) hvalue.continues).mono fun us w₃ h₃ => ?_
        rw [List.map_append] at h₃
        exact ⟨hvalue.heeds.trans h₃.1, (List.prefix_append _ _).trans h₃.2⟩
      · next ho =>
        refine .bind (gives_value_heeded hnext (s := .between (outer.length + 1))
          (by rw [Stage.isValue, ho]; rfl) rfl) fun x w₂ h₂ => ?_
        refine (ihLeft x (hle h₂) h₂.continues).mono fun us w₃ h₃ => ?_
        rw [map_opener_modify (f := (·.addLeft x)) fun _ => rfl] at h₃
        exact ⟨h₂.heeds.trans h₃.1, h₃.2⟩

theorem gives_condition (o : Opener) : Gives (condition o) w fun ts w' =>
    Heeds (.term 1) (.between 0) w w' ∧ [o] <+: ts.map (·.opener) := by
  refine .nested (.bind (gives_openTerm o 1) fun t w₁ h₁ => ?_)
  refine .read (a := w₁.cursor.ahead.length) rfl ?_
  refine (gives_moreTerms _ [t] [0] (Nat.le_refl _) h₁.1.continues).mono ?_
  rintro ts w₂ ⟨h₂, hts⟩ _
  exact ⟨h₁.1.heeds.trans h₂, h₁.2 ▸ hts⟩

/-- Further conditions take all words. -/
theorem gives_moreConditions (n : Nat) (hn : w.cursor.ahead.length ≤ n) :
    Gives (moreConditions n) w fun _ w' =>
      Heeds (.between 0) (.between 0) w w' ∧ w'.cursor.ahead = [] := by
  induction n generalizing w with
  | zero => exact .pure ⟨.refl _ w, List.eq_nil_of_length_eq_zero (Nat.le_zero.mp hn)⟩
  | succ n ih =>
    unfold moreConditions
    refine .read (a := w.cursor.hasNext) rfl ?_
    split
    · next hnext =>
      exact .pure ⟨.refl _ w, by simpa [Cursor.hasNext] using hnext⟩
    refine .bind gives_nextWord ?_
    rintro word _ ⟨cursor, hc, rfl⟩
    split
    · next o ho =>
      have hskip := Heeds.skip (s := .between 0) hc (by rw [Stage.isValue, ho]; rfl)
      refine .bind (gives_condition o) fun ts w₂ h₂ => ?_
      have hle : w₂.cursor.ahead.length ≤ n := by
        obtain ⟨_, _, hsuffix, _⟩ := h₂.1
        rw [ahead_of_next? hc] at hn
        exact Nat.le_trans hsuffix.length_le (Nat.le_of_succ_le_succ hn)
      exact .bind (ih hle) fun us w₃ h₃ => .pure ⟨hskip.trans (h₂.1.trans h₃.1), h₃.2⟩
    · exact .fail

theorem gives_conditions (o : Opener) : Gives (conditions o) w fun ts w' =>
    Heeds (.term 1) (.between 0) w w' ∧ w'.cursor.ahead = [] ∧ [o] <+: ts.map (·.opener) := by
  refine .bind (gives_condition o) fun ts w₁ h₁ => ?_
  refine .read (a := w₁.cursor.ahead.length) rfl ?_
  refine .bind (gives_moreConditions _ Nat.le.refl) fun us w₂ h₂ => .pure ⟨h₁.1.trans h₂.1, h₂.2, ?_⟩
  rw [List.map_append]
  exact h₁.2.trans (List.prefix_append _ _)

/-! ## Statements with a condition -/

/-- The words of a condition have been read to the last one, of which `vs` are words of values, and the
lines of its terms written, the first of which `o` opens. Ahead of them something is done exactly if one
of these words is called. -/
def Tests (loop : String) (o : Opener) (vs : List Token) (w w' : Work) : Prop :=
  ∃ w₁ ls, ∃ ts : List Term, w₁.lines = w.lines ++ ls ∧ (Acts ls ↔ ∃ t ∈ vs, t.opens) ∧ Ends w₁ ∧
    [o] <+: ts.map (·.opener) ∧ w' = w₁.write (ts.map fun t => ⟨0, .condition loop t⟩)

theorem Heeds.tests (h : Heeds s s' w w') (he : Ends w') {o : Opener} {ts : List Term}
    (ho : [o] <+: ts.map (·.opener)) (loop : String) :
    Tests loop o (s.valueWords w.cursor.ahead) w
      (w'.write (ts.map fun t => ⟨0, .condition loop t⟩)) := by
  obtain ⟨vs, ls, _, hls, hacts, hwords⟩ := h
  rw [he, s'.valueWords_nil, List.append_nil] at hwords
  rw [hwords]
  exact ⟨w', ls, ts, hls, hacts, he, ho, rfl⟩

theorem gives_branch (word : Word) : Gives (branch word) w fun _ w' => ∃ o,
    Opener.ofName? word.name = some o ∧ Tests "" o ((Stage.term 1).valueWords w.cursor.ahead) w w' := by
  unfold branch
  split
  · exact .fail
  · next o ho =>
    refine .bind (gives_conditions o) fun ts w₁ h => .of_exec (a := ()) rfl ?_
    exact ⟨o, (Option.filter_eq_some_iff.mp ho).1, h.1.tests h.2.1 h.2.2 ""⟩

theorem gives_loop (name : String) : Gives (loop name) w fun _ w' =>
    (Ends w ∧ w' = w.write [⟨0, .keyword name⟩]) ∨
      ∃ t ts o, w.cursor.ahead = t :: ts ∧ Opener.ofName? t.word.name = some o ∧ o.isLoop ∧
        Tests name o ((Stage.term 1).valueWords ts) w w' := by
  unfold loop
  refine .read (a := w.cursor.hasNext) rfl ?_
  split
  · next h => exact .of_exec (a := ()) rfl (.inl ⟨ends_of_hasNext (by simpa using h), rfl⟩)
  refine .bind gives_nextWord ?_
  rintro word _ ⟨cursor, hn, rfl⟩
  split
  · exact .fail
  next o ho =>
  refine .bind (gives_condition o) fun ts w₁ h₁ => ?_
  split
  · next t =>
    refine .read (a := w₁.cursor.hasNext) rfl ?_
    dsimp only
    split
    · exact .fail_bind
    next hend =>
    split
    · exact .fail_bind
    obtain ⟨hname, hloop⟩ := Option.filter_eq_some_iff.mp ho
    refine .of_exec (a := ()) rfl (.inr ⟨_, _, o, ahead_of_next? hn, hname, hloop, ?_⟩)
    exact h₁.1.tests (ends_of_hasNext hend) h₁.2 name
  · exact .fail

end Compile

end InstallScript
