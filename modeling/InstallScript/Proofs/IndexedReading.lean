import InstallScript.Proofs.LineGroups

/-!
Reading with an index. A `Cursor` has the marks of the word just read and the words to come; the words
behind it are gone. An `IndexedCursor` keeps all the words of a statement and counts those that have been
read, so that the marks of the word just read have to be looked up, and a parenthesis is taken off in
place. Looking up an index that is out of range has no answer.

* `IndexedReader.reader` forgets the words behind the cursor. As long as the index is in range, every
  call has an answer, which is the one that the reader without an index gives
  (`IndexedReader.exists_answer?`).
* `IndexedReader.Moves` lists what a call can do, and `IndexedReader.Follows` is what all calls keep: the
  index is in range, and the words are those of the statement last read with some closing parentheses
  taken off.
* `words_stay_as_last_read` is the result for any calls from the beginning of a source on.
-/

namespace InstallScript

open Text

/-! ## A cursor with an index -/

namespace Token

/-- The word with closing parentheses taken off its marks, as far as there are any. -/
def closeMany (t : Token) (n : Nat) : Token :=
  { t with tail := { t.tail with closes := t.tail.closes - n } }

/-- From the word at index `i`, `n i` closing parentheses are taken off. -/
def closeEach (ts : List Token) (n : Nat → Nat) : List Token := ts.mapIdx fun i t => t.closeMany (n i)

variable {ts : List Token} {n : Nat → Nat}

theorem getElem?_closeEach (ts : List Token) (n : Nat → Nat) (i : Nat) :
    (closeEach ts n)[i]? = ts[i]?.map (·.closeMany (n i)) := List.getElem?_mapIdx

theorem length_closeEach (ts : List Token) (n : Nat → Nat) : (closeEach ts n).length = ts.length :=
  List.length_mapIdx

theorem closeEach_of_eq_zero (h : ∀ i, n i = 0) : closeEach ts n = ts := by
  refine List.ext_getElem? fun i => ?_
  rw [getElem?_closeEach, h]
  exact Option.map_id'

theorem closeEach_closeEach (ts : List Token) (m n : Nat → Nat) :
    closeEach (closeEach ts m) n = closeEach ts fun i => m i + n i := by
  refine List.ext_getElem? fun i => ?_
  simp only [getElem?_closeEach, Option.map_map, Function.comp_def, closeMany, Nat.sub_sub]

/-- Taking a parenthesis off one word. -/
theorem set_closeOne {t : Token} {i : Nat} (h : ts[i]? = some t) :
    ts.set i { t with tail := t.tail.closeOne } = closeEach ts fun j => if i = j then 1 else 0 := by
  obtain ⟨hlt, -⟩ := List.getElem?_eq_some_iff.mp h
  refine List.ext_getElem? fun j => ?_
  rw [getElem?_closeEach]
  by_cases hij : i = j
  · subst hij
    rw [if_pos rfl, h, List.getElem?_set_self hlt]
    rfl
  · rw [if_neg hij, List.getElem?_set_ne hij]
    exact Option.map_id'.symm

end Token

/-- All the words of a statement, and how many of them have been read. -/
structure IndexedCursor where
  words : List Token := []
  position : Nat := 0
deriving DecidableEq, Repr

namespace IndexedCursor

/-- The index of the word just read. -/
def current? (c : IndexedCursor) : Option Nat :=
  match c.position with
  | 0 => none
  | i + 1 => some i

def hasNext (c : IndexedCursor) : Bool := c.position < c.words.length

def next? (c : IndexedCursor) : Option (Word × IndexedCursor) :=
  c.words[c.position]?.map fun t => (t.word, { c with position := c.position + 1 })

/-- The marks of the word just read. There is no answer if its index is out of range. -/
def tail? (c : IndexedCursor) : Option Tail :=
  match c.current? with
  | none => some {}
  | some i => c.words[i]?.map (·.tail)

/-- Takes one pending parenthesis off the marks of the word just read, in its place among the words.
There is no answer if its index is out of range. -/
def closeOne? (c : IndexedCursor) : Option IndexedCursor :=
  match c.current? with
  | none => some c
  | some i => c.words[i]?.map fun t =>
      { c with words := c.words.set i { t with tail := t.tail.closeOne } }

/-- The cursor without the words behind it. -/
def cursor (c : IndexedCursor) : Cursor := ⟨c.tail?.getD {}, c.words.drop c.position⟩

def InRange (c : IndexedCursor) : Prop := c.position ≤ c.words.length

variable {c c' : IndexedCursor} {i : Nat}

theorem current?_eq_some_iff : c.current? = some i ↔ c.position = i + 1 := by
  rw [current?]
  cases c.position with
  | zero => simp
  | succ n => simp

/-- A word just read is there if the index is in range. -/
theorem InRange.exists_current (h : c.InRange) (hi : c.current? = some i) :
    ∃ t, c.words[i]? = some t := by
  have hlt : i < c.words.length := by
    rw [InRange, current?_eq_some_iff.mp hi] at h
    exact h
  exact ⟨_, List.getElem?_eq_getElem hlt⟩

theorem hasNext_cursor (c : IndexedCursor) : c.cursor.hasNext = c.hasNext := by
  rw [Cursor.hasNext, hasNext, cursor, Bool.eq_iff_iff, decide_eq_true_iff, Bool.not_eq_true',
    List.isEmpty_eq_false_iff, ne_eq, List.drop_eq_nil_iff, Nat.not_le]

theorem next?_cursor (c : IndexedCursor) :
    c.cursor.next? = c.next?.map fun p => (p.1, p.2.cursor) := by
  rw [next?]
  cases hword : c.words[c.position]? with
  | none =>
    have hdrop : c.words.drop c.position = [] :=
      List.drop_eq_nil_iff.mpr (List.getElem?_eq_none_iff.mp hword)
    rw [Cursor.next?, cursor, hdrop]
    rfl
  | some t =>
    obtain ⟨hlt, ht⟩ := List.getElem?_eq_some_iff.mp hword
    have hdrop : c.words.drop c.position = t :: c.words.drop (c.position + 1) := by
      rw [List.drop_eq_getElem_cons hlt, ht]
    have htail : ({ c with position := c.position + 1 } : IndexedCursor).tail? = some t.tail :=
      congrArg (Option.map Token.tail) hword
    rw [Cursor.next?, cursor, hdrop, Option.map_some, Option.map_some, cursor, htail]
    rfl

theorem InRange.tail? (h : c.InRange) : c.tail? = some c.cursor.tail := by
  rw [cursor, IndexedCursor.tail?]
  cases hi : c.current? with
  | none => rfl
  | some i =>
    obtain ⟨t, ht⟩ := h.exists_current hi
    simp only [ht, Option.map_some, Option.getD_some]

/-- Only the word just read changes, and only in its closing parentheses. -/
theorem closeOne?_eq_some (h : c.closeOne? = some c') : c'.position = c.position ∧
    c'.words = Token.closeEach c.words fun i => if c.current? = some i then 1 else 0 := by
  rw [closeOne?] at h
  cases hi : c.current? with
  | none =>
    rw [hi] at h
    cases h
    exact ⟨rfl, (Token.closeEach_of_eq_zero fun i => if_neg (Option.some_ne_none i).symm).symm⟩
  | some i =>
    rw [hi] at h
    obtain ⟨t, ht, rfl⟩ := Option.map_eq_some_iff.mp h
    refine ⟨rfl, ?_⟩
    simp only [Option.some_inj]
    exact Token.set_closeOne ht

theorem InRange.exists_closeOne? (h : c.InRange) :
    ∃ c', c.closeOne? = some c' ∧ c'.cursor = c.cursor.closeOne := by
  rw [closeOne?]
  cases hi : c.current? with
  | none =>
    refine ⟨c, rfl, ?_⟩
    rw [cursor, IndexedCursor.tail?, hi]
    rfl
  | some i =>
    obtain ⟨t, ht⟩ := h.exists_current hi
    obtain ⟨hlt, -⟩ := List.getElem?_eq_some_iff.mp ht
    have hposition := current?_eq_some_iff.mp hi
    simp only [ht, Option.map_some]
    refine ⟨_, rfl, ?_⟩
    have hcurrent : ∀ ws, current? ⟨ws, c.position⟩ = some i := fun ws =>
      current?_eq_some_iff.mpr hposition
    have hdrop : ∀ t', (c.words.set i t').drop c.position = c.words.drop c.position := fun t' =>
      List.drop_set_of_lt (by omega)
    simp only [cursor, IndexedCursor.tail?, Cursor.closeOne, hcurrent, hdrop, ht,
      List.getElem?_set_self hlt, Option.map_some, Option.getD_some]

end IndexedCursor

/-! ## Calls -/

namespace Reader

/-- What a reader can be asked. -/
inductive Call
  | nextStatement
  | nextWord
  | hasNext
  | tail
  | closeOne
deriving DecidableEq, Repr

inductive Answer
  | statement (result : Except Fault Bool)
  | word (result : Except Fault Word)
  | more (yes : Bool)
  | tail (marks : Tail)
  | done

/-- The answer to a call for the next statement. -/
def Answer.statement? : Answer → Option (Except Fault Bool)
  | statement result => some result
  | _ => none

def answer (r : Reader) : Call → Answer × Reader
  | .nextStatement => (.statement r.nextStatement.1, r.nextStatement.2)
  | .nextWord => (.word r.nextWord.1, r.nextWord.2)
  | .hasNext => (.more r.cursor.hasNext, r)
  | .tail => (.tail r.cursor.tail, r)
  | .closeOne => (.done, r.closeOne)

/-- Goes on from call to call, whatever the answers are. -/
def answers (r : Reader) : List Call → List Answer × Reader
  | [] => ([], r)
  | call :: calls =>
    ((r.answer call).1 :: ((r.answer call).2.answers calls).1, ((r.answer call).2.answers calls).2)

end Reader

/-! ## A reader with an index -/

/-- Reads like `Reader`, but keeps all the words of a statement. -/
structure IndexedReader where
  name : String
  upcoming : List Statement
  line : Nat := 0
  indent : String := ""
  text : String := ""
  cursor : IndexedCursor := {}

/-- A call, with the reader it is made to and its answer. -/
structure Exchange where
  reader : IndexedReader
  call : Reader.Call
  answer : Reader.Answer

namespace IndexedReader

def ofSource (source name : String) : IndexedReader := { name, upcoming := statements source }

/-- The words are cleared first. They are set only if they can be read, and at the end of the source
nothing changes. -/
def nextStatement (r : IndexedReader) : Except Fault Bool × IndexedReader :=
  match r.upcoming with
  | [] => (.ok false, r)
  | s :: rest =>
    let r := { r with upcoming := rest, line := s.line, indent := s.indent, cursor := {} }
    match s.tokens with
    | .error f => (.error f, r)
    | .ok ts => (.ok true, { r with text := s.text, cursor := { r.cursor with words := ts } })

def nextWord (r : IndexedReader) : Except Fault Word × IndexedReader :=
  match r.cursor.next? with
  | none => (.error .endOfStatement, r)
  | some (w, c) => (.ok w, { r with cursor := c })

/-- There is no answer if the call looks up a word that is not there. -/
def answer? (r : IndexedReader) : Reader.Call → Option (Reader.Answer × IndexedReader)
  | .nextStatement => some (.statement r.nextStatement.1, r.nextStatement.2)
  | .nextWord => some (.word r.nextWord.1, r.nextWord.2)
  | .hasNext => some (.more r.cursor.hasNext, r)
  | .tail => r.cursor.tail?.map fun t => (.tail t, r)
  | .closeOne => r.cursor.closeOne?.map fun c => (.done, { r with cursor := c })

/-- Goes on from call to call, whatever the answers are, as long as there are answers. -/
def exchanges? (r : IndexedReader) : List Reader.Call → Option (List Exchange × IndexedReader)
  | [] => some ([], r)
  | call :: calls =>
    (r.answer? call).bind fun p =>
      (p.2.exchanges? calls).map fun q => (⟨r, call, p.1⟩ :: q.1, q.2)

/-- The reader without the words behind its cursor. -/
def reader (r : IndexedReader) : Reader :=
  ⟨r.name, r.upcoming, r.line, r.indent, r.text, r.cursor.cursor⟩

theorem nextStatement_reader (r : IndexedReader) :
    r.reader.nextStatement = (r.nextStatement.1, r.nextStatement.2.reader) := by
  rw [nextStatement, Reader.nextStatement]
  cases hupcoming : r.upcoming with
  | nil => simp only [reader, hupcoming]
  | cons s rest =>
    simp only [reader, hupcoming]
    cases s.tokens with
    | error f => rfl
    | ok ts => rfl

theorem nextWord_reader (r : IndexedReader) :
    r.reader.nextWord = (r.nextWord.1, r.nextWord.2.reader) := by
  have hnext : r.reader.cursor.next? = r.cursor.next?.map fun p => (p.1, p.2.cursor) :=
    r.cursor.next?_cursor
  rw [nextWord, Reader.nextWord, hnext]
  cases r.cursor.next? with
  | none => rfl
  | some p => rfl

/-- With the index in range a call has an answer, and it does not matter that the words behind the
cursor are kept. -/
theorem exists_answer? {r : IndexedReader} (h : r.cursor.InRange) (call : Reader.Call) :
    ∃ a r', r.answer? call = some (a, r') ∧ r.reader.answer call = (a, r'.reader) := by
  cases call with
  | nextStatement =>
    refine ⟨_, _, rfl, ?_⟩
    rw [Reader.answer, nextStatement_reader]
  | nextWord =>
    refine ⟨_, _, rfl, ?_⟩
    rw [Reader.answer, nextWord_reader]
  | hasNext =>
    refine ⟨_, r, rfl, ?_⟩
    exact congrArg (fun b => (Reader.Answer.more b, r.reader)) r.cursor.hasNext_cursor
  | tail => exact ⟨_, r, congrArg (Option.map _) h.tail?, rfl⟩
  | closeOne =>
    obtain ⟨c', hc', hcursor⟩ := h.exists_closeOne?
    refine ⟨.done, { r with cursor := c' }, congrArg (Option.map _) hc', ?_⟩
    rw [Reader.answer, Reader.closeOne, reader, reader, hcursor]

end IndexedReader

/-! ## What a call can do -/

namespace Statement

/-- The words of the statement; there are none if they cannot be read. -/
def words (s : Statement) : List Token := s.tokens.toOption.getD []

/-- The answer to a call that goes on to the statement. -/
def found (s : Statement) : Except Fault Bool := s.tokens.map fun _ => true

theorem words_of_error {s : Statement} {f : Fault} (h : s.tokens = .error f) : s.words = [] := by
  rw [words, h]
  rfl

end Statement

namespace IndexedReader

variable {r r' r'' : IndexedReader} {call : Reader.Call} {a : Reader.Answer}

/-- A call finds the end of the source, begins a statement, or stays in the one last begun. There it
never goes back, and the only change to the words is that a closing parenthesis is taken off the word
just read. -/
inductive Moves (r : IndexedReader) : Reader.Call → Reader.Answer → IndexedReader → Prop
  | ends (h : r.upcoming = []) : Moves r .nextStatement (.statement (.ok false)) r
  | begins {s : Statement} {rest : List Statement} {r' : IndexedReader} (h : r.upcoming = s :: rest)
      (hupcoming : r'.upcoming = rest) (hcursor : r'.cursor = ⟨s.words, 0⟩) :
      Moves r .nextStatement (.statement s.found) r'
  | stays {call : Reader.Call} {a : Reader.Answer} {r' : IndexedReader} (ha : a.statement? = none)
      (hupcoming : r'.upcoming = r.upcoming) (hposition : r.cursor.position ≤ r'.cursor.position)
      (hrange : r.cursor.InRange → r'.cursor.InRange)
      (hwords : r'.cursor.words = Token.closeEach r.cursor.words fun i =>
        if call = .closeOne ∧ r.cursor.current? = some i then 1 else 0) :
      Moves r call a r'

theorem Moves.stays_of_words (ha : a.statement? = none) (hcall : call ≠ .closeOne)
    (hupcoming : r'.upcoming = r.upcoming) (hposition : r.cursor.position ≤ r'.cursor.position)
    (hrange : r.cursor.InRange → r'.cursor.InRange) (hwords : r'.cursor.words = r.cursor.words) :
    Moves r call a r' :=
  .stays ha hupcoming hposition hrange
    (hwords.trans (Token.closeEach_of_eq_zero fun _ => if_neg fun h => hcall h.1).symm)

theorem Moves.same (ha : a.statement? = none) (hcall : call ≠ .closeOne) : Moves r call a r :=
  .stays_of_words ha hcall rfl (Nat.le_refl _) id rfl

theorem moves_nextStatement (r : IndexedReader) :
    Moves r .nextStatement (.statement r.nextStatement.1) r.nextStatement.2 := by
  cases hupcoming : r.upcoming with
  | nil =>
    have hnext : r.nextStatement = (.ok false, r) := by rw [nextStatement, hupcoming]
    rw [hnext]
    exact .ends hupcoming
  | cons s rest =>
    have hbegins : r.nextStatement.1 = s.found ∧ r.nextStatement.2.upcoming = rest ∧
        r.nextStatement.2.cursor = ⟨s.words, 0⟩ := by
      obtain ⟨line, indent, text, tokens⟩ := s
      rw [nextStatement, hupcoming]
      cases tokens with
      | error f => exact ⟨rfl, rfl, rfl⟩
      | ok ts => exact ⟨rfl, rfl, rfl⟩
    rw [hbegins.1]
    exact .begins hupcoming hbegins.2.1 hbegins.2.2

theorem moves_nextWord (r : IndexedReader) : Moves r .nextWord (.word r.nextWord.1) r.nextWord.2 := by
  rw [nextWord, IndexedCursor.next?]
  cases hword : r.cursor.words[r.cursor.position]? with
  | none => exact .same rfl (by decide)
  | some t =>
    obtain ⟨hlt, -⟩ := List.getElem?_eq_some_iff.mp hword
    exact .stays_of_words rfl (by decide) rfl (Nat.le_succ _) (fun _ => hlt) rfl

theorem moves_of_answer? (h : r.answer? call = some (a, r')) : Moves r call a r' := by
  cases call with
  | nextStatement =>
    cases h
    exact moves_nextStatement r
  | nextWord =>
    cases h
    exact moves_nextWord r
  | hasNext =>
    cases h
    exact .same rfl (by decide)
  | tail =>
    obtain ⟨t, -, ht⟩ := Option.map_eq_some_iff.mp h
    cases ht
    exact .same rfl (by decide)
  | closeOne =>
    obtain ⟨c, hc, hr⟩ := Option.map_eq_some_iff.mp h
    cases hr
    obtain ⟨hposition, hwords⟩ := IndexedCursor.closeOne?_eq_some hc
    refine .stays rfl rfl (Nat.le_of_eq hposition.symm) (fun hrange => ?_) ?_
    · rw [IndexedCursor.InRange, hposition, hwords, Token.length_closeEach]
      exact hrange
    · simpa only [true_and] using hwords

/-! ## What all calls keep -/

/-- The second reader is further on: fewer statements are to come, or as many and no fewer words have
been read of the last one. -/
def Precedes (r r' : IndexedReader) : Prop :=
  r'.upcoming.length < r.upcoming.length ∨
    r'.upcoming.length = r.upcoming.length ∧ r.cursor.position ≤ r'.cursor.position

theorem Precedes.trans (h : r.Precedes r') (h' : r'.Precedes r'') : r.Precedes r'' := by
  unfold Precedes at *
  omega

theorem Moves.precedes (h : Moves r call a r') : r.Precedes r' := by
  cases h with
  | ends h => exact .inr ⟨rfl, Nat.le_refl _⟩
  | begins h hupcoming hcursor =>
    refine .inl ?_
    rw [h, hupcoming]
    exact Nat.lt_succ_self _
  | stays ha hupcoming hposition hrange hwords => exact .inr ⟨congrArg _ hupcoming, hposition⟩

end IndexedReader

/-- How often, in the exchanges that lead to the reader, a closing parenthesis was to be taken off while
the word at index `i` of the same statement was the word just read. The statement is the same as long as
as many are to come. -/
def closings (es : List Exchange) (r : IndexedReader) (i : Nat) : Nat :=
  es.countP fun e => e.call = .closeOne ∧ e.reader.upcoming.length = r.upcoming.length ∧
    e.reader.cursor.current? = some i

/-- The words of the last one of the statements. -/
def lastWords (read : List Statement) : List Token := read.getLast?.elim [] (·.words)

namespace IndexedReader

variable {r r' : IndexedReader} {call : Reader.Call} {a : Reader.Answer} {es : List Exchange}

/-- No word was the word just read that has not been read. -/
theorem closings_eq_zero (h : ∀ e ∈ es, e.reader.Precedes r) {i : Nat} (hi : r.cursor.position ≤ i) :
    closings es r i = 0 := by
  refine List.countP_eq_zero.mpr fun e he => ?_
  rw [decide_eq_true_iff]
  rintro ⟨-, hlength, hcurrent⟩
  have hposition := IndexedCursor.current?_eq_some_iff.mp hcurrent
  obtain hlt | ⟨-, hle⟩ := h e he
  · omega
  · omega

theorem closings_concat (h : r'.upcoming.length = r.upcoming.length) (call : Reader.Call)
    (a : Reader.Answer) (i : Nat) : closings (es ++ [⟨r, call, a⟩]) r' i =
      closings es r i + if call = .closeOne ∧ r.cursor.current? = some i then 1 else 0 := by
  unfold closings
  rw [List.countP_append, List.countP_singleton, h]
  simp only [true_and, decide_eq_true_eq]

/-- What holds of a reader of the statements `ss` when the exchanges `es` have led to it and the
statements in `read` have been read. -/
structure Follows (ss : List Statement) (es : List Exchange) (read : List Statement)
    (r : IndexedReader) : Prop where
  split : ss = read ++ r.upcoming
  found : ∃ k, es.filterMap (·.answer.statement?) =
    read.map (·.found) ++ List.replicate k (.ok false) ∧ (0 < k → r.upcoming = [])
  range : r.cursor.InRange
  words : r.cursor.words = Token.closeEach (lastWords read) (closings es r)
  precedes : ∀ e ∈ es, e.reader.Precedes r

variable {ss read : List Statement}

theorem Follows.start (source name : String) :
    Follows (statements source) [] [] (ofSource source name) where
  split := rfl
  found := ⟨0, rfl, fun h => absurd h (Nat.lt_irrefl 0)⟩
  range := Nat.le_refl 0
  words := rfl
  precedes := List.forall_mem_nil _

theorem Follows.precedes_concat (h : Follows ss es read r) (hm : Moves r call a r') :
    ∀ e ∈ es ++ [⟨r, call, a⟩], e.reader.Precedes r' := by
  intro e he
  rw [List.mem_append, List.mem_singleton] at he
  rcases he with he | rfl
  · exact (h.precedes e he).trans hm.precedes
  · exact hm.precedes

/-- The words of a statement that is not left are changed by one call more. -/
theorem Follows.words_concat (h : Follows ss es read r) (call : Reader.Call) (a : Reader.Answer)
    (hupcoming : r'.upcoming = r.upcoming)
    (hwords : r'.cursor.words = Token.closeEach r.cursor.words fun i =>
      if call = .closeOne ∧ r.cursor.current? = some i then 1 else 0) :
    r'.cursor.words = Token.closeEach (lastWords read) (closings (es ++ [⟨r, call, a⟩]) r') := by
  rw [hwords, h.words, Token.closeEach_closeEach]
  refine congrArg _ (funext fun i => ?_)
  exact (closings_concat (congrArg _ hupcoming) call a i).symm

theorem Follows.move (h : Follows ss es read r) (hm : Moves r call a r') :
    ∃ read', Follows ss (es ++ [⟨r, call, a⟩]) read' r' := by
  have hprecedes := h.precedes_concat hm
  obtain ⟨k, hfound, hk⟩ := h.found
  cases hm with
  | ends hnil =>
    refine ⟨read, h.split, ⟨k + 1, ?_, fun _ => hnil⟩, h.range, ?_, hprecedes⟩
    · rw [List.filterMap_append, hfound, List.replicate_succ', List.append_assoc]
      rfl
    · refine h.words_concat _ _ rfl (Token.closeEach_of_eq_zero fun i => if_neg ?_).symm
      exact fun h => Reader.Call.noConfusion h.1
  | @begins s _ _ hcons hupcoming hcursor =>
    have hzero : k = 0 := by
      refine Nat.eq_zero_of_not_pos fun hpos => ?_
      rw [hk hpos] at hcons
      cases hcons
    refine ⟨read ++ [s], ?_, ⟨0, ?_, fun h => absurd h (Nat.lt_irrefl 0)⟩, ?_, ?_, hprecedes⟩
    · rw [h.split, hcons, hupcoming, List.append_assoc]
      rfl
    · rw [List.filterMap_append, hfound, hzero, List.map_append, List.replicate_zero, List.append_nil,
        List.append_nil]
      rfl
    · rw [hcursor]
      exact Nat.zero_le _
    · have hposition : r'.cursor.position = 0 := by rw [hcursor]
      rw [Token.closeEach_of_eq_zero fun i => closings_eq_zero hprecedes (by omega), hcursor, lastWords,
        List.getLast?_concat]
      rfl
  | stays ha hupcoming hposition hrange hwords =>
    refine ⟨read, ?_, ⟨k, ?_, ?_⟩, hrange h.range, h.words_concat call a hupcoming hwords, hprecedes⟩
    · rw [h.split, hupcoming]
    · have hnone : [(⟨r, call, a⟩ : Exchange)].filterMap (·.answer.statement?) = [] :=
        List.filterMap_cons_none ha
      rw [List.filterMap_append, hfound, hnone, List.append_nil]
    · rw [hupcoming]
      exact hk

/-- Every call has an answer, and the reader without an index gives the same one. -/
theorem Follows.run (h : Follows ss es read r) (calls : List Reader.Call) :
    ∃ es' r' read', r.exchanges? calls = some (es', r') ∧
      r.reader.answers calls = (es'.map (·.answer), r'.reader) ∧ Follows ss (es ++ es') read' r' := by
  induction calls generalizing es r read with
  | nil => exact ⟨[], r, read, rfl, rfl, by rwa [List.append_nil]⟩
  | cons call calls ih =>
    obtain ⟨a, r₁, hanswer, hreader⟩ := exists_answer? h.range call
    obtain ⟨read₁, h₁⟩ := h.move (moves_of_answer? hanswer)
    obtain ⟨es', r', read', hexchanges, hanswers, h'⟩ := ih h₁
    refine ⟨⟨r, call, a⟩ :: es', r', read', ?_, ?_, ?_⟩
    · rw [exchanges?, hanswer, Option.bind_some, hexchanges]
      rfl
    · rw [Reader.answers, hreader, hanswers]
      rfl
    · rwa [List.append_assoc] at h'

end IndexedReader

/-! ## The words of a source -/

/-- The statement is made of lines of the source. Its words are those that are found behind its indent;
a block comment has none. -/
def Statement.ScannedFrom (source : String) (s : Statement) : Prop :=
  ∃ (g : LineGroup) (rest : String), g.lines <:+: lines source ∧ g.Joined ∧ s.text = g.text ∧
    s.text = s.indent ++ rest ∧ s.tokens = if g.IsComment then .ok [] else Scan.statement rest.toList

theorem Draft.text_finish (d : Draft) (n : Nat) : (d.finish n).text = d.text := rfl

theorem Draft.indent_finish (d : Draft) (n : Nat) : (d.finish n).indent = d.indent := rfl

theorem exists_group_of_mem {n : Nat} {gs : List LineGroup} {s : Statement}
    (h : s ∈ groupStatements n gs) : ∃ g ∈ gs, ∃ m, s = g.draft.finish m := by
  induction gs generalizing n with
  | nil => cases h
  | cons g gs ih =>
    rcases List.mem_cons.mp h with rfl | h
    · exact ⟨g, List.mem_cons_self, _, rfl⟩
    · obtain ⟨g', hg', hs⟩ := ih h
      exact ⟨g', List.mem_cons_of_mem _ hg', hs⟩

theorem scannedFrom_of_mem {source : String} {s : Statement} (h : s ∈ statements source) :
    s.ScannedFrom source := by
  obtain ⟨groups, hstatements, hflat, hgrouped⟩ := exists_groups 0 none (by simp) (lines source)
  have hmem : s ∈ groupStatements 0 groups := hstatements ▸ h
  obtain ⟨g, hg, m, rfl⟩ := exists_group_of_mem hmem
  obtain ⟨before, after, hsplit⟩ := List.append_of_mem hg
  obtain ⟨hjoined, -⟩ := hgrouped before g after hsplit
  obtain ⟨rest, hrest, htokens⟩ := LineGroup.tokens_finish hjoined m
  refine ⟨g, rest, ?_, hjoined, ?_, ?_, htokens⟩
  · have hlines : groups.flatMap (·.lines) = lines source := hflat
    rw [← hlines, hsplit, List.flatMap_append, List.flatMap_cons, ← List.append_assoc]
    exact List.infix_append _ _ _
  · rw [Draft.text_finish, LineGroup.text_draft]
  · rw [Draft.text_finish, Draft.indent_finish, LineGroup.text_draft, LineGroup.indent_draft]
    exact hrest

/-- The words are those of the statement last read, whatever has been asked. All calls to a reader of a
source have an answer, in any order and also after faults, so that no word is ever looked up that is not
there; and the reader that forgets the words behind its cursor gives the same answers. No more words have
been read than there are. The statements that have been read are the first ones of the source, one for
each call for the next statement that has not met the end. The words are those of the last of them, as
they are found behind its indent, and none if they cannot be read. Only closing parentheses have been taken
off: from each word as many as there were calls for it while this was the word just read, but not more
than it had, and so none from a word that has not been read. -/
theorem words_stay_as_last_read (source name : String) (calls : List Reader.Call) :
    ∃ es r read, (IndexedReader.ofSource source name).exchanges? calls = some (es, r) ∧
      (Reader.ofSource source name).answers calls = (es.map (·.answer), r.reader) ∧
      r.cursor.position ≤ r.cursor.words.length ∧
      statements source = read ++ r.upcoming ∧
      (∃ k, es.filterMap (·.answer.statement?) =
        read.map (·.found) ++ List.replicate k (.ok false) ∧ (0 < k → r.upcoming = [])) ∧
      r.cursor.words = Token.closeEach (lastWords read) (closings es r) ∧
      (∀ i, r.cursor.position ≤ i → closings es r i = 0) ∧
      ∀ s, read.getLast? = some s → s.ScannedFrom source ∧
        ∀ f, s.tokens = .error f → r.cursor.words = [] := by
  obtain ⟨es, r, read, hexchanges, hanswers, h⟩ := (IndexedReader.Follows.start source name).run calls
  rw [List.nil_append] at h
  refine ⟨es, r, read, hexchanges, hanswers, h.range, h.split, h.found, h.words,
    fun i hi => IndexedReader.closings_eq_zero h.precedes hi, fun s hs => ⟨?_, fun f hf => ?_⟩⟩
  · refine scannedFrom_of_mem ?_
    rw [h.split]
    exact List.mem_append_left _ (List.mem_of_getLast? hs)
  · rw [h.words, lastWords, hs, Option.elim_some, Statement.words_of_error hf]
    rfl

/-- A word has two closing parentheses, and there are three calls to take one off. Then the words of the
next statement cannot be read. -/
example :
    let r := IndexedReader.ofSource "f(x))\n'" "s"
    let calls := [.nextStatement, .nextWord, .nextWord, .closeOne, .closeOne, .closeOne]
    (r.exchanges? calls).map (fun p => (p.2.cursor.words.map (·.tail.closes), closings p.1 p.2 1)) =
        some ([0, 0], 3) ∧
      (r.exchanges? (calls ++ [.nextStatement, .tail, .closeOne])).map (·.2.cursor) = some {} := by
  decide +kernel

end InstallScript
