import Mathlib.Data.List.Infix
import InstallScript.Proofs.Trees

/-!
Strings as the target language reads them. A dollar sign with the name of a variable behind it stands
for the value of the variable, and the name is taken as long as it can be. So what a text means may
depend on what is written behind it: a text can capture the beginning of the next one. Main statement:
texts that are written as one mean what they mean one by one, for all values of the variables, exactly
if none of them captures anything (`interpolate_join_iff`).
-/

namespace InstallScript

/-- What a text consists of: characters that stand for themselves, and variables. -/
inductive Element
  | char (c : Char)
  | var (name : String)
deriving DecidableEq

def Element.value (store : String → String) : Element → String
  | char c => String.singleton c
  | var n => store n

/-- The longest name of a variable that the characters begin with. -/
def longest? (names : List String) (cs : List Char) : Option (List Char) :=
  ((cs.takeWhile Scan.isNameRest).inits.filter fun p => String.ofList p ∈ names).getLast?

/-- The elements of a text, of which the first `skip` characters belong to the name just read. -/
def elements (names : List String) : Nat → List Char → List Element
  | _, [] => []
  | skip + 1, _ :: cs => elements names skip cs
  | 0, c :: cs =>
    match if c = '$' then longest? names cs else none with
    | some p => .var (String.ofList p) :: elements names p.length cs
    | none => .char c :: elements names 0 cs

/-- The value of a text where the variables have the values of a store. -/
def interpolate (names : List String) (store : String → String) (s : String) : String :=
  String.join ((elements names 0 s.toList).map (Element.value store))

/-- A variable at the end of the first text becomes another one when the second text follows: the name
goes on in it. -/
def Captures (names : List String) (left right : List Char) : Prop :=
  ∃ before name more, left = before ++ '$' :: name ∧ more ≠ [] ∧ more <+: right ∧
    (name ++ more).all Scan.isNameRest ∧ String.ofList (name ++ more) ∈ names

variable {names : List String} {p r : List Char}

namespace Captures

theorem cons (c : Char) (h : Captures names p r) : Captures names (c :: p) r := by
  obtain ⟨before, name, more, hp, h⟩ := h
  exact ⟨c :: before, name, more, by rw [hp, List.cons_append], h⟩

theorem append_left (q : List Char) (h : Captures names p r) : Captures names (q ++ p) r := by
  induction q with
  | nil => exact h
  | cons c q ih => exact ih.cons c

theorem dollar {more : List Char} (hmore : more ≠ []) (hr : more <+: r)
    (hall : (p ++ more).all Scan.isNameRest) (hmem : String.ofList (p ++ more) ∈ names) :
    Captures names ('$' :: p) r :=
  ⟨[], p, more, rfl, hmore, hr, hall, hmem⟩

/-- What two texts capture is captured by the second one, or by the first one that then captures the
second. -/
theorem of_append {q : List Char} (h : Captures names (p ++ q) r) :
    Captures names p (q ++ r) ∨ Captures names q r := by
  obtain ⟨before, name, more, hpq, hne, hr, hall, hmem⟩ := h
  rcases List.append_eq_append_iff.mp hpq with ⟨before', rfl, hq⟩ | ⟨rest, rfl, hrest⟩
  · exact .inr ⟨before', name, more, hq, hne, hr, hall, hmem⟩
  · rcases List.cons_eq_append_iff.mp hrest with ⟨_, hq⟩ | ⟨name', rfl, rfl⟩
    · exact .inr ⟨[], name, more, hq, hne, hr, hall, hmem⟩
    · rw [List.append_assoc] at hall hmem
      exact .inl ⟨before, name', q ++ more, rfl, by simp [hne], (List.prefix_append_right_inj q).mpr hr,
        hall, hmem⟩

end Captures

theorem not_captures_nil : ¬Captures names [] r := by
  rintro ⟨before, name, more, h, _⟩
  simp at h

/-! ## The longest name -/

theorem longest?_some {cs q : List Char} (h : longest? names cs = some q) : q <+: cs := by
  have hq := List.mem_of_getLast? h
  rw [List.mem_filter, List.mem_inits] at hq
  exact hq.1.trans (List.takeWhile_prefix _)

/-- The names that begin with `p` and go on in `r`. -/
def longer (names : List String) (p r : List Char) : List (List Char) :=
  ((r.takeWhile Scan.isNameRest).inits.tail.map (p ++ ·)).filter fun q => String.ofList q ∈ names

theorem mem_tail_inits {q l : List Char} : q ∈ l.inits.tail ↔ q ≠ [] ∧ q <+: l := by
  rw [← List.mem_inits]
  cases l with
  | nil => simp
  | cons c l => cases q <;> simp

theorem prefix_takeWhile_iff {q : List Char} : q <+: r.takeWhile Scan.isNameRest ↔
    q <+: r ∧ q.all Scan.isNameRest := by
  constructor
  · intro h
    refine ⟨h.trans (List.takeWhile_prefix _), List.all_eq_true.mpr fun c hc => ?_⟩
    exact List.all_eq_true.mp List.all_takeWhile c (h.subset hc)
  · rintro ⟨⟨s, rfl⟩, h⟩
    rw [List.takeWhile_append_of_pos (List.all_eq_true.mp h)]
    exact List.prefix_append _ _

theorem mem_longer {q : List Char} : q ∈ longer names p r ↔
    ∃ more, q = p ++ more ∧ more ≠ [] ∧ more <+: r ∧ more.all Scan.isNameRest ∧
      String.ofList q ∈ names := by
  simp only [longer, List.mem_filter, List.mem_map, mem_tail_inits, prefix_takeWhile_iff,
    decide_eq_true_eq]
  constructor
  · rintro ⟨⟨more, ⟨hne, hr, hall⟩, rfl⟩, hmem⟩
    exact ⟨more, rfl, hne, hr, hall, hmem⟩
  · rintro ⟨more, rfl, hne, hr, hall, hmem⟩
    exact ⟨⟨more, ⟨hne, hr, hall⟩, rfl⟩, hmem⟩

/-- Names that go on behind a text come after its own, which are shorter. -/
theorem longest?_append_of_all (h : p.all Scan.isNameRest) (r : List Char) :
    longest? names (p ++ r) = (longer names p r).getLast?.or (longest? names p) := by
  have hp : p.takeWhile Scan.isNameRest = p := (List.takeWhile_prefix _).eq_of_length_le
    (prefix_takeWhile_iff.mpr ⟨List.prefix_rfl, h⟩).length_le
  unfold longest? longer
  rw [List.takeWhile_append_of_pos (List.all_eq_true.mp h), List.inits_append, List.filter_append,
    List.getLast?_append, hp]

theorem longest?_append (h : ¬Captures names ('$' :: p) r) :
    longest? names (p ++ r) = longest? names p := by
  by_cases hall : p.all Scan.isNameRest
  · have hnone : longer names p r = [] := by
      rw [List.eq_nil_iff_forall_not_mem]
      intro q hq
      obtain ⟨more, rfl, hne, hr, hmore, hmem⟩ := mem_longer.mp hq
      exact h (.dollar hne hr (by rw [List.all_append, hall, hmore]; rfl) hmem)
    rw [longest?_append_of_all hall, hnone]
    rfl
  · unfold longest?
    rw [List.takeWhile_append, if_neg]
    intro hlen
    have heq := (List.takeWhile_prefix (l := p) Scan.isNameRest).eq_of_length hlen
    rw [← heq] at hall
    exact hall List.all_takeWhile

/-- A capture takes a name that is longer than what is there of it. -/
theorem longest?_of_captured {more : List Char} (hmore : more ≠ []) (hr : more <+: r)
    (hall : (p ++ more).all Scan.isNameRest) (hmem : String.ofList (p ++ more) ∈ names) :
    ∃ q, longest? names (p ++ r) = some q ∧ p.length < q.length := by
  rw [List.all_append, Bool.and_eq_true] at hall
  have hlonger : p ++ more ∈ longer names p r := mem_longer.mpr ⟨more, rfl, hmore, hr, hall.2, hmem⟩
  have hlast := List.getLast?_eq_some_getLast (List.ne_nil_of_mem hlonger)
  rw [longest?_append_of_all hall.1, hlast]
  refine ⟨_, rfl, ?_⟩
  obtain ⟨more', hq, hne, _⟩ := mem_longer.mp (List.mem_of_getLast? hlast)
  rw [hq, List.length_append]
  exact Nat.lt_add_of_pos_right (List.length_pos_of_ne_nil hne)

/-! ## Texts one behind the other -/

theorem elements_append (h : ¬Captures names p r) {skip : Nat} (hs : skip ≤ p.length) :
    elements names skip (p ++ r) = elements names skip p ++ elements names 0 r := by
  induction p generalizing skip with
  | nil =>
    cases Nat.le_zero.mp hs
    rfl
  | cons c p ih =>
    have ih' := @ih fun hc => h (hc.cons c)
    cases skip with
    | succ skip => exact ih' (Nat.le_of_succ_le_succ hs)
    | zero =>
      rw [List.cons_append, elements, elements]
      have hname : (if c = '$' then longest? names (p ++ r) else none) =
          if c = '$' then longest? names p else none := by
        split
        · next hc => exact longest?_append (hc ▸ h)
        · rfl
      rw [hname]
      split
      · next q hq =>
        have hlen : q.length ≤ p.length := by
          split at hq
          · exact (longest?_some hq).length_le
          · cases hq
        rw [ih' hlen, List.cons_append]
      · rw [ih' (Nat.zero_le _), List.cons_append]

/-- A dollar sign is in no name. -/
theorem elements_append_dollar (p r : List Char) :
    elements names 0 (p ++ '$' :: r) = elements names 0 p ++ elements names 0 ('$' :: r) := by
  refine elements_append ?_ (Nat.zero_le _)
  rintro ⟨before, name, more, _, hne, hr, hall, _⟩
  obtain ⟨c, cs, rfl⟩ := List.exists_cons_of_ne_nil hne
  rw [(List.cons_prefix_cons.mp hr).1, List.all_append, List.all_cons] at hall
  exact absurd hall (by simp [Scan.isNameRest])

/-- After a capture the text does not begin with the elements that it had. -/
theorem elements_of_captures (h : Captures names p r) (es : List Element) :
    elements names 0 (p ++ r) ≠ elements names 0 p ++ es := by
  obtain ⟨before, name, more, rfl, hne, hr, hall, hmem⟩ := h
  obtain ⟨q, hq, hlen⟩ := longest?_of_captured hne hr hall hmem
  rw [List.append_assoc, List.cons_append, elements_append_dollar, elements_append_dollar,
    List.append_assoc, Ne, List.append_cancel_left_eq]
  rw [elements, elements, if_pos rfl, if_pos rfl, hq]
  cases hq' : longest? names name with
  | none => simp
  | some q' =>
    intro heq
    have hname : String.ofList q = String.ofList q' := Element.var.inj (List.cons.inj heq).1
    have hle := (longest?_some hq').length_le
    rw [String.ofList_inj.mp hname] at hlen
    omega

/-- Texts have together the elements that they have one by one exactly if no text, with those before
it, captures what follows. -/
theorem elements_flatten_iff (names : List String) (texts : List (List Char)) :
    elements names 0 texts.flatten = texts.flatMap (elements names 0) ↔
      ∀ i, ¬Captures names (texts.take i).flatten (texts.drop i).flatten := by
  induction texts with
  | nil => simp [elements, not_captures_nil]
  | cons t ts ih =>
    rw [List.flatten_cons, List.flatMap_cons]
    constructor
    · intro h
      have hfirst : ¬Captures names t ts.flatten := fun hc => elements_of_captures hc _ h
      rw [elements_append hfirst (Nat.zero_le _), List.append_cancel_left_eq] at h
      rintro (_ | i) hc
      · exact not_captures_nil hc
      · rw [List.take_succ_cons, List.flatten_cons, List.drop_succ_cons] at hc
        rcases hc.of_append with hc | hc
        · rw [← List.flatten_append, List.take_append_drop] at hc
          exact hfirst hc
        · exact ih.mp h i hc
    · intro h
      rw [elements_append (by simpa using h 1) (Nat.zero_le _), ih.mpr]
      intro i hc
      refine h (i + 1) ?_
      rw [List.take_succ_cons, List.flatten_cons, List.drop_succ_cons]
      exact hc.append_left t

/-! ## Values -/

/-- What is seen of an element where every variable has a single character as its value. -/
def Element.shown (store : String → Char) : Element → Char
  | char c => c
  | var n => store n

theorem toList_values (store : String → Char) (es : List Element) :
    (String.join (es.map (Element.value fun n => String.singleton (store n)))).toList =
      es.map (Element.shown store) := by
  rw [String.toList_join, List.flatMap_map]
  induction es with
  | nil => rfl
  | cons e es ih =>
    rw [List.flatMap_cons, ih, List.map_cons]
    cases e <;> simp [Element.value, Element.shown]

theorem Element.eq_of_shown {e f : Element} (h : ∀ store, e.shown store = f.shown store) : e = f := by
  have hne : ∀ c : Char, c ≠ if c = 'a' then 'b' else 'a' := by
    intro c
    split
    · next hc => rw [hc]; decide
    · next hc => exact hc
  match e, f with
  | char c, char d => exact congrArg char (h fun _ => c)
  | char c, var n => exact absurd (h fun _ => if c = 'a' then 'b' else 'a') (hne c)
  | var n, char c => exact absurd (h fun _ => if c = 'a' then 'b' else 'a').symm (hne c)
  | var n, var m =>
    have hm := h fun k => if k = n then 'a' else 'b'
    by_cases hnm : m = n
    · rw [hnm]
    · simp [shown, hnm] at hm

theorem eq_of_shown {es fs : List Element}
    (h : ∀ store, es.map (Element.shown store) = fs.map (Element.shown store)) : es = fs := by
  induction es generalizing fs with
  | nil =>
    cases fs with
    | nil => rfl
    | cons f fs => simp at h
  | cons e es ih =>
    cases fs with
    | nil => simp at h
    | cons f fs =>
      have hhead := Element.eq_of_shown fun store => (List.cons.inj (h store)).1
      rw [hhead, ih fun store => (List.cons.inj (h store)).2]

/-- Elements that have one value in every store are the same. -/
theorem values_eq_iff {es fs : List Element} :
    (∀ store, String.join (es.map (Element.value store)) =
      String.join (fs.map (Element.value store))) ↔ es = fs := by
  refine ⟨fun h => eq_of_shown fun store => ?_, fun h _ => by rw [h]⟩
  rw [← toList_values, ← toList_values, h]

/-- Texts that are written as one mean in every store what they mean one by one exactly if none of
them, with those before it, captures what follows. -/
theorem interpolate_join_iff (names texts : List String) :
    (∀ store, interpolate names store (String.join texts) =
      String.join (texts.map (interpolate names store))) ↔
    ∀ i, ¬Captures names (String.join (texts.take i)).toList (String.join (texts.drop i)).toList := by
  have hvalue : ∀ store, String.join (texts.map (interpolate names store)) =
      String.join ((texts.flatMap fun s => elements names 0 s.toList).map (Element.value store)) := by
    intro store
    rw [← String.toList_inj, String.toList_join, String.toList_join]
    simp only [List.flatMap_map, List.flatMap_assoc, List.map_flatMap, interpolate, String.toList_join]
  have hflat := elements_flatten_iff names (texts.map String.toList)
  simp only [← List.map_take, ← List.map_drop, ← List.flatMap_def, List.flatMap_map] at hflat
  simp only [hvalue, interpolate, values_eq_iff, String.toList_join]
  exact hflat

end InstallScript
