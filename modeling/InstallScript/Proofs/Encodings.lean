import Mathlib.Data.List.Infix
import InstallScript.Text.Encoding

/-!
Texts come back from their bytes, and bytes from the text they were read as, up to the byte-order mark.

* `Utf8.decodeChar_encodeChar` and `Utf8.encodeChar_decodeChar`: each character has one sequence of
  bytes, and no other sequence is read.
* `Utf16.decode_eq_none`: units make no text exactly if a surrogate among them has no partner.
* `Encoding.decode_inverts_encode`: both ways for all encodings.
-/

namespace InstallScript

/-- Code points below the surrogates or above them. -/
theorem toNat_char (c : Char) : c.toNat < 0xD800 ∨ 0xDFFF < c.toNat ∧ c.toNat < 0x110000 := c.valid

theorem toNat_ofNat {n : Nat} (h : n < 0xD800 ∨ 0xDFFF < n ∧ n < 0x110000) :
    (Char.ofNat n).toNat = n := by
  rw [Char.ofNat, dif_pos h]
  rfl

theorem toNat_byte {n : Nat} (h : n < 256) : (UInt8.ofNat n).toNat = n := by
  rw [UInt8.toNat_ofNat', Nat.mod_eq_of_lt h]

theorem byte_of_toNat {n : Nat} {b : UInt8} (h : n = b.toNat) : UInt8.ofNat n = b := by
  rw [h, UInt8.ofNat_toNat]

/-! ## UTF-8 -/

namespace Utf8

/-- The sequence of a code point: its bytes lie in the ranges that make it the shortest one, and that
leave out the surrogates and what is too large. -/
inductive Sequence : Bytes → Nat → Prop
  | one {a : UInt8} (ha : a.toNat < 0x80) : Sequence [a] a.toNat
  | two {a b : UInt8} (ha : 0xC2 ≤ a.toNat ∧ a.toNat ≤ 0xDF) (hb : 0x80 ≤ b.toNat ∧ b.toNat ≤ 0xBF) :
      Sequence [a, b] ((a.toNat - 0xC0) * 64 + (b.toNat - 0x80))
  | three {a b c : UInt8} (ha : 0xE0 ≤ a.toNat ∧ a.toNat ≤ 0xEF)
      (hb : (if a.toNat = 0xE0 then 0xA0 else 0x80) ≤ b.toNat ∧
        b.toNat ≤ if a.toNat = 0xED then 0x9F else 0xBF)
      (hc : 0x80 ≤ c.toNat ∧ c.toNat ≤ 0xBF) :
      Sequence [a, b, c] ((a.toNat - 0xE0) * 4096 + (b.toNat - 0x80) * 64 + (c.toNat - 0x80))
  | four {a b c d : UInt8} (ha : 0xF0 ≤ a.toNat ∧ a.toNat ≤ 0xF4)
      (hb : (if a.toNat = 0xF0 then 0x90 else 0x80) ≤ b.toNat ∧
        b.toNat ≤ if a.toNat = 0xF4 then 0x8F else 0xBF)
      (hc : 0x80 ≤ c.toNat ∧ c.toNat ≤ 0xBF) (hd : 0x80 ≤ d.toNat ∧ d.toNat ≤ 0xBF) :
      Sequence [a, b, c, d] ((a.toNat - 0xF0) * 262144 + (b.toNat - 0x80) * 4096 +
        (c.toNat - 0x80) * 64 + (d.toNat - 0x80))

/-- A further byte is there and in its range, and the rest goes on behind it. -/
theorem further_bind_eq_ok {α : Type} {lo hi seen : Nat} {bs : Bytes}
    {k : Nat × Bytes → Except Flaw α} {r : α} : (further lo hi seen bs >>= k) = .ok r ↔
      ∃ (b : UInt8) (rest : Bytes), bs = b :: rest ∧ (lo ≤ b.toNat ∧ b.toNat ≤ hi) ∧
        k (b.toNat - 0x80, rest) = .ok r := by
  cases bs with
  | nil => simp [further, bind, Except.bind]
  | cons b bs =>
    by_cases hb : lo ≤ b.toNat ∧ b.toNat ≤ hi
    · simp [further, bind, Except.bind, hb]
    · simp only [further, Bool.and_eq_true, decide_eq_true_eq, hb, if_false]
      refine iff_of_false ?_ ?_
      · rintro ⟨⟩
      · rintro ⟨_, _, hcons, hrange, -⟩
        exact hb ((List.cons.inj hcons).1 ▸ hrange)

/-- A character is read from its sequence and from nothing else. -/
theorem decodeChar_eq_ok {a : UInt8} {bs rest : Bytes} {c : Char} :
    decodeChar a bs = .ok (c, rest) ↔ ∃ s n, a :: bs = s ++ rest ∧ Sequence s n ∧ c = Char.ofNat n := by
  constructor
  · intro h
    unfold decodeChar at h
    dsimp only at h
    split at h
    · next ha =>
      cases h
      exact ⟨_, _, rfl, .one ha, rfl⟩
    split at h
    · next ha =>
      obtain ⟨b, bs₁, rfl, hb, h₁⟩ := further_bind_eq_ok.mp h
      simp only [pure, Except.pure, Except.ok.injEq, Prod.mk.injEq] at h₁
      exact ⟨_, _, by rw [← h₁.2]; rfl, .two (by simpa using ha) hb, h₁.1.symm⟩
    split at h
    · next ha =>
      obtain ⟨b, bs₁, rfl, hb, h₁⟩ := further_bind_eq_ok.mp h
      obtain ⟨c, bs₂, rfl, hc, h₂⟩ := further_bind_eq_ok.mp h₁
      simp only [pure, Except.pure, Except.ok.injEq, Prod.mk.injEq] at h₂
      exact ⟨_, _, by rw [← h₂.2]; rfl, .three (by simpa using ha) hb hc, h₂.1.symm⟩
    split at h
    · next ha =>
      obtain ⟨b, bs₁, rfl, hb, h₁⟩ := further_bind_eq_ok.mp h
      obtain ⟨c, bs₂, rfl, hc, h₂⟩ := further_bind_eq_ok.mp h₁
      obtain ⟨d, bs₃, rfl, hd, h₃⟩ := further_bind_eq_ok.mp h₂
      simp only [pure, Except.pure, Except.ok.injEq, Prod.mk.injEq] at h₃
      exact ⟨_, _, by rw [← h₃.2]; rfl, .four (by simpa using ha) hb hc hd, h₃.1.symm⟩
    · cases h
  · rintro ⟨s, n, hs, hseq, rfl⟩
    unfold decodeChar
    dsimp only
    cases hseq with
    | one ha =>
      cases hs
      rw [if_pos ha]
      rfl
    | two ha hb =>
      cases hs
      rw [if_neg (by omega), if_pos (by simpa using ha), further_bind_eq_ok]
      exact ⟨_, _, rfl, hb, rfl⟩
    | three ha hb hc =>
      cases hs
      rw [if_neg (by omega), if_neg (by simp; omega), if_pos (by simpa using ha), further_bind_eq_ok]
      exact ⟨_, _, rfl, hb, further_bind_eq_ok.mpr ⟨_, _, rfl, hc, rfl⟩⟩
    | four ha hb hc hd =>
      cases hs
      rw [if_neg (by omega), if_neg (by simp; omega), if_neg (by simp; omega),
        if_pos (by simpa using ha), further_bind_eq_ok]
      exact ⟨_, _, rfl, hb, further_bind_eq_ok.mpr ⟨_, _, rfl, hc,
        further_bind_eq_ok.mpr ⟨_, _, rfl, hd, rfl⟩⟩⟩

/-- The bytes of a character are its sequence. -/
theorem sequence_encodeChar (c : Char) : Sequence (encodeChar c) c.toNat := by
  have hc := toNat_char c
  unfold encodeChar
  dsimp only
  split
  · next h =>
    have hseq := Sequence.one (a := .ofNat c.toNat) (by rw [toNat_byte] <;> omega)
    rwa [toNat_byte (by omega)] at hseq
  split
  · next h₁ h₂ =>
    have hseq := Sequence.two (a := .ofNat (0xC0 + c.toNat / 64)) (b := .ofNat (0x80 + c.toNat % 64))
      (by rw [toNat_byte] <;> omega) (by rw [toNat_byte] <;> omega)
    rw [toNat_byte (by omega), toNat_byte (by omega)] at hseq
    convert hseq using 1
    omega
  split
  · next h₁ h₂ h₃ =>
    have ha := toNat_byte (show 0xE0 + c.toNat / 4096 < 256 by omega)
    have hb := toNat_byte (show 0x80 + c.toNat / 64 % 64 < 256 by omega)
    have hd := toNat_byte (show 0x80 + c.toNat % 64 < 256 by omega)
    have hseq := Sequence.three (a := .ofNat (0xE0 + c.toNat / 4096))
      (b := .ofNat (0x80 + c.toNat / 64 % 64)) (c := .ofNat (0x80 + c.toNat % 64))
      (by rw [ha]; omega) (by rw [ha, hb]; split <;> split <;> omega) (by rw [hd]; omega)
    rw [ha, hb, hd] at hseq
    convert hseq using 1
    omega
  · next h₁ h₂ h₃ =>
    have ha := toNat_byte (show 0xF0 + c.toNat / 262144 < 256 by omega)
    have hb := toNat_byte (show 0x80 + c.toNat / 4096 % 64 < 256 by omega)
    have hd := toNat_byte (show 0x80 + c.toNat / 64 % 64 < 256 by omega)
    have he := toNat_byte (show 0x80 + c.toNat % 64 < 256 by omega)
    have hseq := Sequence.four (a := .ofNat (0xF0 + c.toNat / 262144))
      (b := .ofNat (0x80 + c.toNat / 4096 % 64)) (c := .ofNat (0x80 + c.toNat / 64 % 64))
      (d := .ofNat (0x80 + c.toNat % 64)) (by rw [ha]; omega)
      (by rw [ha, hb]; split <;> split <;> omega) (by rw [hd]; omega) (by rw [he]; omega)
    rw [ha, hb, hd, he] at hseq
    convert hseq using 1
    omega

/-- A code point has one sequence only. -/
theorem Sequence.encodeChar_ofNat {s : Bytes} {n : Nat} (h : Sequence s n) :
    encodeChar (Char.ofNat n) = s := by
  unfold encodeChar
  cases h with
  | @one a ha =>
    rw [toNat_ofNat (by omega)]
    simp only [ha, if_true, byte_of_toNat rfl]
  | @two a b ha hb =>
    rw [toNat_ofNat (by omega)]
    dsimp only
    rw [if_neg (by omega), if_pos (by omega), byte_of_toNat (b := a) (by omega),
      byte_of_toNat (b := b) (by omega)]
  | @three a b c ha hb hc =>
    have hrange : 0xA0 ≤ b.toNat ∨ a.toNat ≠ 0xE0 := by grind
    have hrange' : b.toNat ≤ 0x9F ∨ a.toNat ≠ 0xED := by grind
    have hb : 0x80 ≤ b.toNat ∧ b.toNat ≤ 0xBF := by grind
    rw [toNat_ofNat (by omega)]
    dsimp only
    rw [if_neg (by omega), if_neg (by omega), if_pos (by omega), byte_of_toNat (b := a) (by omega),
      byte_of_toNat (b := b) (by omega), byte_of_toNat (b := c) (by omega)]
  | @four a b c d ha hb hc hd =>
    have hrange : 0x90 ≤ b.toNat ∨ a.toNat ≠ 0xF0 := by grind
    have hrange' : b.toNat ≤ 0x8F ∨ a.toNat ≠ 0xF4 := by grind
    have hb : 0x80 ≤ b.toNat ∧ b.toNat ≤ 0xBF := by grind
    rw [toNat_ofNat (by omega)]
    dsimp only
    rw [if_neg (by omega), if_neg (by omega), if_neg (by omega), byte_of_toNat (b := a) (by omega),
      byte_of_toNat (b := b) (by omega), byte_of_toNat (b := c) (by omega),
      byte_of_toNat (b := d) (by omega)]

theorem decodeChar_encodeChar (c : Char) (rest : Bytes) :
    ∃ b bs, encodeChar c = b :: bs ∧ decodeChar b (bs ++ rest) = .ok (c, rest) := by
  have hseq := sequence_encodeChar c
  match hb : encodeChar c with
  | [] =>
    rw [hb] at hseq
    cases hseq
  | b :: bs =>
    rw [hb] at hseq
    exact ⟨b, bs, rfl, decodeChar_eq_ok.mpr ⟨_, _, rfl, hseq, (Char.ofNat_toNat c).symm⟩⟩

theorem encodeChar_decodeChar {b : UInt8} {bs rest : Bytes} {c : Char}
    (h : decodeChar b bs = .ok (c, rest)) : encodeChar c ++ rest = b :: bs := by
  obtain ⟨s, n, hs, hseq, rfl⟩ := decodeChar_eq_ok.mp h
  rw [hseq.encodeChar_ofNat, hs]

/-- Characters are read from their sequences. -/
theorem decodeFrom_flatMap (place : Nat) (cs : List Char) :
    decodeFrom place (cs.flatMap encodeChar) = .ok cs := by
  induction cs generalizing place with
  | nil => rw [List.flatMap_nil, decodeFrom]
  | cons c cs ih =>
    obtain ⟨b, bs, hc, hdecode⟩ := decodeChar_encodeChar c (cs.flatMap encodeChar)
    rw [List.flatMap_cons, hc, List.cons_append, decodeFrom]
    split
    · next h => cases hdecode.symm.trans h
    · next h => cases hdecode.symm.trans h
    · next h =>
      cases hdecode.symm.trans h
      rw [ih]
      rfl

theorem flatMap_of_decodeFrom {place : Nat} {bs : Bytes} {cs : List Char}
    (h : decodeFrom place bs = .ok cs) : cs.flatMap encodeChar = bs := by
  fun_induction decodeFrom place bs generalizing cs with
  | case1 =>
    cases h
    rfl
  | case2 => cases h
  | case3 => cases h
  | case4 place b bs c rest hchar ih =>
    cases hcs : decodeFrom (place + 1 + (bs.length - rest.length)) rest with
    | error f =>
      rw [hcs] at h
      cases h
    | ok ds =>
      rw [hcs] at h
      cases h
      rw [List.flatMap_cons, ih hcs, encodeChar_decodeChar hchar]

/-- The three bytes of the mark are read as one character. -/
theorem head?_of_decodeFrom {place : Nat} {bs : Bytes} {cs : List Char}
    (h : decodeFrom place (0xEF :: 0xBB :: 0xBF :: bs) = .ok cs) : cs.head? = some '\uFEFF' := by
  have hmark : decodeChar 0xEF (0xBB :: 0xBF :: bs) = .ok ('\uFEFF', bs) := by rfl
  rw [decodeFrom] at h
  split at h
  · cases h
  · cases h
  · next hchar =>
    cases hmark.symm.trans hchar
    cases hcs : decodeFrom (place + 1 + ((0xBB :: 0xBF :: bs : Bytes).length - bs.length)) bs with
    | error f =>
      rw [hcs] at h
      cases h
    | ok ds =>
      rw [hcs] at h
      cases h
      rfl

/-- The bytes of a text begin with a byte-order mark only if the text does. -/
theorem unmarked_flatMap {cs : List Char} (h : cs.head? ≠ some '\uFEFF') :
    unmarked (cs.flatMap encodeChar) = cs.flatMap encodeChar := by
  unfold unmarked
  split
  · next bs hbs =>
    have hdecode := decodeFrom_flatMap 0 cs
    rw [hbs] at hdecode
    exact absurd (head?_of_decodeFrom hdecode) h
  · rfl

end Utf8

/-! ## UTF-16 -/

namespace Utf16

/-- A surrogate that has no partner: a high one needs a low one behind it, a low one a high one in front
of it. -/
def Unpaired (us : List Nat) (i : Nat) : Prop :=
  ∃ u, us[i]? = some u ∧
    (isHigh u ∧ (∀ v, us[i + 1]? = some v → isLow v = false) ∨
      isLow u ∧ ∀ j, i = j + 1 → ∀ v, us[j]? = some v → isHigh v = false)

theorem unit_lt (o : Order) (a b : UInt8) : unit o a b < 0x10000 := by
  have ha := a.toNat_lt
  have hb := b.toNat_lt
  cases o <;> simp only [unit] <;> omega

theorem unitBytes_unit (o : Order) (a b : UInt8) : unitBytes o (unit o a b) = [a, b] := by
  have ha := a.toNat_lt
  have hb := b.toNat_lt
  cases o <;> simp only [unitBytes, unit] <;>
    rw [byte_of_toNat (b := a) (by omega), byte_of_toNat (b := b) (by omega)]

theorem exists_unitBytes (o : Order) {u : Nat} (h : u < 0x10000) :
    ∃ a b, unitBytes o u = [a, b] ∧ unit o a b = u := by
  have hlow := toNat_byte (show u % 256 < 256 by omega)
  have hhigh := toNat_byte (show u / 256 < 256 by omega)
  cases o <;> refine ⟨_, _, rfl, ?_⟩ <;> simp only [unit, hlow, hhigh] <;> omega

/-- Units are read back from their bytes. -/
theorem units_flatMap (o : Order) {us : List Nat} (h : ∀ u ∈ us, u < 0x10000) :
    units o (us.flatMap (unitBytes o)) = some us := by
  induction us with
  | nil => rfl
  | cons u us ih =>
    obtain ⟨hu, hus⟩ := List.forall_mem_cons.mp h
    obtain ⟨a, b, hbytes, hunit⟩ := exists_unitBytes o hu
    rw [List.flatMap_cons, hbytes, List.cons_append, List.cons_append, List.nil_append, units, ih hus,
      hunit]
    rfl

theorem units_eq_some {o : Order} {bs : Bytes} {us : List Nat} (h : units o bs = some us) :
    us.flatMap (unitBytes o) = bs ∧ ∀ u ∈ us, u < 0x10000 := by
  fun_induction units o bs generalizing us with
  | case1 =>
    cases h
    exact ⟨rfl, fun u hu => absurd hu List.not_mem_nil⟩
  | case2 => cases h
  | case3 a b bs ih =>
    obtain ⟨vs, hvs, rfl⟩ := Option.map_eq_some_iff.mp h
    obtain ⟨hbytes, hlt⟩ := ih hvs
    refine ⟨?_, List.forall_mem_cons.mpr ⟨unit_lt o a b, hlt⟩⟩
    rw [List.flatMap_cons, hbytes, unitBytes_unit]
    rfl

theorem units_eq_none {o : Order} {bs : Bytes} : units o bs = none ↔ bs.length % 2 = 1 := by
  fun_induction units o bs with
  | case1 => simp
  | case2 => simp
  | case3 a b bs ih =>
    rw [Option.map_eq_none_iff, ih, List.length_cons, List.length_cons]
    omega

/-! ### Characters -/

/-- No surrogate is both a high and a low one. -/
theorem isLow_of_isHigh {u : Nat} (h : isHigh u) : isLow u = false := by
  simp only [isHigh, isLow, Bool.and_eq_true, decide_eq_true_eq, Bool.and_eq_false_imp,
    decide_eq_false_iff_not] at h ⊢
  omega

theorem decode_plain {u : Nat} (hh : isHigh u = false) (hl : isLow u = false) (us : List Nat) :
    decode (u :: us) = (decode us).map (Char.ofNat u :: ·) := by
  cases us <;> simp [decode, hh, hl]

theorem decode_pair {u v : Nat} (hu : isHigh u) (hv : isLow v) (us : List Nat) :
    decode (u :: v :: us) =
      (decode us).map (Char.ofNat (0x10000 + (u - 0xD800) * 1024 + (v - 0xDC00)) :: ·) := by
  simp [decode, hu, hv]

theorem decode_encodeChar (c : Char) (us : List Nat) :
    decode (encodeChar c ++ us) = (decode us).map (c :: ·) := by
  have hc := toNat_char c
  unfold encodeChar
  dsimp only
  split
  · rw [List.cons_append, List.nil_append, decode_plain, Char.ofNat_toNat]
    · simp only [isHigh, Bool.and_eq_false_imp, decide_eq_true_eq, decide_eq_false_iff_not]
      omega
    · simp only [isLow, Bool.and_eq_false_imp, decide_eq_true_eq, decide_eq_false_iff_not]
      omega
  · have hcode : 0x10000 + (0xD800 + (c.toNat - 0x10000) / 1024 - 0xD800) * 1024 +
        (0xDC00 + (c.toNat - 0x10000) % 1024 - 0xDC00) = c.toNat := by omega
    rw [List.cons_append, List.cons_append, List.nil_append, decode_pair, hcode, Char.ofNat_toNat]
    · simp only [isHigh, Bool.and_eq_true, decide_eq_true_eq]
      omega
    · simp only [isLow, Bool.and_eq_true, decide_eq_true_eq]
      omega

theorem decode_flatMap (cs : List Char) : decode (cs.flatMap encodeChar) = some cs := by
  induction cs with
  | nil => rfl
  | cons c cs ih =>
    rw [List.flatMap_cons, decode_encodeChar, ih]
    rfl

/-- The units of a character that was read are the units it was read from. -/
theorem encodeChar_plain {u : Nat} (hu : u < 0x10000) (hh : isHigh u = false) (hl : isLow u = false) :
    encodeChar (Char.ofNat u) = [u] := by
  simp only [isHigh, isLow, Bool.and_eq_false_imp, decide_eq_true_eq, decide_eq_false_iff_not] at hh hl
  have hcode : (Char.ofNat u).toNat = u := toNat_ofNat (by omega)
  unfold encodeChar
  rw [hcode]
  exact if_pos hu

theorem encodeChar_pair {u v : Nat} (hu : isHigh u) (hv : isLow v) :
    encodeChar (Char.ofNat (0x10000 + (u - 0xD800) * 1024 + (v - 0xDC00))) = [u, v] := by
  simp only [isHigh, isLow, Bool.and_eq_true, decide_eq_true_eq] at hu hv
  unfold encodeChar
  rw [toNat_ofNat (by omega)]
  have hhigh : 0xD800 + (0x10000 + (u - 0xD800) * 1024 + (v - 0xDC00) - 0x10000) / 1024 = u := by
    omega
  have hlow : 0xDC00 + (0x10000 + (u - 0xD800) * 1024 + (v - 0xDC00) - 0x10000) % 1024 = v := by
    omega
  dsimp only
  rw [if_neg (by omega), hhigh, hlow]

theorem flatMap_of_decode {us : List Nat} {cs : List Char} (hlt : ∀ u ∈ us, u < 0x10000)
    (h : decode us = some cs) : cs.flatMap encodeChar = us := by
  fun_induction decode us generalizing cs with
  | case1 =>
    cases h
    rfl
  | case2 => cases h
  | case3 u hu =>
    cases h
    simp only [Bool.or_eq_true, not_or, Bool.not_eq_true] at hu
    rw [List.flatMap_singleton, encodeChar_plain (hlt u List.mem_cons_self) hu.1 hu.2]
  | case4 u v us hu hv ih =>
    obtain ⟨ds, hds, rfl⟩ := Option.map_eq_some_iff.mp h
    rw [List.flatMap_cons, encodeChar_pair hu hv, ih _ hds]
    · rfl
    · exact fun w hw => hlt w (List.mem_cons_of_mem _ (List.mem_cons_of_mem _ hw))
  | case5 => cases h
  | case6 => cases h
  | case7 u v us hu hl ih =>
    obtain ⟨ds, hds, rfl⟩ := Option.map_eq_some_iff.mp h
    rw [Bool.not_eq_true] at hu hl
    rw [List.flatMap_cons, encodeChar_plain (hlt u List.mem_cons_self) hu hl, ih _ hds]
    · rfl
    · exact fun w hw => hlt w (List.mem_cons_of_mem _ hw)

/-! ### Surrogates without a partner -/

theorem unpaired_succ_succ {u : Nat} {us : List Nat} {i : Nat} :
    Unpaired (u :: us) (i + 2) ↔ Unpaired us (i + 1) := by
  simp [Unpaired, Nat.add_assoc]

theorem unpaired_succ {u : Nat} (hu : isHigh u = false) {us : List Nat} {i : Nat} :
    Unpaired (u :: us) (i + 1) ↔ Unpaired us i := by
  cases i with
  | zero => simp [Unpaired, hu]
  | succ i => exact unpaired_succ_succ

/-- Units are no text exactly if a surrogate has no partner. -/
theorem decode_eq_none {us : List Nat} : decode us = none ↔ ∃ i, Unpaired us i := by
  fun_induction decode us with
  | case1 => simp [Unpaired]
  | case2 u hu =>
    rw [Bool.or_eq_true] at hu
    simp only [true_iff]
    exact ⟨0, by simp [Unpaired, hu]⟩
  | case3 u hu =>
    rw [Bool.or_eq_true, not_or] at hu
    simp [Unpaired, List.getElem?_singleton, hu.1, hu.2]
  | case4 u v us hu hv ih =>
    have hv' : isHigh v = false := by
      by_contra h
      rw [Bool.not_eq_false] at h
      rw [isLow_of_isHigh h] at hv
      cases hv
    rw [Option.map_eq_none_iff, ih]
    constructor
    · rintro ⟨i, hi⟩
      exact ⟨i + 2, unpaired_succ_succ.mpr ((unpaired_succ hv').mpr hi)⟩
    · rintro ⟨i, hi⟩
      match i with
      | 0 => simp [Unpaired, hv, isLow_of_isHigh hu] at hi
      | 1 => simp [Unpaired, hu, hv'] at hi
      | i + 2 => exact ⟨i, (unpaired_succ hv').mp (unpaired_succ_succ.mp hi)⟩
  | case5 u v us hu hv =>
    simp only [true_iff]
    exact ⟨0, by simp [Unpaired, hu, hv]⟩
  | case6 u v us hu hl =>
    simp only [true_iff]
    exact ⟨0, by simp [Unpaired, hl]⟩
  | case7 u v us hu hl ih =>
    rw [Bool.not_eq_true] at hu hl
    rw [Option.map_eq_none_iff, ih]
    constructor
    · rintro ⟨i, hi⟩
      exact ⟨i + 1, (unpaired_succ hu).mpr hi⟩
    · rintro ⟨i, hi⟩
      cases i with
      | zero => simp [Unpaired, hu, hl] at hi
      | succ i => exact ⟨i, (unpaired_succ hu).mp hi⟩

theorem encodeChar_lt {c : Char} {u : Nat} (h : u ∈ encodeChar c) : u < 0x10000 := by
  have hc := toNat_char c
  unfold encodeChar at h
  dsimp only at h
  split at h <;> simp only [List.mem_cons, List.not_mem_nil, or_false] at h <;> omega

end Utf16

/-! ## Encodings -/

namespace Encoding

/-- The byte-order mark as bytes. -/
def mark : Encoding → Bytes
  | utf8 => [0xEF, 0xBB, 0xBF]
  | utf16 .little => [0xFF, 0xFE]
  | utf16 .big => [0xFE, 0xFF]

/-- The bytes without one byte-order mark in front. -/
def withoutMark (e : Encoding) (bs : Bytes) : Bytes :=
  if e.mark <+: bs then bs.drop e.mark.length else bs

theorem withoutMark_utf8 (bs : Bytes) : utf8.withoutMark bs = Utf8.unmarked bs := by
  unfold withoutMark Utf8.unmarked
  split
  · next h =>
    obtain ⟨rest, rfl⟩ := h
    rfl
  · next h =>
    split
    · next rest => exact absurd ⟨rest, rfl⟩ h
    · rfl

theorem mark_utf16 (o : Utf16.Order) : (utf16 o).mark = Utf16.unitBytes o Utf16.mark := by
  cases o <;> rfl

/-- A mark among the units is a mark among the bytes. -/
theorem unit_eq_mark {o : Utf16.Order} {a b : UInt8} :
    Utf16.unit o a b = Utf16.mark ↔ [a, b] = (utf16 o).mark := by
  rw [mark_utf16, ← Utf16.unitBytes_unit o a b]
  constructor
  · exact congrArg (Utf16.unitBytes o)
  · intro h
    rw [Utf16.unitBytes_unit] at h
    cases o <;> (cases h; rfl)

theorem units_withoutMark {o : Utf16.Order} {bs : Bytes} {us : List Nat}
    (h : Utf16.units o bs = some us) :
    Utf16.units o ((utf16 o).withoutMark bs) = some (Utf16.unmarked us) := by
  match bs with
  | [] =>
    cases h
    cases o <;> rfl
  | [_] => cases h
  | a :: b :: bs =>
    obtain ⟨vs, hvs, rfl⟩ := Option.map_eq_some_iff.mp h
    have hfront : (utf16 o).mark <+: a :: b :: bs ↔ [a, b] = (utf16 o).mark := by
      cases o <;> simp [mark, eq_comm]
    by_cases hmark : [a, b] = (utf16 o).mark
    · rw [withoutMark, if_pos (hfront.mpr hmark), ← hmark, Utf16.unmarked,
        if_pos (unit_eq_mark.mpr hmark)]
      exact hvs
    · rw [withoutMark, if_neg (mt hfront.mp hmark), Utf16.unmarked, if_neg (mt unit_eq_mark.mp hmark),
        h]

theorem decodeChars_encodeChars_utf8 (cs : List Char) :
    utf8.decodeChars (utf8.encodeChars cs) =
      .ok (if cs.head? = some '\uFEFF' then cs.tail else cs) := by
  rw [decodeChars, encodeChars]
  split
  · next h =>
    obtain ⟨ds, rfl⟩ := List.head?_eq_some_iff.mp h
    have hmark : Utf8.encodeChar '\uFEFF' = [0xEF, 0xBB, 0xBF] := by rfl
    rw [List.flatMap_cons, hmark]
    exact Utf8.decodeFrom_flatMap 0 ds
  · next h => rw [Utf8.unmarked_flatMap h, Utf8.decodeFrom_flatMap]

theorem encodeChars_of_decodeChars_utf8 {bs : Bytes} {cs : List Char}
    (h : utf8.decodeChars bs = .ok cs) : utf8.encodeChars cs = utf8.withoutMark bs := by
  rw [withoutMark_utf8]
  exact Utf8.flatMap_of_decodeFrom h

/-- What UTF-16 reads: a text if the bytes make units and those pair up. -/
theorem decodeChars_utf16_eq_ok {o : Utf16.Order} {bs : Bytes} {cs : List Char} :
    (utf16 o).decodeChars bs = .ok cs ↔
      ∃ us, Utf16.units o bs = some us ∧ Utf16.decode (Utf16.unmarked us) = some cs := by
  cases hus : Utf16.units o bs with
  | none => simp [decodeChars, hus]
  | some us => cases hcs : Utf16.decode (Utf16.unmarked us) <;> simp [decodeChars, hus, hcs]

theorem decodeChars_encodeChars_utf16 (o : Utf16.Order) (cs : List Char) :
    (utf16 o).decodeChars ((utf16 o).encodeChars cs) = .ok cs := by
  rw [decodeChars_utf16_eq_ok]
  refine ⟨Utf16.mark :: cs.flatMap Utf16.encodeChar, Utf16.units_flatMap o ?_, ?_⟩
  · intro u hu
    rcases List.mem_cons.mp hu with rfl | hu
    · decide
    · obtain ⟨c, -, hc⟩ := List.mem_flatMap.mp hu
      exact Utf16.encodeChar_lt hc
  · rw [Utf16.unmarked, if_pos rfl]
    exact Utf16.decode_flatMap cs

theorem encodeChars_of_decodeChars_utf16 {o : Utf16.Order} {bs : Bytes} {cs : List Char}
    (h : (utf16 o).decodeChars bs = .ok cs) :
    (utf16 o).encodeChars cs = (utf16 o).mark ++ (utf16 o).withoutMark bs := by
  obtain ⟨us, hus, hcs⟩ := decodeChars_utf16_eq_ok.mp h
  obtain ⟨hbytes, hlt⟩ := Utf16.units_eq_some (units_withoutMark hus)
  rw [encodeChars, List.flatMap_cons, Utf16.flatMap_of_decode hlt hcs, hbytes, mark_utf16]

theorem decodeChars_utf16_eq_error {o : Utf16.Order} {bs : Bytes} :
    (∃ f, (utf16 o).decodeChars bs = .error f) ↔ bs.length % 2 = 1 ∨
      ∃ us i, Utf16.units o ((utf16 o).withoutMark bs) = some us ∧ Utf16.Unpaired us i := by
  cases h : Utf16.units o bs with
  | none => simp [decodeChars, h, Utf16.units_eq_none.mp h]
  | some us =>
    have heven : ¬ bs.length % 2 = 1 := by
      rw [← Utf16.units_eq_none, h]
      exact Option.some_ne_none us
    have hfails : (∃ f, (utf16 o).decodeChars bs = .error f) ↔
        Utf16.decode (Utf16.unmarked us) = none := by
      cases hcs : Utf16.decode (Utf16.unmarked us) <;> simp [decodeChars, h, hcs]
    rw [hfails, Utf16.decode_eq_none, units_withoutMark h]
    simp [heven]

/-- Encoding and decoding undo each other in all encodings, up to one mark in front: a text that is
written is read again, but for a mark in front of a text in UTF-8, and bytes that are a text are written
again, behind a mark in UTF-16. Bytes are no text in UTF-16 exactly if one is left over or a surrogate
behind the mark has no partner. -/
theorem decode_inverts_encode (e : Encoding) :
    (∀ text, e.decode (e.encode text) =
      .ok (if e = utf8 ∧ text.toList.head? = some '\uFEFF' then String.ofList text.toList.tail
        else text)) ∧
    (∀ bytes text, e.decode bytes = .ok text →
      e.encode text = (if e = utf8 then [] else e.mark) ++ e.withoutMark bytes) ∧
    (∀ o bytes, e = utf16 o → ((∃ f, e.decode bytes = .error f) ↔ bytes.length % 2 = 1 ∨
      ∃ us i, Utf16.units o (e.withoutMark bytes) = some us ∧ Utf16.Unpaired us i)) := by
  have hread : ∀ {bytes text}, e.decode bytes = .ok text → e.decodeChars bytes = .ok text.toList := by
    intro bytes text h
    unfold decode at h
    cases hcs : e.decodeChars bytes with
    | error f => simp [hcs, Except.map] at h
    | ok cs =>
      rw [hcs] at h
      cases h
      rw [String.toList_ofList]
  refine ⟨fun text => ?_, fun bytes text h => ?_, ?_⟩
  · unfold decode encode
    cases e with
    | utf8 =>
      rw [decodeChars_encodeChars_utf8]
      by_cases hfront : text.toList.head? = some '\uFEFF' <;> simp [hfront, Except.map]
    | utf16 o => simp [decodeChars_encodeChars_utf16, Except.map]
  · unfold encode
    cases e with
    | utf8 => exact encodeChars_of_decodeChars_utf8 (hread h)
    | utf16 o => exact encodeChars_of_decodeChars_utf16 (hread h)
  · rintro o bytes rfl
    rw [← decodeChars_utf16_eq_error]
    unfold decode
    cases (utf16 o).decodeChars bytes <;> simp [Except.map]

/-- A pair of surrogates behind two marks, of which one is dropped, and a high one alone. -/
theorem decode_inverts_encode_of_surrogates :
    (utf16 .big).decode [0xFE, 0xFF, 0xFE, 0xFF, 0xD8, 0x34, 0xDD, 0x1E] = .ok "\uFEFF𝄞" ∧
    (utf16 .big).encode "\uFEFF𝄞" = [0xFE, 0xFF, 0xFE, 0xFF, 0xD8, 0x34, 0xDD, 0x1E] ∧
    ∃ f, (utf16 .big).decode [0xFE, 0xFF, 0xD8, 0x34] = .error f := by
  have htext : (utf16 .big).decode [0xFE, 0xFF, 0xFE, 0xFF, 0xD8, 0x34, 0xDD, 0x1E] =
      .ok "\uFEFF𝄞" := by decide +kernel
  refine ⟨htext, (decode_inverts_encode (utf16 .big)).2.1 _ _ htext, ?_⟩
  exact ((decode_inverts_encode (utf16 .big)).2.2 .big _ rfl).mpr
    (.inr ⟨[0xD834], 0, rfl, by simp [Utf16.Unpaired, Utf16.isHigh]⟩)

end Encoding

end InstallScript
