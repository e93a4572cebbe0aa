/-!
Texts as bytes, in UTF-8 or in UTF-16 of either byte order. A byte-order mark in front is dropped when
a text is read; UTF-16 texts are written with one.
-/

namespace InstallScript

abbrev Bytes := List UInt8

/-- Why bytes are no text. Places are counted in bytes. -/
inductive DecodeFault
  | oddLength
  | loneSurrogate
  | invalidSequence (length place : Nat)
  | incompleteSequence (place : Nat)
deriving DecidableEq, Repr

def DecodeFault.message : DecodeFault → String
  | oddLength => "odd number of bytes in UTF-16 input"
  | loneSurrogate => "invalid utf-16: lone surrogate found"
  | invalidSequence n i => s!"invalid utf-8 sequence of {n} bytes from index {i}"
  | incompleteSequence i => s!"incomplete utf-8 byte sequence from index {i}"

/-! ### UTF-8 -/

namespace Utf8

def encodeChar (c : Char) : Bytes :=
  let n := c.toNat
  if n < 0x80 then [.ofNat n]
  else if n < 0x800 then [.ofNat (0xC0 + n / 64), .ofNat (0x80 + n % 64)]
  else if n < 0x10000 then
    [.ofNat (0xE0 + n / 4096), .ofNat (0x80 + n / 64 % 64), .ofNat (0x80 + n % 64)]
  else
    [.ofNat (0xF0 + n / 262144), .ofNat (0x80 + n / 4096 % 64), .ofNat (0x80 + n / 64 % 64),
      .ofNat (0x80 + n % 64)]

/-- A sequence that stops making sense: after how many bytes, or `none` if the bytes run out. -/
abbrev Flaw := Option Nat

/-- The bits of a further byte of a sequence, which has to lie between `lo` and `hi`. The sequence has
`seen` bytes before it. -/
def further (lo hi seen : Nat) : Bytes → Except Flaw (Nat × Bytes)
  | [] => .error none
  | b :: bs =>
    if lo ≤ b.toNat && b.toNat ≤ hi then .ok (b.toNat - 0x80, bs) else .error (some seen)

/-- The character whose sequence begins with `b`, in its shortest form and no surrogate. -/
def decodeChar (b : UInt8) (bs : Bytes) : Except Flaw (Char × Bytes) :=
  let n := b.toNat
  if n < 0x80 then .ok (Char.ofNat n, bs)
  else if 0xC2 ≤ n && n ≤ 0xDF then do
    let (x, bs) ← further 0x80 0xBF 1 bs
    return (Char.ofNat ((n - 0xC0) * 64 + x), bs)
  else if 0xE0 ≤ n && n ≤ 0xEF then do
    let (x, bs) ← further (if n = 0xE0 then 0xA0 else 0x80) (if n = 0xED then 0x9F else 0xBF) 1 bs
    let (y, bs) ← further 0x80 0xBF 2 bs
    return (Char.ofNat ((n - 0xE0) * 4096 + x * 64 + y), bs)
  else if 0xF0 ≤ n && n ≤ 0xF4 then do
    let (x, bs) ← further (if n = 0xF0 then 0x90 else 0x80) (if n = 0xF4 then 0x8F else 0xBF) 1 bs
    let (y, bs) ← further 0x80 0xBF 2 bs
    let (z, bs) ← further 0x80 0xBF 3 bs
    return (Char.ofNat ((n - 0xF0) * 262144 + x * 4096 + y * 64 + z), bs)
  else .error (some 1)

theorem length_further_lt {lo hi seen x : Nat} {bs rest : Bytes}
    (h : further lo hi seen bs = .ok (x, rest)) : rest.length < bs.length := by
  unfold further at h
  grind

theorem length_decodeChar_le {b : UInt8} {bs rest : Bytes} {c : Char}
    (h : decodeChar b bs = .ok (c, rest)) : rest.length ≤ bs.length := by
  simp only [decodeChar, bind, Except.bind, pure, Except.pure] at h
  grind [→ length_further_lt]

/-- The characters of `bs`, which begins at `place`. -/
def decodeFrom (place : Nat) : Bytes → Except DecodeFault (List Char)
  | [] => .ok []
  | b :: bs =>
    match _h : decodeChar b bs with
    | .error (some n) => .error (.invalidSequence n place)
    | .error none => .error (.incompleteSequence place)
    | .ok (c, rest) =>
      (decodeFrom (place + 1 + (bs.length - rest.length)) rest).map (c :: ·)
termination_by bs => bs.length
decreasing_by exact Nat.lt_succ_of_le (length_decodeChar_le _h)

/-- The bytes without a byte-order mark in front. -/
def unmarked : Bytes → Bytes
  | 0xEF :: 0xBB :: 0xBF :: bs => bs
  | bs => bs

end Utf8

/-! ### UTF-16 -/

namespace Utf16

/-- Which byte of a unit comes first. -/
inductive Order
  | little
  | big
deriving DecidableEq, Repr

/-- The unit made of two bytes. -/
def unit : Order → UInt8 → UInt8 → Nat
  | .little, a, b => a.toNat + 256 * b.toNat
  | .big, a, b => 256 * a.toNat + b.toNat

/-- The units of bytes, unless one byte is left over. -/
def units (o : Order) : Bytes → Option (List Nat)
  | [] => some []
  | [_] => none
  | a :: b :: bs => (units o bs).map (unit o a b :: ·)

def unitBytes : Order → Nat → Bytes
  | .little, u => [.ofNat (u % 256), .ofNat (u / 256)]
  | .big, u => [.ofNat (u / 256), .ofNat (u % 256)]

def isHigh (u : Nat) : Bool := 0xD800 ≤ u && u ≤ 0xDBFF
def isLow (u : Nat) : Bool := 0xDC00 ≤ u && u ≤ 0xDFFF

/-- The characters of units; a surrogate has to be half of a pair. -/
def decode : List Nat → Option (List Char)
  | [] => some []
  | [u] => if isHigh u || isLow u then none else some [Char.ofNat u]
  | u :: v :: us =>
    if isHigh u then
      if isLow v then
        (decode us).map (Char.ofNat (0x10000 + (u - 0xD800) * 1024 + (v - 0xDC00)) :: ·)
      else none
    else if isLow u then none
    else (decode (v :: us)).map (Char.ofNat u :: ·)

def encodeChar (c : Char) : List Nat :=
  let n := c.toNat
  if n < 0x10000 then [n]
  else [0xD800 + (n - 0x10000) / 1024, 0xDC00 + (n - 0x10000) % 1024]

/-- The byte-order mark. -/
def mark : Nat := 0xFEFF

/-- The units without a byte-order mark in front. -/
def unmarked : List Nat → List Nat
  | u :: us => if u = mark then us else u :: us
  | [] => []

end Utf16

/-! ### Encodings -/

inductive Encoding
  | utf8
  | utf16 (order : Utf16.Order)
deriving DecidableEq, Repr

namespace Encoding

/-- The encoding of a name, in whatever case. -/
def ofName? (name : String) : Option Encoding :=
  match String.ofList (name.toList.map Char.toLower) with
  | "utf-8" | "utf8" => some utf8
  | "utf-16le" | "utf16le" => some (utf16 .little)
  | "utf-16be" | "utf16be" => some (utf16 .big)
  | _ => none

/-- The report on a name that means no encoding. -/
def unsupported (name : String) : String := s!"unsupported encoding '{name}'"

def decodeChars : Encoding → Bytes → Except DecodeFault (List Char)
  | utf8, bs => Utf8.decodeFrom 0 (Utf8.unmarked bs)
  | utf16 o, bs =>
    match Utf16.units o bs with
    | none => .error .oddLength
    | some us =>
      match Utf16.decode (Utf16.unmarked us) with
      | none => .error .loneSurrogate
      | some cs => .ok cs

/-- The text that bytes stand for. -/
def decode (e : Encoding) (bs : Bytes) : Except DecodeFault String :=
  (e.decodeChars bs).map String.ofList

def encodeChars : Encoding → List Char → Bytes
  | utf8, cs => cs.flatMap Utf8.encodeChar
  | utf16 o, cs => (Utf16.mark :: cs.flatMap Utf16.encodeChar).flatMap (Utf16.unitBytes o)

/-- The text as bytes. -/
def encode (e : Encoding) (s : String) : Bytes := e.encodeChars s.toList

end Encoding

end InstallScript
