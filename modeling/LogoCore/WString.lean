import LogoCore.CStrings

namespace LogoCore.Strings

open CStrings

/-- The outcome of a call of the allocator: no memory, or a block whose new bytes hold `fill`. -/
abbrev Alloc := Option (ℕ → UInt8)

inductive Number
  | uchar (v : UInt8)
  | int (v : Int32)
  | uint (v : UInt32)
  | long (v : Int32)
  | ulong (v : UInt32)

def digit (i : ℕ) : UInt8 := if i < 10 then UInt8.ofNat (i + 48) else UInt8.ofNat (i + 97 - 10)

-- the digits in the order in which they are pushed on tmp, the last one first
def digits (radix v : ℕ) : List UInt8 :=
  if _h : 2 ≤ radix ∧ v / radix ≠ 0 then digit (v % radix) :: digits radix (v / radix)
  else [digit (v % radix)]
termination_by v
decreasing_by exact Nat.div_lt_self (Nat.pos_of_ne_zero fun hv => _h.2 (by simp [hv])) (by omega)

def ultoa (value radix : ℕ) : Option (List UInt8) :=
  if radix > 36 ∨ radix ≤ 1 then none else some (digits radix value).reverse

def ltoa (value : ℤ) (radix : ℕ) : Option (List UInt8) :=
  if radix > 36 ∨ radix ≤ 1 then none
  else if radix = 10 ∧ value < 0 then some (45 :: (digits radix ((-value) % 2 ^ 32).toNat).reverse)
  else some (digits radix (value % 2 ^ 32).toNat).reverse

def itoa (value : ℤ) (radix : ℕ) : Option (List UInt8) := ltoa value radix

def utoa (value radix : ℕ) : Option (List UInt8) := ultoa value radix

/-- The conversions of the numeric constructors. -/
def Number.render (n : Number) (base : ℕ) : Option (List UInt8) :=
  match n with
  | .uchar v => utoa v.toNat base
  | .int v => itoa v.toInt base
  | .uint v => utoa v.toNat base
  | .long v => ltoa v.toInt base
  | .ulong v => ultoa v.toNat base

/-- The conversions of the numeric overloads of `concat`. -/
def Number.renderDecimal (n : Number) : Option (List UInt8) :=
  match n with
  | .uchar v => itoa v.toNat 10
  | .int v => itoa v.toInt 10
  | .uint v => utoa v.toNat 10
  | .long v => ltoa v.toInt 10
  | .ulong v => ultoa v.toNat 10

structure WString where
  buffer : Option (List UInt8)
  capacity : ℕ
  len : ℕ
deriving DecidableEq

namespace WString

def init : WString := ⟨none, 0, 0⟩

def invalidate (_ : WString) : WString := ⟨none, 0, 0⟩

-- realloc(buffer, 0) leaves the pointer without a byte behind it, also where it returns NULL
def changeBuffer (s : WString) (maxStrLen : ℕ) (a : Alloc) : Bool × WString :=
  let size := (maxStrLen + 1) % 2 ^ 32
  match a with
  | some fill => (true, { s with buffer := some (resize (s.buffer.getD []) size fill), capacity := maxStrLen })
  | none => (false, if size = 0 then { s with buffer := s.buffer.map fun _ => [] } else s)

def reserve (s : WString) (size : ℕ) (a : Alloc) : Bool × WString :=
  if s.buffer.isSome ∧ size ≤ s.capacity then (true, s)
  else
    match s.changeBuffer size a with
    | (true, s) => (true, if s.len = 0 then { s with buffer := s.buffer.map (overwrite · 0 [0]) } else s)
    | (false, s) => (false, s)

def copy (s : WString) (cstr : List UInt8) (length : ℕ) (a : Alloc) : WString :=
  match s.reserve length a with
  | (false, s) => s.invalidate
  | (true, s) => { s with buffer := s.buffer.map (strcpy · 0 cstr), len := length }

def move (s rhs : WString) : WString × WString :=
  match s.buffer, rhs.buffer with
  | some bs, some rs =>
    if rhs.len ≤ s.capacity then ({ s with buffer := some (strcpy bs 0 rs), len := rhs.len }, { rhs with len := 0 })
    else (rhs, ⟨none, 0, 0⟩)
  | _, _ => (rhs, ⟨none, 0, 0⟩)

def assign (s rhs : WString) (a : Alloc) : WString :=
  match rhs.buffer with
  | some bs => s.copy bs rhs.len a
  | none => s.invalidate

def assignCStr (s : WString) (cstr : Option (List UInt8)) (a : Alloc) : WString :=
  match cstr with
  | some c => s.copy c (strlen c) a
  | none => s.invalidate

def concat (s : WString) (cstr : Option (List UInt8)) (length : ℕ) (a : Alloc) : Bool × WString :=
  let newlen := (s.len + length) % 2 ^ 32
  match cstr with
  | none => (false, s)
  | some c =>
    if length = 0 then (true, s)
    else
      match s.reserve newlen a with
      | (false, s) => (false, s)
      | (true, s) => (true, { s with buffer := s.buffer.map (strcpy · s.len c), len := newlen })

def plus (s : WString) (cstr : Option (List UInt8)) (length : ℕ) (a : Alloc) : WString :=
  match s.concat cstr length a with
  | (true, s) => s
  | (false, s) => s.invalidate

def setCharAt (s : WString) (loc : ℕ) (c : UInt8) : WString :=
  if loc < s.len then { s with buffer := s.buffer.map (·.set loc c) } else s

def replace (s : WString) (find replace : UInt8) : WString :=
  { s with buffer := s.buffer.map (mapText fun b => if b = find then replace else b) }

def toLowerCase (s : WString) : WString := { s with buffer := s.buffer.map (mapText toLower) }

def toUpperCase (s : WString) : WString := { s with buffer := s.buffer.map (mapText toUpper) }

def remove (s : WString) (index count : ℕ) : WString :=
  if s.len ≤ index then s
  else if count = 0 then s
  else
    let count := if s.len - index < count then s.len - index else count
    let len := s.len - count
    { s with
      buffer := s.buffer.map fun bs => overwrite (strncpy bs index (bs.drop (index + count)) (len - index)) len [0]
      len := len }

-- the index behind the last byte that is kept
def trimEnd (bs : List UInt8) (start : ℕ) : ℕ → ℕ
  | 0 => 0
  | e + 1 => if isSpace (bs.getD e 0) ∧ start ≤ e then trimEnd bs start e else e + 1

def trim (s : WString) : WString :=
  match s.buffer with
  | none => s
  | some bs =>
    if s.len = 0 then s
    else
      let start := (bs.takeWhile isSpace).length
      let len := (trimEnd bs start s.len + 2 ^ 32 - start) % 2 ^ 32
      let bs := if 0 < start then overwrite bs 0 ((bs.drop start).take len) else bs
      { s with buffer := some (overwrite bs len [0]), len := len }

-- the byte at right is 0 only while the copy is made
def substring (s : WString) (left right : ℕ) (a a' : Alloc) : WString :=
  let (left, right) := if right < left then (right, left) else (left, right)
  let out := init.copy [] 0 a
  if s.len ≤ left then out
  else
    let right := if s.len < right then s.len else right
    out.assignCStr (s.buffer.map fun bs => (overwrite bs right [0]).drop left) a'

def length (s : WString) : ℕ := s.len

def cStr (s : WString) : Option (List UInt8) := s.buffer.map cString

def compareTo (s t : WString) : ℤ :=
  match s.buffer, t.buffer with
  | some bs, some cs => strcmp bs cs
  | bs, cs =>
    if cs.isSome ∧ 0 < t.len then 0 - ((cs.getD []).headD 0).toNat
    else if bs.isSome ∧ 0 < s.len then ((bs.getD []).headD 0).toNat
    else 0

def equals (s t : WString) : Bool := s.len = t.len ∧ s.compareTo t = 0

def equalsCStr (s : WString) (cstr : Option (List UInt8)) : Bool :=
  if s.len = 0 then
    match cstr with
    | none => true
    | some c => (cString c).isEmpty
  else
    match cstr with
    | none => (s.buffer.getD []).head? == some 0
    | some c => strcmp (s.buffer.getD []) c = 0

def toInt (s : WString) : ℤ :=
  match s.buffer with
  | some bs => atol bs
  | none => 0

end WString

/-- The operands that are not `String` objects; a C string is given by its bytes, NULL by `none`. -/
inductive Text
  | cstr (c : Option (List UInt8))
  | flash (c : Option (List UInt8))
  | char (c : UInt8)
  | number (n : Number)

/-- The bytes that a constructor copies. -/
def Text.render (t : Text) (base : ℕ) : Option (List UInt8) :=
  match t with
  | .cstr c => c
  | .flash c => c
  | .char c => some [c]
  | .number n => n.render base

/-- The bytes that `concat` appends. -/
def Text.operand (t : Text) : Option (List UInt8) :=
  match t with
  | .cstr c => c
  | .flash c => c
  | .char c => some [c]
  | .number n => n.renderDecimal

def WString.ofText (t : Text) (base : ℕ) (a : Alloc) : WString := WString.init.assignCStr (t.render base) a

end LogoCore.Strings
