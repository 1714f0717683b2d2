/-!
# Single-precision numbers

A number of the IEEE binary32 format is its 32 bits. Every finite one is a whole number of *units*,
one unit being `2 ^ -149`, the least positive value of the format. So a sum, a product or a decimal
is first an exact ratio of natural numbers in units and is then rounded once, to the nearest
number of the format and from the middle of two to the one whose last bit is zero. The
numbers of databases and of sources are written in other ways: in fixed point, and as decimal text.
-/

namespace LetterToSound

/-- A number of the IEEE binary32 format, as bits. -/
structure Single where
  bits : UInt32
deriving DecidableEq, Repr, Inhabited

namespace Single

/-- What the bits mean. A finite number is `± units * 2 ^ -149`. -/
inductive View where
  | nan
  | infinite (negative : Bool)
  | finite (negative : Bool) (units : Nat)
deriving DecidableEq, Repr

/-- One, counted in units. -/
def unitsPerOne : Nat := 1 <<< 149

/-- The number one. -/
def one : Single := ⟨0x3F800000⟩

/-- The quiet number that is not a number. -/
def nan : Single := ⟨0x7FC00000⟩

/-- The bits of the sign. -/
def signBits (negative : Bool) : Nat := if negative then 0x80000000 else 0

def infinity (negative : Bool) : Single := ⟨UInt32.ofNat (signBits negative + 0x7F800000)⟩

/-- Reads sign, exponent field and fraction field. The exponent field `0` has no hidden bit. -/
def view (x : Single) : View :=
  let n := x.bits.toNat
  let negative := decide (0x80000000 ≤ n)
  let exponent := n / 0x800000 % 0x100
  let fraction := n % 0x800000
  if exponent = 255 then if fraction = 0 then .infinite negative else .nan
  else if exponent = 0 then .finite negative fraction
  else .finite negative ((0x800000 + fraction) <<< (exponent - 1))

def isFinite (x : Single) : Bool :=
  match x.view with
  | .finite _ _ => true
  | _ => false

def isNaN (x : Single) : Bool := x.view == .nan

/-- The quotient `num / den`, rounded to the nearest natural number, from the middle to the even
one. -/
def divNearest (num den : Nat) : Nat :=
  let quotient := num / den
  let twice := 2 * (num % den)
  if den < twice ∨ twice = den ∧ quotient % 2 = 1 then quotient + 1 else quotient

/-- The number nearest to `± num / den` units; an infinity where the rounded value leaves the
format. A significand of `0x1000000` carries into the exponent field, which is the exponent that the
rounded value has. -/
def ofUnits (negative : Bool) (num den : Nat) : Single :=
  let shift := Nat.log2 (num / den) - 23
  let magnitude := shift * 0x800000 + divNearest num (den <<< shift)
  if 0x7F800000 ≤ magnitude then infinity negative
  else ⟨UInt32.ofNat (signBits negative + magnitude)⟩

/-- The number nearest to a natural number. -/
def ofNat (n : Nat) : Single := ofUnits false (n * unitsPerOne) 1

/-- A finite number as a signed count of units. -/
def signed (negative : Bool) (units : Nat) : Int := if negative then -(units : Int) else units

/-- The rounded sum. A sum of exactly zero is negative only where both terms are. -/
def add (x y : Single) : Single :=
  match x.view, y.view with
  | .nan, _ => nan
  | _, .nan => nan
  | .infinite s, .infinite t => if s = t then infinity s else nan
  | .infinite s, .finite _ _ => infinity s
  | .finite _ _, .infinite t => infinity t
  | .finite s m, .finite t n =>
    let sum := signed s m + signed t n
    if sum = 0 then ofUnits (s && t) 0 1 else ofUnits (decide (sum < 0)) sum.natAbs 1

/-- The rounded product. Zero times an infinity is not a number. -/
def mul (x y : Single) : Single :=
  match x.view, y.view with
  | .nan, _ => nan
  | _, .nan => nan
  | .infinite s, .infinite t => infinity (s != t)
  | .infinite s, .finite t n => if n = 0 then nan else infinity (s != t)
  | .finite s m, .infinite t => if m = 0 then nan else infinity (s != t)
  | .finite s m, .finite t n => ofUnits (s != t) (m * n) unitsPerOne

instance : Add Single := ⟨add⟩
instance : Mul Single := ⟨mul⟩

/-- The nearest whole number up to `limit`, a half going up; none for a number below zero, beyond
`limit`, infinite or not a number. Negative zero is zero. -/
def toNatUpTo? (limit : Nat) (x : Single) : Option Nat :=
  match x.view with
  | .finite negative units =>
    if (negative = true ∧ units ≠ 0) ∨ limit * unitsPerOne < units then none
    else some ((2 * units + unitsPerOne) / (2 * unitsPerOne))
  | _ => none

end Single

end LetterToSound

/-!
## Numbers in 8.8 fixed point

A number is stored in two bytes: its whole part as a signed byte, then the 256ths of what is left
of its magnitude. The sign stands in the whole part alone.
-/

namespace LetterToSound.FixedPoint

/-- The two bytes of a number. The whole part stops at the ends of a signed byte; the fraction is
cut, not rounded. What is not a number is stored as zero, an infinity with no fraction. -/
def encode (x : Single) : UInt8 × UInt8 :=
  match x.view with
  | .nan => (0, 0)
  | .infinite negative => (if negative then 0x80 else 0x7F, 0)
  | .finite negative units =>
    let whole := units / Single.unitsPerOne
    let fraction := units * 256 / Single.unitsPerOne % 256
    (if negative then UInt8.ofNat (256 - min whole 128) else UInt8.ofNat (min whole 127),
      UInt8.ofNat fraction)

/-- The number that two bytes stand for. The fraction is taken away from the whole part where that
is below zero and added to it elsewhere. -/
def decode (whole fraction : UInt8) : Single :=
  if 128 ≤ whole.toNat then
    Single.ofUnits true (((256 - whole.toNat) * 256 + fraction.toNat) * Single.unitsPerOne) 256
  else Single.ofUnits false ((whole.toNat * 256 + fraction.toNat) * Single.unitsPerOne) 256

end LetterToSound.FixedPoint

/-!
## Decimal text

A single-precision number is written as an optional sign and then either digits with at most one
point among or beside them and an optional exponent, or the word `inf`, `infinity` or `nan` in any
case. An unsigned whole number is written as digits after an optional `+`.
-/

namespace LetterToSound.Decimal

/-- The value of decimal digits. -/
def digitsValue (digits : List Char) : Nat :=
  digits.foldl (fun n c => 10 * n + (c.toNat - 48)) 0

/-- Takes a sign away; true for `-`. -/
def splitSign : List Char → Bool × List Char
  | '-' :: cs => (true, cs)
  | '+' :: cs => (false, cs)
  | cs => (false, cs)

/-- Digits read after the exponent has passed this bound do not count: the number is then zero or
infinite whatever they are. -/
def exponentBound : Nat := 65536

/-- The value of the digits of an exponent. -/
def exponentValue (digits : List Char) : Nat :=
  digits.foldl (fun n c => if n < exponentBound then 10 * n + (c.toNat - 48) else n) 0

/-- The exponent that a text says, `0` for the empty text; none if the text is no exponent. -/
def exponent? : List Char → Option Int
  | [] => some 0
  | c :: cs =>
    if c = 'e' ∨ c = 'E' then
      let (negative, digits) := splitSign cs
      if digits.isEmpty || !digits.all Char.isDigit then none
      else
        let n : Int := exponentValue digits
        some (if negative then -n else n)
    else none

/-- The number nearest to `± significand * 10 ^ exponent`. Far outside the format's range the power
is not computed. -/
def toSingle (negative : Bool) (significand : Nat) (exponent : Int) : Single :=
  if significand = 0 then Single.ofUnits negative 0 1
  else
    let magnitude : Int := Nat.log2 significand / 4 + exponent
    if 60 < magnitude then Single.infinity negative
    else if (Nat.log2 significand : Int) / 3 + exponent < -60 then Single.ofUnits negative 0 1
    else if 0 ≤ exponent then
      Single.ofUnits negative (significand * Nat.pow 10 exponent.toNat * Single.unitsPerOne) 1
    else Single.ofUnits negative (significand * Single.unitsPerOne) (Nat.pow 10 (-exponent).toNat)

/-- Significand and exponent of a number without its sign that is written in digits. -/
def parts? (cs : List Char) : Option (Nat × Int) :=
  let whole := cs.takeWhile Char.isDigit
  let rest := cs.dropWhile Char.isDigit
  let (fraction, tail) := match rest with
    | '.' :: r => (r.takeWhile Char.isDigit, r.dropWhile Char.isDigit)
    | r => ([], r)
  if whole.isEmpty && fraction.isEmpty then none
  else (exponent? tail).map fun e => (digitsValue (whole ++ fraction), e - fraction.length)

/-- Reads a number without its sign that is written as a word. -/
def word? (negative : Bool) (cs : List Char) : Option Single :=
  let lower := cs.map Char.toLower
  if lower = ['i', 'n', 'f'] ∨ lower = ['i', 'n', 'f', 'i', 'n', 'i', 't', 'y'] then
    some (Single.infinity negative)
  else if lower = ['n', 'a', 'n'] then some Single.nan
  else none

/-- Reads a single-precision number; the whole text has to be one. -/
def single? (cs : List Char) : Option Single :=
  let (negative, unsigned) := splitSign cs
  match parts? unsigned with
  | some (significand, exponent) => some (toSingle negative significand exponent)
  | none => word? negative unsigned

/-- Reads a whole number of at most `limit`; the whole text has to be one. -/
def natUpTo? (limit : Nat) (cs : List Char) : Option Nat :=
  let digits := match cs with
    | '+' :: r => r
    | r => r
  if digits.isEmpty || !digits.all Char.isDigit then none
  else if digitsValue digits ≤ limit then some (digitsValue digits) else none

end LetterToSound.Decimal
