import Concordance.Bytes

/-!
# Decimal text of numbers

A floating point number is an exact fraction, and its decimal text with a given number of digits is
that fraction rounded to the nearest such decimal, a half going to the even neighbour. All of it is
done on natural numbers.

A value that is not a number has a text too. It tells whether the value was given or is the result
of an operation that has none.
-/

namespace Concordance.Decimal

/-- The quotient of two numbers rounded to the nearest, a half to the even neighbour. -/
def roundDiv (num den : Nat) : Nat :=
  let q := num / den
  let r := num % den
  if 2 * r < den then q
  else if den < 2 * r then q + 1
  else q + q % 2

/-- A power of ten. -/
def tenTo : Nat → Nat
  | 0 => 1
  | n + 1 => 10 * tenTo n

/-- The absolute value of a finite number as a fraction. -/
structure Fraction where
  num : Nat
  den : Nat

/-- The parts of a floating point number. -/
inductive Parts where
  | finite (negative : Bool) (value : Fraction)
  | infinite (negative : Bool)
  | notANumber

/-- The parts that the bits of a number stand for. -/
def parts (x : Float) : Parts :=
  let bits := x.toBits
  let negative := bits >>> 63 == 1
  let exponent := (bits >>> 52 &&& 0x7FF).toNat
  let mantissa := (bits &&& 0xFFFFFFFFFFFFF).toNat
  if exponent = 2047 then
    if mantissa = 0 then .infinite negative else .notANumber
  else
    let m := if exponent = 0 then mantissa else 0x10000000000000 + mantissa
    let e := if exponent = 0 then 1 else exponent
    if 1075 ≤ e then .finite negative ⟨m <<< (e - 1075), 1⟩
    else .finite negative ⟨m, 1 <<< (1075 - e)⟩

/-- A text with a minus before it if the number is negative. -/
def signed (negative : Bool) (s : Bytes) : Bytes :=
  if negative then utf8 "-" ++ s else s

/-- A number as exactly `width` digits, with zeros in front. -/
def padded (width n : Nat) : Bytes :=
  let digits := decimal n
  List.replicate (width - digits.length) 48 ++ digits

/-- A fraction with `places` digits after the point. -/
def fixedText (places : Nat) (v : Fraction) : Bytes :=
  let n := roundDiv (v.num * tenTo places) v.den
  decimal (n / tenTo places) ++ utf8 "." ++ padded places (n % tenTo places)

/-- A fraction scaled by a power of ten and rounded. -/
def scaled (v : Fraction) (exponent : Int) : Nat :=
  match exponent with
  | .ofNat e => roundDiv (v.num * tenTo e) v.den
  | .negSucc e => roundDiv v.num (v.den * tenTo (e + 1))

/-- The exponent of the first digit of a positive fraction. -/
def leadingExponent (v : Fraction) : Int :=
  let guess : Int := (Nat.toDigits 10 v.num).length - (Nat.toDigits 10 v.den).length
  let reached : Bool :=
    match guess with
    | .ofNat e => v.den * tenTo e ≤ v.num
    | .negSucc e => v.den ≤ v.num * tenTo (e + 1)
  if reached then guess else guess - 1

/-- A fraction with one digit before the point and `places` after it, and an exponent of at least
two digits. -/
def scientificText (places : Nat) (v : Fraction) : Bytes :=
  let (n, e) : Nat × Int :=
    if v.num = 0 then (0, 0)
    else
      let e := leadingExponent v
      let n := scaled v (places - e)
      if n < tenTo (places + 1) then (n, e) else (n / 10, e + 1)
  decimal (n / tenTo places) ++ utf8 "." ++ padded places (n % tenTo places) ++ utf8 "e" ++
    utf8 (if e < 0 then "-" else "+") ++ padded 2 e.natAbs

/-- How a value that is not a number came about. -/
inductive Undefined where
  /-- It was given as such, or computed from one that was. -/
  | given
  /-- It is the result of an operation on numbers that has none. -/
  | computed
  deriving DecidableEq, Repr

/-- What is written for a value that is not a number. Only a computed one has a sign. -/
def Undefined.text : Undefined → Bytes
  | given => utf8 "nan"
  | computed => utf8 "-nan"

/-- The text of a value, where `digits` writes its absolute value if it is finite, and `undefined`
tells how it came about if it is not a number. -/
def text (digits : Fraction → Bytes) (undefined : Undefined) (x : Float) : Bytes :=
  match parts x with
  | .finite negative v => signed negative (digits v)
  | .infinite negative => signed negative (utf8 "inf")
  | .notANumber => undefined.text

/-- A value with `places` digits after the point. -/
def fixed (places : Nat) (undefined : Undefined) (x : Float) : Bytes :=
  text (fixedText places) undefined x

/-- A value with one digit before the point, `places` after it, and an exponent. -/
def scientific (places : Nat) (undefined : Undefined) (x : Float) : Bytes :=
  text (scientificText places) undefined x

end Concordance.Decimal
