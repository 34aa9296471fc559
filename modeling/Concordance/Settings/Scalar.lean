import Concordance.Bytes

/-!
# Scalars

How the text of a scalar is read as a number or a truth value. The whole text has to be used up,
blanks at the end excepted, and the value has to fit its type.
-/

namespace Concordance.Scalar

/-- The value of a digit in a base of at most sixteen. -/
def digit? (base : Nat) (b : UInt8) : Option Nat :=
  let value :=
    if 48 ≤ b ∧ b ≤ 57 then some (b.toNat - 48)
    else if 97 ≤ b ∧ b ≤ 102 then some (b.toNat - 87)
    else if 65 ≤ b ∧ b ≤ 70 then some (b.toNat - 55)
    else none
  value.filter (· < base)

/-- The number that a run of digits begins with, and what follows the run. `none` without digits. -/
def digits? (base : Nat) (s : Bytes) : Option (Nat × Bytes) :=
  let run := s.takeWhile fun b ↦ (digit? base b).isSome
  if run.isEmpty then none
  else
    some (run.foldl (fun n b ↦ n * base + (digit? base b).getD 0) 0,
      s.dropWhile fun b ↦ (digit? base b).isSome)

/-- A sign, `true` for minus, and what follows it. -/
def sign (s : Bytes) : Bool × Bytes :=
  match s with
  | 45 :: rest => (true, rest)
  | 43 :: rest => (false, rest)
  | _ => (false, s)

/-- A whole number, with the base told by how it begins: `0x` for sixteen, `0` for eight, ten
else. -/
def whole? (s : Bytes) : Option (Nat × Bytes) :=
  match s with
  | 48 :: 120 :: rest => digits? 16 rest
  | 48 :: 88 :: rest => digits? 16 rest
  | 48 :: _ => digits? 8 s
  | _ => digits? 10 s

/-- A whole number with a sign that makes up the whole text. -/
def int? (s : Bytes) : Option Int := do
  let (negative, s) := sign s
  let (n, rest) ← whole? s
  if rest.all Bytes.isSpace then return if negative then -(n : Int) else n else none

/-- A number that fits a word of 32 bits with a sign. -/
def int32? (s : Bytes) : Option Int32 :=
  ((int? s).filter fun n ↦ (Int32.ofInt n).toInt = n).map Int32.ofInt

/-- A number that fits a word of 64 bits with a sign. -/
def int64? (s : Bytes) : Option Int64 :=
  ((int? s).filter fun n ↦ (Int64.ofInt n).toInt = n).map Int64.ofInt

/-- A number without a minus that fits a word of 64 bits. -/
def count? (s : Bytes) : Option UInt64 :=
  if s.head? = some 45 then none
  else ((int? s).filter fun n ↦ (n.toNat.toUInt64.toNat : Int) = n).map fun n ↦ n.toNat.toUInt64

/-- The exponent of a number after its digits, `0` if there is none, and what follows. -/
def exponent? (s : Bytes) : Option (Int × Bytes) :=
  match s with
  | 101 :: rest | 69 :: rest => do
    let (negative, rest) := sign rest
    let (n, rest) ← digits? 10 rest
    return (if negative then -(n : Int) else n, rest)
  | _ => some (0, s)

/-- The digits after a decimal point, and what follows. -/
def fraction (s : Bytes) : Bytes × Bytes :=
  match s with
  | 46 :: rest =>
    (rest.takeWhile fun b ↦ (digit? 10 b).isSome, rest.dropWhile fun b ↦ (digit? 10 b).isSome)
  | _ => ([], s)

/-- The number nearest to `digits · 10 ^ exponent`. Far outside the range of the numbers it is not
computed: it is infinite or zero. -/
def ofDecimal (digits : Nat) (exponent : Int) : Float :=
  if digits = 0 then 0
  else if 400 < exponent then 1.0 / 0.0
  else if exponent + (Nat.toDigits 10 digits).length < -400 then 0
  else Float.ofScientific digits (exponent < 0) exponent.natAbs

/-- A decimal number that makes up the whole text and is not too large. -/
def decimal? (s : Bytes) : Option Float := do
  let (negative, s) := sign s
  let whole := s.takeWhile fun b ↦ (digit? 10 b).isSome
  let (part, s) := fraction (s.dropWhile fun b ↦ (digit? 10 b).isSome)
  let (digits, _) ← digits? 10 (whole ++ part)
  let (exponent, rest) ← exponent? s
  let value := ofDecimal digits (exponent - part.length)
  if rest.all Bytes.isSpace && !value.isInf then
    return if negative then -value else value
  else none

/-- A number with a point or an exponent, or one of the names of infinity and of no number. -/
def float? (s : Bytes) : Option Float :=
  if ([".inf", ".Inf", ".INF", "+.inf", "+.Inf", "+.INF"].map utf8).contains s then
    some (1.0 / 0.0)
  else if (["-.inf", "-.Inf", "-.INF"].map utf8).contains s then some (-1.0 / 0.0)
  else if ([".nan", ".NaN", ".NAN"].map utf8).contains s then some (0.0 / 0.0)
  else decimal? s

/-- A truth value, in small letters, in capitals, or with a capital at the front. -/
def bool? (s : Bytes) : Option Bool :=
  if (["y", "Y", "yes", "Yes", "YES", "true", "True", "TRUE", "on", "On", "ON"].map utf8).contains s
  then some true
  else if (["n", "N", "no", "No", "NO", "false", "False", "FALSE", "off", "Off", "OFF"].map
    utf8).contains s then some false
  else none

end Concordance.Scalar
