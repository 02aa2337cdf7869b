/-!
Numbers of the 64-bit binary format, kept as exact values: the nearest number to a decimal and the
shortest decimal that is nearest to a number. NaN is not among them, because no decimal denotes it.
-/

namespace CypherSql.Number

/-- A finite number `± mantissa · 2 ^ exponent`, or an infinity beyond the largest of them. -/
inductive Binary64 where
  | finite (negative : Bool) (mantissa : Nat) (exponent : Int)
  | infinite (negative : Bool)
  deriving DecidableEq, Repr

/-- The integer nearest to `num / den`; a half goes to the even neighbour. -/
def roundHalfEven (num den : Nat) : Nat :=
  let quotient := num / den
  let twice := 2 * (num % den)
  if twice < den then quotient
  else if den < twice then quotient + 1
  else if quotient % 2 = 0 then quotient
  else quotient + 1

/-- The fraction `num / (den · base ^ power)` with a natural numerator and denominator. -/
def scaled (base num den : Nat) (power : Int) : Nat × Nat :=
  if 0 ≤ power then (num, den * base.pow power.toNat) else (num * base.pow (-power).toNat, den)

/-- The least exponent of the format: below it the mantissa has fewer than 53 bits. -/
def leastExponent : Int := -1074

/-- The least mantissa of 53 bits. -/
def leastFullMantissa : Nat := 0x10000000000000

/-- The largest exponent of a finite number. -/
def largestExponent : Int := 971

namespace Binary64

/-- The exponent at which `num / den` has a mantissa of 53 bits, or the least one. -/
def exponentOf (num den : Nat) : Int :=
  let estimate : Int := (num.log2 : Int) - (den.log2 : Int)
  let (n, d) := scaled 2 num den estimate
  max (if d ≤ n then estimate - 52 else estimate - 53) leastExponent

/-- The number nearest to `num / den`; a half goes to the even mantissa. -/
def ofRatio (num den : Nat) : Binary64 :=
  if num = 0 then .finite false 0 0
  else
    let exponent := exponentOf num den
    let (n, d) := scaled 2 num den exponent
    let mantissa := roundHalfEven n d
    let (mantissa, exponent) :=
      if mantissa = 2 * leastFullMantissa then (leastFullMantissa, exponent + 1)
      else (mantissa, exponent)
    if largestExponent < exponent then .infinite false else .finite false mantissa exponent

/-- The number nearest to `digits / 10 ^ places`. -/
def ofDecimal (digits places : Nat) : Binary64 :=
  ofRatio digits (Nat.pow 10 places)

/-- The number with the other sign; zero has two of them. -/
def neg : Binary64 → Binary64
  | .finite negative mantissa exponent => .finite (!negative) mantissa exponent
  | .infinite negative => .infinite (!negative)

/-- The number with the sign of a zero forgotten, so that both zeros are one value. -/
def unsignedZero : Binary64 → Binary64
  | .finite _ 0 _ => .finite false 0 0
  | x => x

/-- The magnitude as a natural number, if it is one. -/
def natural? : Binary64 → Option Nat
  | .finite _ mantissa exponent =>
      let (n, d) := scaled 2 mantissa 1 (-exponent)
      if n % d = 0 then some (n / d) else none
  | .infinite _ => none

end Binary64

/-- The number of decimal digits of a positive number. -/
def digitCount (n : Nat) : Nat :=
  (Nat.toDigits 10 n).length

/-- The least power of ten above `num / den`. -/
def decimalMagnitude (num den : Nat) : Int :=
  if den ≤ num then digitCount (num / den) else 1 - (digitCount ((den - 1) / num) : Int)

/-- The decimals that round to one number, over the common denominator `den`. -/
structure RoundingInterval where
  low : Nat
  value : Nat
  high : Nat
  den : Nat
  closed : Bool

namespace RoundingInterval

/-- The interval of `mantissa · 2 ^ exponent`: half the way to either neighbour. The lower
neighbour of a power of two is only half as far away.
-/
def ofBinary (mantissa : Nat) (exponent : Int) : RoundingInterval :=
  let (unit, den) := scaled 2 1 1 (2 - exponent)
  let below := if mantissa = leastFullMantissa ∧ leastExponent < exponent then 1 else 2
  { low := (4 * mantissa - below) * unit
    value := 4 * mantissa * unit
    high := (4 * mantissa + 2) * unit
    den := den
    closed := mantissa % 2 = 0 }

/-- The decimal `digits · 10 ^ power` lies in the interval. -/
def admits (interval : RoundingInterval) (digits : Nat) (power : Int) : Bool :=
  let (n, d) := scaled 10 digits 1 (-power)
  let point := n * interval.den
  if interval.closed then interval.low * d ≤ point && point ≤ interval.high * d
  else interval.low * d < point && point < interval.high * d

/-- The better one of the two decimals around the value that end at `10 ^ power`, if one of them
lies in the interval: the nearer one, and of two equally near ones the larger.
-/
def nearest? (interval : RoundingInterval) (power : Int) : Option Nat :=
  let (n, d) := scaled 10 interval.value interval.den power
  let below := n / d
  match interval.admits below power, interval.admits (below + 1) power with
  | true, true => some (if 2 * (n % d) < d then below else below + 1)
  | true, false => some below
  | false, true => some (below + 1)
  | false, false => none

/-- The digits and the power of ten of the shortest decimal in the interval. -/
def shortest (interval : RoundingInterval) : Nat × Int :=
  let magnitude := decimalMagnitude interval.value interval.den
  let candidates := (List.range 17).findSome? fun n =>
    let power := magnitude - (n + 1 : Nat)
    (interval.nearest? power).map (·, power)
  candidates.getD (interval.value / interval.den, 0)

end RoundingInterval

/-- The digits of `digits · 10 ^ power` without an exponent and without zeros at the end of a
fraction.
-/
def positional (digits : Nat) (power : Int) : List Char :=
  if 0 ≤ power then Nat.toDigits 10 (digits * Nat.pow 10 power.toNat)
  else
    let places := (-power).toNat
    let unit := Nat.pow 10 places
    let fraction := Nat.toDigits 10 (digits % unit)
    let padded := List.replicate (places - fraction.length) '0' ++ fraction
    let kept := (padded.reverse.dropWhile (· = '0')).reverse
    Nat.toDigits 10 (digits / unit) ++ (if kept.isEmpty then [] else '.' :: kept)

namespace Binary64

/-- The sign as it is written before a magnitude. -/
def signText (negative : Bool) : String :=
  if negative then "-" else ""

/-- The shortest decimal that is nearest to the number, never with an exponent. -/
def text : Binary64 → String
  | .finite negative 0 _ => signText negative ++ "0"
  | .finite negative mantissa exponent =>
      let (digits, power) := (RoundingInterval.ofBinary mantissa exponent).shortest
      signText negative ++ String.ofList (positional digits power)
  | .infinite negative => signText negative ++ "inf"

/-- The number is below zero, or the zero with a minus sign. -/
def isNegative : Binary64 → Bool
  | .finite negative _ _ => negative
  | .infinite negative => negative

end Binary64

end CypherSql.Number
