/-!
The largest numbers that fit into machine words, and numbers that are written as digits.
-/

namespace CypherSql.Number

/-- The largest number of 32 bits. -/
def largestWord32 : Nat := 0xFFFFFFFF

/-- The largest number of 64 bits. -/
def largestWord64 : Nat := 0xFFFFFFFFFFFFFFFF

/-- The largest number of 64 bits with a sign. -/
def largestSigned64 : Nat := 0x7FFFFFFFFFFFFFFF

end CypherSql.Number

namespace CypherSql

/-- The digits of a number in a base up to sixteen, or `none` for another character. -/
def digitValue? (base : Nat) (c : Char) : Option Nat :=
  let value :=
    if c.isDigit then some (c.toNat - '0'.toNat)
    else if 'a' ≤ c ∧ c ≤ 'f' then some (c.toNat - 'a'.toNat + 10)
    else if 'A' ≤ c ∧ c ≤ 'F' then some (c.toNat - 'A'.toNat + 10)
    else none
  value.filter (· < base)

/-- The number that a sequence of digits denotes. -/
def digitsValue? (base : Nat) (digits : List Char) : Option Nat :=
  if digits.isEmpty then none
  else digits.foldlM (fun value c => (digitValue? base c).map (base * value + ·)) 0

end CypherSql
