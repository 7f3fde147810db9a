/-! # Decimal numbers and their limits

Whether a decimal number is within the range of an integer or a float of 64 bits. -/
namespace SelectiveSync.Decimal
set_option autoImplicit false

/-- The value of decimal digits. -/
def natOf (digits : List Char) : Nat :=
  digits.foldl (fun n c => n * 10 + (c.toNat - 48)) 0

/-- The least number that is too large for a signed integer. -/
def integerLimit : Nat :=
  Nat.pow 2 63

/-- The least number that is too large for a float: halfway between the greatest of them and the
next power of two. -/
def floatLimit : Nat :=
  Nat.pow 2 1024 - Nat.pow 2 970

/-- The number `m * 10 ^ (exponent - places)`, or with the exponent negated, is within range. -/
def isFinite (m places : Nat) (exponentNegative : Bool) (exponent : Nat) : Bool :=
  let digits := (Nat.toDigits 10 m).length
  let up := if exponentNegative then 0 else exponent
  let down := places + if exponentNegative then exponent else 0
  if m = 0 then true
  else if digits + up > down + 310 then false
  else if digits + up < down + 300 then true
  else m * Nat.pow 10 (up - down) < floatLimit * Nat.pow 10 (down - up)

end SelectiveSync.Decimal
