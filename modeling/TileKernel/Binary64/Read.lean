import TileKernel.Binary64.Basic

/-!
# Reading decimal numbers into 64-bit words

`ofDecimal` gives the word nearest to `±m * 10 ^ k`, correctly rounded; magnitudes that lie far
outside the range are settled from their digit count before any power of ten is formed, so a
huge exponent costs nothing. `ofString?` reads the usual text of a number: an optional sign, then
`inf`, `infinity` or `nan` in any case, or digits with an optional point and an optional exponent
`e`/`E` with its own optional sign. At least one digit must stand before or after the point.
-/

set_option autoImplicit false

namespace TileKernel.Binary64

/-- The number of decimal digits of `m` (one for zero). -/
def decimalLength (m : Nat) : Nat := (Nat.toDigits 10 m).length

/-- The word nearest to `±(m * 10 ^ k)`, ties to even. A value of at least `10 ^ 310` is an
infinity, one below `10 ^ -330` a zero, both well outside the range where rounding can go either
way. -/
def ofDecimal (neg : Bool) (m : Nat) (k : Int) : Binary64 :=
  if m = 0 then zero neg else
  let d : Int := decimalLength m
  if 310 < d + k then inf neg
  else if d + k < -330 then zero neg
  else if 0 ≤ k then ofExact neg (m * Nat.pow 10 k.toNat) 1 0
  else ofExact neg m (Nat.pow 10 (-k).toNat) 0

/-- The leading decimal digits of a character list: their value, how many there are, and the
rest of the list. -/
def digitsPrefix : List Char → Nat × Nat × List Char
  | c :: cs =>
    if c.isDigit then
      let (v, n, r) := digitsPrefix cs
      ((c.toNat - '0'.toNat) * Nat.pow 10 n + v, n + 1, r)
    else (0, 0, c :: cs)
  | [] => (0, 0, [])

/-- An optional leading sign: whether it is `-`, and the rest. -/
def signPrefix : List Char → Bool × List Char
  | '-' :: r => (true, r)
  | '+' :: r => (false, r)
  | r => (false, r)

/-- Reads an exponent part `e±digits` (or nothing) that must end the text. -/
def exponentPart? : List Char → Option Int
  | [] => some 0
  | c :: r =>
    if c == 'e' || c == 'E' then
      let (neg, body) := signPrefix r
      let (v, n, rest) := digitsPrefix body
      if n = 0 || !rest.isEmpty then none else some (if neg then -(v : Int) else v)
    else none

/-- Reads the text of a number; `none` when it is not one. -/
def ofString? (s : String) : Option Binary64 :=
  let (neg, body) := signPrefix s.toList
  let word := body.map Char.toLower
  if word == "inf".toList || word == "infinity".toList then some (inf neg)
  else if word == "nan".toList then some nan
  else
    let (iv, ic, r1) := digitsPrefix body
    let (fv, fc, r2) := match r1 with
      | '.' :: r => digitsPrefix r
      | r => (0, 0, r)
    if ic + fc = 0 then none else
    (exponentPart? r2).map fun k => ofDecimal neg (iv * Nat.pow 10 fc + fv) (k - fc)

end TileKernel.Binary64
