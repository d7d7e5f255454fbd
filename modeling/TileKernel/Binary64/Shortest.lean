import TileKernel.Binary64.Basic

/-!
# Shortest decimal text of a 64-bit word

A finite non-zero word stands for every real that rounds to it: from halfway to the word below to
halfway to the word above, the ends included exactly when the significand is even.
`Positive.readsBack` tests a decimal against those ends by cross-multiplying naturals.
`Positive.shortest` tries the grids `10 ^ g` from coarse to fine; on each it tests the two decimals
next to the value, and the first grid with a hit wins, the nearer of two hits, a tie going as the
style says. `Binary64.text` lays the digits out positionally or with an exponent, as a
`DecimalStyle` decides.
-/

set_option autoImplicit false

namespace TileKernel.Binary64

/-- A decimal `digits * 10 ^ exp`. -/
structure Decimal where
  digits : Nat
  exp : Int
deriving DecidableEq, Repr

/-- A positive finite value `m * 2 ^ q`; `narrowBelow` when the gap to the value below is half the
gap above (the significand is a power of two at the bottom of a normal binade). -/
structure Positive where
  m : Nat
  q : Int
  narrowBelow : Bool

/-- Compares `a * 10 ^ i` with `n * 2 ^ j`, exactly. -/
def cmpScaled (a : Nat) (i : Int) (n : Nat) (j : Int) : Ordering :=
  compare (a * Nat.pow 10 i.toNat * Nat.pow 2 (-j).toNat) (n * Nat.pow 2 j.toNat * Nat.pow 10 (-i).toNat)

/-- The decimal lies among the reals that round to the value. -/
def Positive.readsBack (x : Positive) (d : Decimal) : Bool :=
  let lo := if x.narrowBelow then 4 * x.m - 1 else 4 * x.m - 2
  let hi := 4 * x.m + 2
  let incl := x.m % 2 == 0
  let cl := cmpScaled d.digits d.exp lo (x.q - 2)
  let ch := cmpScaled d.digits d.exp hi (x.q - 2)
  (cl == .gt || (incl && cl == .eq)) && (ch == .lt || (incl && ch == .eq))

/-- The decimal exponent `g` of a grid at least as coarse as the value's leading digit:
`m * 2 ^ q < 10 ^ g`, from `m * 2 ^ q < 2 ^ b` and `log10 2 < 0.30103`, plus a step of margin. -/
def Positive.startGrid (x : Positive) : Int :=
  let b : Int := (Nat.log2 x.m : Int) + 1 + x.q
  let g : Int := if 0 ≤ b then (b.toNat * 30103 + 99999) / 100000 else -(((-b).toNat * 30103) / 100000 : Nat)
  g + 1

/-- How ties between two equally near decimals of one length go. -/
inductive Tie where
  | up
  | down
deriving DecidableEq, Repr

/-- The decimal chosen on the grid `10 ^ g`, if one of the value's two neighbours on it reads
back: of two, the nearer, and on a tie the one that `tie` names. -/
def Positive.onGrid? (x : Positive) (tie : Tie) (g : Int) : Option Nat :=
  let c := (x.m * Nat.pow 2 x.q.toNat * Nat.pow 10 (-g).toNat) / (Nat.pow 2 (-x.q).toNat * Nat.pow 10 g.toNat)
  match x.readsBack ⟨c, g⟩, x.readsBack ⟨c + 1, g⟩ with
  | true, true =>
    match cmpScaled (2 * c + 1) g (2 * x.m) x.q with
    | .lt => some (c + 1)
    | .gt => some c
    | .eq => some (if tie == .up then c + 1 else c)
  | true, false => some c
  | false, true => some (c + 1)
  | false, false => none

/-- Moves trailing zeros of the digits into the exponent. -/
def Decimal.strip (d : Decimal) : Decimal :=
  if h : d.digits ≠ 0 ∧ d.digits % 10 = 0 then
    Decimal.strip ⟨d.digits / 10, d.exp + 1⟩
  else d
termination_by d.digits
decreasing_by exact Nat.div_lt_self (Nat.pos_of_ne_zero h.1) (by decide)

/-- The exact decimal value `m * 2 ^ q`. -/
def Positive.exact (x : Positive) : Decimal :=
  if 0 ≤ x.q then ⟨x.m * Nat.pow 2 x.q.toNat, 0⟩ else ⟨x.m * Nat.pow 5 (-x.q).toNat, x.q⟩

/-- The shortest decimal that reads back, from the first grid with a hit. Twenty-four grids from
`startGrid` reach past seventeen significant digits, which always suffice; the exact value
stands behind them so that the function is total. -/
def Positive.shortest (x : Positive) (tie : Tie) : Decimal :=
  let start := x.startGrid
  let found := (List.range 24).findSome? fun (n : Nat) =>
    (x.onGrid? tie (start - n)).map fun c => (⟨c, start - n⟩ : Decimal)
  (found.getD x.exact).strip

/-- How a word is written: the leading-digit exponents written positionally
(`plainFrom ≤ e < plainBelow`), the tie rule, and the texts of NaN and infinity. Positional text
always has a point with at least one digit after it; exponent text has a point only when more
than one digit is written. -/
structure DecimalStyle where
  plainFrom : Int
  plainBelow : Int
  tie : Tie
  nanText : String
  infText : String

/-- `n` zeros. -/
def zeros (n : Nat) : String := String.ofList (List.replicate n '0')

/-- The text of a positive decimal, without a sign. -/
def Decimal.layout (s : DecimalStyle) (d : Decimal) : String :=
  let ds := Nat.toDigits 10 d.digits
  let n := ds.length
  let lead : Int := d.exp + n - 1
  if s.plainFrom ≤ lead ∧ lead < s.plainBelow then
    let p : Int := d.exp + n
    if p ≤ 0 then "0." ++ zeros (-p).toNat ++ String.ofList ds
    else if n ≤ p.toNat then String.ofList ds ++ zeros (p.toNat - n) ++ ".0"
    else String.ofList (ds.take p.toNat) ++ "." ++ String.ofList (ds.drop p.toNat)
  else
    let mant := match ds with
      | c :: rest@(_ :: _) => String.singleton c ++ "." ++ String.ofList rest
      | _ => String.ofList ds
    mant ++ "e" ++ toString lead

/-- The positive finite value a word stands for, with its narrow-gap flag. -/
def positiveOf (x : Binary64) (m : Nat) (q : Int) : Positive :=
  ⟨m, q, x.fracField == 0 && 1 < x.expField⟩

/-- The text of a word in the given style: the shortest decimal that reads back, its sign, and
the texts of zero, NaN and the infinities. -/
def text (s : DecimalStyle) (x : Binary64) : String :=
  match x.view with
  | .nan => s.nanText
  | .inf neg => (if neg then "-" else "") ++ s.infText
  | .finite neg m q =>
    let body := if m = 0 then "0.0" else ((positiveOf x m q).shortest s.tie).layout s
    (if neg then "-" else "") ++ body

end TileKernel.Binary64
