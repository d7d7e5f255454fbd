/-!
# Faults of machine arithmetic

Sizes, offsets, counts and widths are held in unsigned machine words of 8, 32 or 64 bits. An
operation whose exact result leaves its word's range, a division or remainder by zero, or an
iteration with a zero step does not answer: it *faults*, and the computation stops. A fault is
not an error of the kernel being compiled, so nothing that handles errors handles it; it ends
whatever request it occurs in.

`Checked` is a computation that may fault. `Word.add`, `Word.sub` and `Word.mul` compute exactly
and fault when the result does not fit the word; `Word.product` and `Word.sum` fold from the
left, faulting at the first partial result that does not fit, even when a later factor is zero.
-/

set_option autoImplicit false

namespace TileKernel

/-- Why a computation stops instead of answering. -/
inductive Fault where
  | addOverflow
  | subOverflow
  | mulOverflow
  | divByZero
  | remByZero
  /-- An iteration over a range with a step of zero. -/
  | zeroStep
  /-- A position past the end of a sequence of `len` entries. -/
  | indexOutOfBounds (len index : Nat)
deriving DecidableEq, Repr

/-- The text of a fault. -/
def Fault.message : Fault → String
  | .addOverflow => "attempt to add with overflow"
  | .subOverflow => "attempt to subtract with overflow"
  | .mulOverflow => "attempt to multiply with overflow"
  | .divByZero => "attempt to divide by zero"
  | .remByZero => "attempt to calculate the remainder with a divisor of zero"
  | .zeroStep => "assertion failed: step != 0"
  | .indexOutOfBounds len index => s!"index out of bounds: the len is {len} but the index is {index}"

/-- A computation that may fault. -/
abbrev Checked := Except Fault

/-- An unsigned machine word. -/
inductive Word where
  | byte
  | u32
  | u64
deriving DecidableEq, Repr

namespace Word

/-- The number of values of the word: every value lies below it. -/
def bound : Word → Nat
  | .byte => Nat.pow 2 8
  | .u32 => Nat.pow 2 32
  | .u64 => Nat.pow 2 64

/-- The largest value of the word. -/
def max (w : Word) : Nat := w.bound - 1

/-- A result of the word, or the fault of one that does not fit. -/
def fit (w : Word) (f : Fault) (n : Nat) : Checked Nat :=
  if n < w.bound then .ok n else .error f

/-- The sum, faulting when it does not fit. -/
def add (w : Word) (a b : Nat) : Checked Nat := w.fit .addOverflow (a + b)

/-- The difference, faulting when it is negative. -/
def sub (_w : Word) (a b : Nat) : Checked Nat := if b ≤ a then .ok (a - b) else .error .subOverflow

/-- The product, faulting when it does not fit. -/
def mul (w : Word) (a b : Nat) : Checked Nat := w.fit .mulOverflow (a * b)

/-- The product of a list, folded from the left from 1. -/
def product (w : Word) (xs : List Nat) : Checked Nat := xs.foldlM (w.mul) 1

/-- The sum of a list, folded from the left from 0. -/
def sum (w : Word) (xs : List Nat) : Checked Nat := xs.foldlM (w.add) 0

end Word

namespace Checked

/-- The quotient rounded down, faulting on a zero divisor. -/
def div (a b : Nat) : Checked Nat := if b = 0 then .error .divByZero else .ok (a / b)

/-- The remainder, faulting on a zero divisor. -/
def rem (a b : Nat) : Checked Nat := if b = 0 then .error .remByZero else .ok (a % b)

/-- The entry at a position, faulting past the end. -/
def get {α : Type} (xs : List α) (i : Nat) : Checked α :=
  match xs[i]? with
  | some a => .ok a
  | none => .error (.indexOutOfBounds xs.length i)

/-- The entry at a position of an array, faulting past the end. -/
def entry {α : Type} (xs : Array α) (i : Nat) : Checked α :=
  match xs[i]? with
  | some a => .ok a
  | none => .error (.indexOutOfBounds xs.size i)

end Checked

/-- Runs `f` at `0, step, 2 * step, …` below `n` in order, collecting its results; one call per
position, `⌈n / step⌉` of them (none for a zero step). Positions are produced one at a time, so
a computation that stops early never builds the rest. -/
def mapStepsM {m : Type → Type} [Monad m] {α : Type} (n step : Nat) (f : Nat → m α) :
    m (List α) :=
  go ((n + step - 1) / step) 0 []
where
  /-- `count` more positions from `i`, results so far in reverse in `acc`. -/
  go : Nat → Nat → List α → m (List α)
    | 0, _, acc => pure acc.reverse
    | count + 1, i, acc => do go count (i + step) ((← f i) :: acc)

/-- Folds `f` over `0, 1, …, n - 1` in order, from `init`. Positions are produced one at a time,
so a computation that stops early never builds the rest. -/
def foldRangeM {m : Type → Type} [Monad m] {β : Type} (n : Nat) (f : β → Nat → m β) (init : β) :
    m β :=
  go n 0 init
where
  /-- `count` more positions from `i`, the result so far in `acc`. -/
  go : Nat → Nat → β → m β
    | 0, _, acc => pure acc
    | count + 1, i, acc => do go count (i + 1) (← f acc i)

end TileKernel
