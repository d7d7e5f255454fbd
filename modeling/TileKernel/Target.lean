import TileKernel.Fault
/-!
# Target hardware descriptions

A `Target` gives what layout, swizzle and store planning need to know of a device: its matrix
unit's native `m × n × k` tile (if it has one), the lanes that share a register tile, the
shared-memory banks and their width, and the widest vector and atomic access per lane. Two presets
are provided: an Ampere-class GPU and a host CPU.
-/

set_option autoImplicit false

namespace TileKernel

/-- The operand of the matrix unit a register tile feeds. -/
inductive MmaOperand where
  | a
  | b
  | acc
deriving DecidableEq, Repr, Inhabited

/-- The operand of a name: `a`, `b` or `acc`. -/
def MmaOperand.ofName? : String → Option MmaOperand
  | "a" => some .a
  | "b" => some .b
  | "acc" => some .acc
  | _ => none

/-- The hardware parameters of a device. -/
structure Target where
  name : String
  mma : Option (Nat × Nat × Nat)
  lanes : Nat
  bankCount : Nat
  bankWidth : Nat
  vectorBytes : Nat
  atomicBytes : Nat
deriving DecidableEq, Repr, Inhabited

namespace Target

/-- An Ampere-class GPU: `16 × 8 × 16` tensor cores, 32-lane warps and 32 four-byte banks. -/
def sm80 : Target :=
  { name := "sm80", mma := some (16, 8, 16), lanes := 32, bankCount := 32, bankWidth := 4,
    vectorBytes := 16, atomicBytes := 4 }

/-- A host CPU with 256-bit vectors and no matrix unit. -/
def cpu : Target :=
  { name := "cpu", mma := none, lanes := 1, bankCount := 1, bankWidth := 64,
    vectorBytes := 32, atomicBytes := 8 }

/-- The native `(rows, cols)` tile of one matrix-unit operand: `m × k` for A, `k × n` for B and
`m × n` for the accumulator. -/
def mmaTile (t : Target) (operand : MmaOperand) : Option (Nat × Nat) :=
  t.mma.map fun (m, n, k) =>
    match operand with
    | .a => (m, k)
    | .b => (k, n)
    | .acc => (m, n)

/-- Bytes served by all banks in one wavefront, a 32-bit count. -/
def bankRowBytes (t : Target) : Checked Nat := Word.u32.mul t.bankCount t.bankWidth

/-- The preset of a name: `sm80` or `cpu`. -/
def preset? : String → Option Target
  | "sm80" => some sm80
  | "cpu" => some cpu
  | _ => none

end Target
end TileKernel
