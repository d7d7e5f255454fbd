import TileKernel.Error
import TileKernel.Scalar
import TileKernel.Target

/-!
# Register fragments

A fragment spreads a two-dimensional tile over the registers of `lanes` cooperating lanes. The
buffer (`shape`) is covered by `tile`-shaped pieces in row-major order, and each piece is spread by
its kind: a *strip* cuts the row-major tile into `vector`-element runs, one run per lane, which is
what a cooperative copy produces; a *matrix-unit* fragment uses the unit's 8×8 atoms, each lane
holding two adjacent elements per atom (adjacent along a column for the B operand).

`Fragment.map` sends an element to its `(lane, register)` slot and `Fragment.unmap` sends a slot
back; on a fragment that passes `Fragment.validate` they are inverse bijections between the
elements and the slots below `lanes × regsPerLane`. Slots and element counts are 32-bit words, so
the arithmetic that finds them faults on a fragment too large for its words.
-/

set_option autoImplicit false

namespace TileKernel

/-- How a fragment tile is spread over lanes. -/
inductive FragmentKind where
  /-- The row-major tile cut into `vector`-element runs, one per lane. -/
  | strip (vector : Nat)
  /-- The matrix unit's operand mapping. -/
  | mma (operand : MmaOperand)
deriving DecidableEq, Repr, Inhabited

/-- A register-tile layout. -/
structure Fragment where
  kind : FragmentKind
  shape : Nat × Nat
  tile : Nat × Nat
  lanes : Nat
deriving DecidableEq, Repr, Inhabited

/-- The word for a matrix-unit operand in messages. -/
def MmaOperand.word : MmaOperand → String
  | .a => "A"
  | .b => "B"
  | .acc => "Accumulator"

/-- The short name of a matrix-unit operand: `a`, `b`, `acc`. -/
def MmaOperand.short : MmaOperand → String
  | .a => "a"
  | .b => "b"
  | .acc => "acc"

namespace Fragment

/-- Checks the fragment against the target and its own shape: non-empty, spanning the target's
lanes, a whole number of tiles; a matrix-unit tile must divide the native tile and be made of 8×8
atoms over 32 lanes; a strip tile must be exactly `lanes` runs of `vector` elements. The strip's
element counts are 32-bit products. -/
def validate (f : Fragment) (t : Target) : ExceptT KernelError Checked Unit := do
  let (r, c) := f.tile
  let (s0, s1) := f.shape
  let invalid := fun (reason : String) =>
    (throw (KernelError.invalidFragment reason) : ExceptT KernelError Checked Unit)
  if r = 0 ∨ c = 0 ∨ s0 = 0 ∨ s1 = 0 then invalid "empty tile or shape"
  else if f.lanes ≠ t.lanes then
    invalid s!"fragment spans {f.lanes} lanes, target `{t.name}` has {t.lanes}"
  else if s0 % r ≠ 0 ∨ s1 % c ≠ 0 then
    invalid s!"shape {s0}x{s1} is not a multiple of tile {r}x{c}"
  else match f.kind with
    | .mma operand =>
      match t.mmaTile operand with
      | none => invalid s!"target `{t.name}` has no matrix unit"
      | some (nr, nc) =>
        if nr % r ≠ 0 ∨ nc % c ≠ 0 then
          invalid s!"tile {r}x{c} does not divide native {operand.word} tile {nr}x{nc}"
        else if r % 8 ≠ 0 ∨ c % 8 ≠ 0 ∨ f.lanes ≠ 32 then
          invalid s!"tile {r}x{c} over {f.lanes} lanes is not built from 8x8 atoms"
        else pure ()
    | .strip vector =>
      let stripFails := invalid s!"tile {r}x{c} is not {f.lanes} lanes of {vector} elements"
      if vector = 0 ∨ c % vector ≠ 0 then stripFails
      else if (← Word.u32.mul r c) ≠ (← Word.u32.mul f.lanes vector) then stripFails
      else pure ()

/-- The native operand fragment of the target's matrix unit over a buffer of this shape. -/
def ofMma (operand : MmaOperand) (shape : Nat × Nat) (t : Target) :
    ExceptT KernelError Checked Fragment :=
  match t.mmaTile operand with
  | none => throw (.invalidFragment s!"target `{t.name}` has no matrix unit")
  | some tile => do
    let f : Fragment := ⟨.mma operand, shape, tile, t.lanes⟩
    f.validate t
    pure f

/-- The largest power of two at most `cap` that divides `n`, found by doubling from 1. Each
double is a 32-bit product, so doubling past `2 ^ 31` faults; 32 doublings reach it, and the
fuel covers them. -/
def widestDividing (cap n : Nat) : Checked Nat :=
  go 33 1
where
  /-- Doubles `v` while the double stays within `cap` and divides `n`; `fuel` bounds the steps. -/
  go : Nat → Nat → Checked Nat
    | 0, v => pure v
    | fuel + 1, v => do
      let twice ← Word.u32.mul v 2
      if twice ≤ cap ∧ n % twice = 0 then go fuel twice else pure v

/-- The layout a cooperative copy of a `shape` tile of `dtype` into registers produces: each lane
takes the widest vector the target allows that divides a row, and the lanes' runs together cover
whole rows or a whole number of them. The vector budget is divided by the element size, which
faults for a type of no bytes. -/
def ofStrip (shape : Nat × Nat) (dtype : Scalar) (t : Target) :
    ExceptT KernelError Checked Fragment := do
  let maxVec := max (← Checked.div t.vectorBytes dtype.bytes) 1
  let vector ← widestDividing maxVec shape.2
  let total ← Word.u32.mul t.lanes vector
  let cols := if total ≤ shape.2 then total else shape.2
  if cols = 0 ∨ shape.2 % cols ≠ 0 ∨ total % cols ≠ 0 then
    throw (.invalidFragment
      s!"{shape.1}x{shape.2} cannot be split into {total}-element lane strips")
  let f : Fragment := ⟨.strip vector, shape, (total / cols, cols), t.lanes⟩
  f.validate t
  pure f

/-- Registers each lane holds per tile. -/
def regsPerTile (f : Fragment) : Checked Nat := do
  pure ((← Word.u32.mul f.tile.1 f.tile.2) / max f.lanes 1)

/-- Registers each lane holds for the whole buffer. -/
def regsPerLane (f : Fragment) : Checked Nat := do
  pure ((← Word.u32.mul f.shape.1 f.shape.2) / max f.lanes 1)

/-- The grid of tiles, `(rows, cols)`. -/
def tiles (f : Fragment) : Checked (Nat × Nat) := do
  pure (← Checked.div f.shape.1 f.tile.1, ← Checked.div f.shape.2 f.tile.2)

/-- Adjacent elements one lane owns along `contiguousAxis`. -/
def laneRun (f : Fragment) : Nat :=
  match f.kind with
  | .strip vector => vector
  | .mma _ => 2

/-- The axis along which a lane's elements are adjacent: rows for the B operand, else columns. -/
def contiguousAxis (f : Fragment) : Nat :=
  match f.kind with
  | .mma .b => 0
  | _ => 1

/-- Whether this fragment's tile evenly subdivides `tile`; the columns are looked at only when
the rows divide. -/
def divides (f : Fragment) (tile : Nat × Nat) : Checked Bool := do
  if (← Checked.rem tile.1 f.tile.1) ≠ 0 then return false
  return (← Checked.rem tile.2 f.tile.2) == 0

/-- The slot of an element inside one 8×8-atom tile with `rows` rows, atoms numbered
column-major, pairs along the column axis. -/
def atomMap (rr cc rows : Nat) : Checked (Nat × Nat) := do
  let atom ← Word.u32.add (← Word.u32.mul (cc / 8) (rows / 8)) (rr / 8)
  let lane ← Word.u32.add (← Word.u32.mul (rr % 8) 4) ((cc % 8) / 2)
  let reg ← Word.u32.add (← Word.u32.mul atom 2) ((cc % 8) % 2)
  pure (lane, reg)

/-- The element of an atom tile with `rows` rows held in `(lane, reg)`. -/
def atomUnmap (lane reg rows : Nat) : Checked (Nat × Nat) := do
  let atom := reg / 2
  let perCol := max (rows / 8) 1
  let row ← Word.u32.add (← Word.u32.mul (atom % perCol) 8) (lane / 4)
  let col ← Word.u32.add (← Word.u32.add (← Word.u32.mul (atom / perCol) 8)
    (← Word.u32.mul (lane % 4) 2)) (reg % 2)
  pure (row, col)

/-- The slot of an element inside one tile. -/
def mapInTile (f : Fragment) (rr cc : Nat) : Checked (Nat × Nat) := do
  match f.kind with
  | .strip vector =>
    let flat ← Word.u32.add (← Word.u32.mul rr f.tile.2) cc
    pure (← Checked.div flat vector, ← Checked.rem flat vector)
  | .mma .b => atomMap cc rr f.tile.2
  | .mma _ => atomMap rr cc f.tile.1

/-- The element inside one tile held in a slot. -/
def unmapInTile (f : Fragment) (lane reg : Nat) : Checked (Nat × Nat) := do
  match f.kind with
  | .strip vector =>
    let flat ← Word.u32.add (← Word.u32.mul lane vector) reg
    pure (← Checked.div flat f.tile.2, ← Checked.rem flat f.tile.2)
  | .mma .b =>
    let (cc, rr) ← atomUnmap lane reg f.tile.2
    pure (rr, cc)
  | .mma _ => atomUnmap lane reg f.tile.1

/-- The `(lane, register)` slot of element `(row, col)`; `none` outside the shape. -/
def map (f : Fragment) (row col : Nat) : Checked (Option (Nat × Nat)) := do
  if f.shape.1 ≤ row ∨ f.shape.2 ≤ col then return none
  let tileRow ← Checked.div row f.tile.1
  let tileId ← Word.u32.add (← Word.u32.mul tileRow (← f.tiles).2) (← Checked.div col f.tile.2)
  let (lane, reg) ← f.mapInTile (← Checked.rem row f.tile.1) (← Checked.rem col f.tile.2)
  let reg ← Word.u32.add (← Word.u32.mul tileId (← f.regsPerTile)) reg
  return some (lane, reg)

/-- The element held in a slot; `none` for a lane or register outside the fragment. -/
def unmap (f : Fragment) (lane reg : Nat) : Checked (Option (Nat × Nat)) := do
  let perTile ← f.regsPerTile
  if f.lanes ≤ lane ∨ perTile = 0 then return none
  let (tr, tc) ← f.tiles
  let tileId := reg / perTile
  if (← Word.u32.mul tr tc) ≤ tileId then return none
  let (rr, cc) ← f.unmapInTile lane (reg % perTile)
  let row ← Word.u32.add (← Word.u32.mul (tileId / tc) f.tile.1) rr
  let col ← Word.u32.add (← Word.u32.mul (tileId % tc) f.tile.2) cc
  return some (row, col)

/-- The printed form `frag.strip<8x32,v8>` or `frag.mma_acc<16x8>`. -/
def text (f : Fragment) : String :=
  match f.kind with
  | .strip vector => s!"frag.strip<{f.tile.1}x{f.tile.2},v{vector}>"
  | .mma operand => s!"frag.mma_{operand.short}<{f.tile.1}x{f.tile.2}>"

end Fragment
end TileKernel
