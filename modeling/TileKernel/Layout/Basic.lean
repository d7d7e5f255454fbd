import TileKernel.Layout.Dense
import TileKernel.Layout.Fragment

/-!
# Physical layouts

The layout attached to a buffer is dense (an element offset per index) or a register fragment (a
`(lane, register)` slot per index). `Layout.locate` sends an index to its `Location` and
`Layout.indexOf` inverts it; a location of the other sort than the layout has no index.
-/

set_option autoImplicit false

namespace TileKernel

/-- Where one element lives. -/
inductive Location where
  | offset (off : Nat)
  | register (lane reg : Nat)
deriving DecidableEq, Repr

/-- The physical layout of a buffer. -/
inductive Layout where
  | dense (d : DenseLayout)
  | fragment (f : Fragment)
deriving DecidableEq, Repr, Inhabited

namespace Layout

/-- The row-major dense layout of a shape. -/
def rowMajor (shape : Shape) : Layout := .dense (DenseLayout.rowMajor shape)

/-- The shape the layout covers. -/
def shape : Layout → Shape
  | .dense d => d.shape
  | .fragment f => [f.shape.1, f.shape.2]

/-- The dense layout, if this is one. -/
def asDense? : Layout → Option DenseLayout
  | .dense d => some d
  | .fragment _ => none

/-- The fragment, if this is one. -/
def asFragment? : Layout → Option Fragment
  | .fragment f => some f
  | .dense _ => none

/-- Whether the layout is a register fragment. -/
def isFragment (l : Layout) : Bool := l.asFragment?.isSome

/-- Where an index lives; `none` when it is out of range or of the wrong rank. -/
def locate (l : Layout) (index : List Nat) : Checked (Option Location) :=
  match l, index with
  | .dense d, _ => return (← d.offset index).map .offset
  | .fragment f, [row, col] => return (← f.map row col).map fun (lane, reg) => .register lane reg
  | .fragment _, _ => pure none

/-- The index stored at a location. -/
def indexOf (l : Layout) (loc : Location) : Checked (Option (List Nat)) :=
  match l, loc with
  | .dense d, .offset off => d.indexOf off
  | .fragment f, .register lane reg => return (← f.unmap lane reg).map fun (r, c) => [r, c]
  | _, _ => pure none

/-- The printed form of the layout. -/
def text : Layout → String
  | .dense d => d.text
  | .fragment f => f.text

end Layout
end TileKernel
