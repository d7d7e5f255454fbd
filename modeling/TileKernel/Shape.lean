import TileKernel.Fault

/-!
# Shapes and index lists

A `Shape` lists a tile's extent along each dimension, outermost first. Shapes, dimension orders
and indices are all printed alike, as `[64, 32]`.
-/

set_option autoImplicit false

namespace TileKernel

/-- Extents of a tile, one per dimension. -/
abbrev Shape := List Nat

/-- The text of a list of naturals: `[a, b, c]`. -/
def natListText (xs : List Nat) : String :=
  "[" ++ ", ".intercalate (xs.map toString) ++ "]"

namespace Shape

/-- Number of elements of a tile of this shape. -/
def elements (s : Shape) : Nat := s.foldl (· * ·) 1

/-- Number of elements, multiplied out from the outermost extent in a 64-bit word. -/
def count (s : Shape) : Checked Nat := Word.u64.product s

/-- The printed form `[a, b]`. -/
def text (s : Shape) : String := natListText s

/-- Replaces the extent along `axis`. -/
def withExtent (s : Shape) (axis extent : Nat) : Shape := s.set axis extent

end Shape
end TileKernel
