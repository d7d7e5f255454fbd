import TileKernel.Error

/-!
# Dense layouts

A dense layout stores a tile contiguously, its dimensions nested in `order` (outermost first), so
the last dimension of the order has unit stride. `DenseLayout.offset` sends an in-range index to
its element offset and `DenseLayout.indexOf` sends an offset below the extent back to its index,
walking the order with division and remainder by the strides. Strides and extents are 64-bit
counts: computing them for a layout of `2 ^ 64` elements or more faults.
-/

set_option autoImplicit false

namespace TileKernel

/-- A tile's shape and its dimensions in memory order, outermost first. -/
structure DenseLayout where
  shape : Shape
  order : List Nat
deriving DecidableEq, Repr, Inhabited

namespace DenseLayout

/-- Dimensions in their own order: the last one has unit stride. -/
def rowMajor (shape : Shape) : DenseLayout := ⟨shape, List.range shape.length⟩

/-- Dimensions in reverse order: the first one has unit stride. -/
def colMajor (shape : Shape) : DenseLayout := ⟨shape, (List.range shape.length).reverse⟩

/-- A layout with an explicit order, which must list every dimension exactly once. -/
def withOrder (shape : Shape) (order : List Nat) : Except KernelError DenseLayout :=
  if order.length ≠ shape.length then
    .error (.invalidLayout s!"order {natListText order} does not cover rank {shape.length}")
  else if order.all (· < shape.length) && order.Nodup then .ok ⟨shape, order⟩
  else .error (.invalidLayout s!"order {natListText order} is not a permutation")

/-- Every ordering of the list `xs`, in lexicographic order when `xs` is sorted. -/
def orderings (xs : List Nat) : List (List Nat) :=
  if xs = [] then [[]] else
  xs.attach.flatMap fun ⟨x, hx⟩ =>
    have : (xs.erase x).length < xs.length := by
      rw [List.length_erase_of_mem hx]
      have := List.length_pos_of_mem hx
      omega
    (orderings (xs.erase x)).map (x :: ·)
termination_by xs.length

/-- Every dimension order of a shape, in lexicographic order, so row-major first. Ranks above 4
only give row- and column-major. -/
def allOrders (shape : Shape) : List DenseLayout :=
  let rank := shape.length
  if 4 < rank then [rowMajor shape, colMajor shape]
  else (orderings (List.range rank)).map (⟨shape, ·⟩)

/-- Whether each dimension is in its own place. -/
def isRowMajor (d : DenseLayout) : Bool := d.order == List.range d.order.length

/-- The dimension with unit stride (0 for an empty order). -/
def innermost (d : DenseLayout) : Nat := d.order.getLast?.getD 0

/-- Contiguous elements along the innermost dimension. -/
def innermostExtent (d : DenseLayout) : Nat := d.shape[d.innermost]?.getD 1

/-- Element stride of each dimension, indexed by dimension: the product of the extents of the
dimensions inside it in the order. The running product is a 64-bit word and goes on through the
outermost dimension, so a layout of `2 ^ 64` elements or more faults. -/
def strides (d : DenseLayout) : Checked (List Nat) := do
  let step := fun (acc : List Nat × Nat) (dim : Nat) => do
    let next ← Word.u64.mul acc.2 (d.shape[dim]?.getD 0)
    pure (acc.1.set dim acc.2, next)
  let (st, _) ← d.order.reverse.foldlM step (List.replicate d.shape.length 0, 1)
  pure st

/-- Total number of elements, a 64-bit count. -/
def extent (d : DenseLayout) : Checked Nat := d.shape.count

/-- Element offset of an index; `none` for the wrong rank or an index out of range. The strides
are computed once the rank is right. -/
def offset (d : DenseLayout) (index : List Nat) : Checked (Option Nat) := do
  if index.length ≠ d.shape.length then return none
  let strides ← d.strides
  if (index.zip d.shape).all (fun (i, n) => i < n) then
    return some ((index.zip strides).foldl (fun acc (i, s) => acc + i * s) 0)
  else return none

/-- The index stored at an offset; `none` from the extent on. -/
def indexOf (d : DenseLayout) (off : Nat) : Checked (Option (List Nat)) := do
  if (← d.extent) ≤ off then return none
  let strides ← d.strides
  let step := fun (acc : List Nat × Nat) (dim : Nat) =>
    let s := strides[dim]?.getD 0
    (acc.1.set dim (acc.2 / s), acc.2 % s)
  return some (d.order.foldl step (List.replicate d.shape.length 0, off)).1

/-- The printed form `dense[1,0]`. -/
def text (d : DenseLayout) : String := "dense[" ++ ",".intercalate (d.order.map toString) ++ "]"

end DenseLayout
end TileKernel
