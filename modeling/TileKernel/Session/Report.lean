import TileKernel.Layout.Basic
import TileKernel.Swizzle

/-!
# Reports on layouts and swizzles

Each report gathers what a layout building block says about a list of sample points: a swizzle's
images and preimages, the ranges it permutes, and a prefix of its table; a dense layout's
strides, offsets and indices; a fragment's sizes and its slots of sample elements. Reports let one
request inspect a building block without a kernel around it. Dense and fragment reports compute
machine counts, so making one may fault.
-/

set_option autoImplicit false

namespace TileKernel

/-- What a swizzle does to sample offsets and extents. -/
structure SwizzleReport where
  swizzle : Swizzle
  apply : List Nat
  inverseApply : List Nat
  /-- Each offset through the swizzle and back. -/
  roundTrip : List Nat
  bijectiveOn : List Bool
  /-- The images of `0, 1, …` up to the scan length. -/
  scan : List Nat

/-- The longest table prefix a swizzle report lists. -/
def Swizzle.scanLimit : Nat := 65536

/-- The report of a swizzle on sample offsets and extents, with a table of `scan` entries at
most `Swizzle.scanLimit`. -/
def SwizzleReport.of (s : Swizzle) (offsets extents : List Nat) (scan : Nat) : SwizzleReport :=
  { swizzle := s, apply := offsets.map s.apply, inverseApply := offsets.map s.inverse.apply,
    roundTrip := offsets.map fun x => s.inverse.apply (s.apply x),
    bijectiveOn := extents.map s.isBijectiveOn,
    scan := (List.range (min scan Swizzle.scanLimit)).map s.apply }

/-- What a dense layout says about sample indices and offsets. -/
structure DenseReport where
  layout : DenseLayout
  strides : List Nat
  extent : Nat
  /-- The offset of each index; `none` out of range. -/
  offsets : List (Option Nat)
  /-- The location of each index, through the general layout interface. -/
  locations : List (Option Location)
  /-- The index at each offset. -/
  indices : List (Option (List Nat))
  /-- The index of register `0` of lane `0`, which no dense layout has. -/
  registerIndex : Option (List Nat)
  /-- Every dimension order of the shape, as layouts. -/
  allOrders : List DenseLayout

/-- The report of a dense layout, its parts computed in the order they are listed. -/
def DenseReport.of (d : DenseLayout) (indices : List (List Nat)) (offsets : List Nat) :
    Checked DenseReport := do
  let strides ← d.strides
  let extent ← d.extent
  let offsetsAt ← indices.mapM d.offset
  let locations ← indices.mapM (Layout.dense d).locate
  let indicesAt ← offsets.mapM d.indexOf
  let registerIndex ← (Layout.dense d).indexOf (.register 0 0)
  return { layout := d, strides, extent, offsets := offsetsAt, locations, indices := indicesAt,
           registerIndex, allOrders := DenseLayout.allOrders d.shape }

/-- The largest fragment whose whole slot table a report lists. -/
def Fragment.tableLimit : Nat := 8192

/-- What a valid fragment says about its sizes, sample elements, slots and tiles. -/
structure FragmentFacts where
  regsPerTile : Nat
  regsPerLane : Nat
  tiles : Nat × Nat
  laneRun : Nat
  contiguousAxis : Nat
  /-- The slot of each sample element. -/
  slots : List (Option (Nat × Nat))
  /-- The element of each sample slot. -/
  elements : List (Option (Nat × Nat))
  /-- Whether the fragment's tile divides each sample tile. -/
  divides : List Bool
  /-- The index of offset `0`, which no fragment has. -/
  offsetIndex : Option (List Nat)
  /-- The slot of every element in row-major order, when asked for and at most
  `Fragment.tableLimit` elements. -/
  table : Option (List (Option (Nat × Nat)))

/-- What a fragment says on a target: why it is invalid, or its facts. -/
structure FragmentReport where
  fragment : Fragment
  facts : Except KernelError FragmentFacts

/-- The report of a fragment on a target. The fragment is validated first; the facts of a valid
one are computed in the order they are listed. -/
def FragmentReport.of (f : Fragment) (t : Target) (points slots tiles : List (Nat × Nat))
    (wantTable : Bool) : Checked FragmentReport := do
  match ← (f.validate t).run with
  | .error e => return ⟨f, .error e⟩
  | .ok () =>
    let regsPerTile ← f.regsPerTile
    let regsPerLane ← f.regsPerLane
    let tileGrid ← f.tiles
    let slotsAt ← points.mapM fun (r, c) => f.map r c
    let elements ← slots.mapM fun (l, r) => f.unmap l r
    let divides ← tiles.mapM f.divides
    let offsetIndex ← (Layout.fragment f).indexOf (.offset 0)
    let (rows, cols) := f.shape
    let table ← if wantTable && rows * cols ≤ Fragment.tableLimit then
        some <$> ((List.range rows).flatMap fun r => (List.range cols).map fun c => (r, c)).mapM
          fun (r, c) => f.map r c
      else pure none
    let facts : FragmentFacts :=
      { regsPerTile, regsPerLane, tiles := tileGrid, laneRun := f.laneRun,
        contiguousAxis := f.contiguousAxis, slots := slotsAt, elements, divides, offsetIndex, table }
    return ⟨f, .ok facts⟩

end TileKernel
