import TileKernel.Analysis.Bank
import TileKernel.Analysis.DefUse

/-!
# Per-lane access patterns

The addresses the lanes of a target issue when an op touches a dense buffer depend on what is on
the other side of the access:

* a matrix-unit operand load gathers the 8 lines of one 8×8 atom per instruction, a line being
  contiguous along the layout's innermost axis (`rowGather`);
* a register fragment is moved one register group at a time, each lane addressing the element its
  slot holds (`fragmentSweep`);
* anything else is a cooperative sweep in which consecutive lanes take consecutive vectors along
  the partner's contiguous axis (`cooperativeSweep`).

Offsets are element offsets in the buffer's dense layout, taken for the operand's region at
iteration 0; an index that falls outside the layout makes the whole pattern unavailable, and
nothing after it is looked at. Patterns are built lazily in program order, so a fault is the one
met first in that order.
-/

set_option autoImplicit false

namespace TileKernel

/-- The widest power of two, at most `vectorBytes / elemBytes` (and at least 1), dividing
`extent`. -/
def naturalVector (extent elemBytes vectorBytes : Nat) : Checked Nat :=
  Fragment.widestDividing (max (vectorBytes / max elemBytes 1) 1) extent

/-- Where an op touches a dense buffer: the layout, the region's origin and shape, and the
element size. -/
structure Site where
  op : OpId
  dense : DenseLayout
  origin : List Nat
  tile : Shape
  elem : Nat

/-- The buffer offset of an index relative to the region; the index is shifted by the origin
in 32-bit words. -/
def Site.offset (s : Site) (pos : List Nat) : Checked (Option Nat) := do
  let index ← (pos.zip s.origin).mapM fun (l, o) => Word.u32.add l o
  s.dense.offset index

/-- Matrix-unit operand loads: each instruction reads the 8 lines of one 8×8 atom, `line`
elements each along the innermost axis. -/
def rowGather (s : Site) (t : Target) : OptionT Checked AccessPattern :=
  match s.tile with
  | [t0, t1] => do
    let inner := s.dense.innermost
    let outer := 1 - inner
    let tileAt := fun (d : Nat) => if d = 0 then t0 else t1
    let line := min (max (t.vectorBytes / s.elem) 1) 8
    if tileAt inner % line ≠ 0 ∨ tileAt outer % 8 ≠ 0 then failure
    let rows ← mapStepsM (tileAt outer) 8 fun ob =>
      mapStepsM (tileAt inner) line fun ib =>
        (List.range 8).mapM fun j => do
          let pos := if inner = 0 then [ib, ob + j] else [ob + j, ib]
          let off ← OptionT.mk (s.offset pos)
          pure (⟨j, off, line⟩ : LaneAccess)
    let phases := rows.flatten
    pure ⟨s.op, line, phases⟩
  | _ => failure

/-- Register-fragment transfers: one instruction per register group of `vector` registers. The
register count is taken before the group width is checked to be non-zero. -/
def fragmentSweep (s : Site) (f : Fragment) : OptionT Checked AccessPattern := do
  let vector := if s.dense.innermost = f.contiguousAxis then f.laneRun else 1
  let regs ← f.regsPerLane
  if vector = 0 then throwThe Fault .zeroStep
  let phases ← mapStepsM regs vector fun reg =>
    mapStepsM f.lanes 1 fun lane => do
      let (r, c) ← OptionT.mk (f.unmap lane reg)
      let off ← OptionT.mk (s.offset [r, c])
      pure (⟨lane, off, vector⟩ : LaneAccess)
  pure ⟨s.op, vector, phases⟩

/-- Cuts a list into consecutive groups of `n`. -/
def groupsOf {α : Type} (n : Nat) (xs : List α) : List (List α) := BankModel.chunks n xs

/-- Cooperative sweeps: lanes take consecutive `vector`-element chunks along the partner's
innermost axis (the buffer's own without a dense partner of the same rank), sweeping the other
axes outside it; every `lanes` chunks form one instruction. -/
def cooperativeSweep (s : Site) (op : TileOp) (partner : Option DenseLayout) (t : Target) :
    OptionT Checked AccessPattern := do
  let rank := s.tile.length
  let axis := match partner with
    | some p => if p.shape.length = rank then p.innermost else s.dense.innermost
    | none => s.dense.innermost
  let extent ← (Checked.get s.tile axis : Checked Nat)
  let vector ← if s.dense.innermost ≠ axis then pure 1 else
    match op.kind.vector? with
    | some v => pure v
    | none => naturalVector extent s.elem t.vectorBytes
  if vector = 0 ∨ extent % vector ≠ 0 then failure
  let counts := s.tile.set axis (extent / vector)
  let order := ((List.range rank).filter (· ≠ axis)) ++ [axis]
  let .ok sweep := DenseLayout.withOrder counts order | failure
  let lanes := max t.lanes 1
  let accesses ← mapStepsM (← sweep.extent) 1 fun n => do
    let pos ← OptionT.mk (sweep.indexOf n)
    let pos := pos.set axis ((pos[axis]?.getD 0) * vector)
    let off ← OptionT.mk (s.offset pos)
    pure (⟨n % lanes, off, vector⟩ : LaneAccess)
  pure ⟨s.op, vector, groupsOf lanes accesses⟩

/-- The first operand of the op on the buffer. -/
def operandOn (op : TileOp) (b : BufferId) : Option Operand := op.operands.find? (·.buffer == b)

/-- The pattern of an op against a buffer; nothing when the op does not touch it, the buffer has
no dense layout, or the pattern leaves the layout. A product first tries the atom gather; then a
register partner (the layout of the first operand on another buffer) gives a fragment sweep, any
other a cooperative sweep. -/
def accessPattern (k : Kernel) (t : Target) (h : OpId) (b : BufferId) :
    OptionT Checked AccessPattern := do
  let buf := k.buffer b
  let some layout := buf.layout | failure
  let some dense := layout.asDense? | failure
  let op := k.op h
  let some operand := operandOn op b | failure
  let site : Site :=
    { op := h, dense, origin := ← operand.origin buf.shape.length 0,
      tile := operand.tileShape buf.shape, elem := buf.dtype.bytes }
  let partner := (op.operands.find? (·.buffer != b)).bind fun o => (k.buffer o.buffer).layout
  let gathered ← OptionT.lift (match op.kind with
    | .gemm _ => (rowGather site t).run
    | _ => pure none)
  match gathered, partner with
  | some p, _ => pure p
  | none, some (.fragment f) => fragmentSweep site f
  | none, other => cooperativeSweep site op (other.bind Layout.asDense?) t

/-- The patterns of every live op touching a buffer, in program order. -/
def accessPatterns (k : Kernel) (t : Target) (d : DefUse) (b : BufferId) :
    Checked (List AccessPattern) := do
  let found ← (d.accessors b).mapM fun h => (accessPattern k t h b).run
  pure found.reduceOption

end TileKernel
