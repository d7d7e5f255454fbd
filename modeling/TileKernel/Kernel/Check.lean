import TileKernel.Kernel.Basic

/-!
# Checking kernels

`Kernel.checkOperands` checks an op against its kind: the number of inputs and outputs, that
every operand names a buffer and every window tiles its axis, and the shape and scope rules of
the kind (a copy keeps type and tile, a reduction drops or keeps its axis as 1, a product's tiles
compose, an accumulator lives in registers, ...). `Kernel.validate` checks the whole kernel: the
operands of every live op, an acyclic dependency graph, every live dependency placed earlier in
program order, and every loop window staying inside its buffer. `Kernel.checkResolved` requires a
layout on every buffer.
-/

set_option autoImplicit false

namespace TileKernel
namespace Kernel

/-- The buffer behind a handle, or the error naming the missed handle. -/
def tryBuffer (k : Kernel) (h : BufferId) : Except KernelError Buffer :=
  match k.buffer? h with
  | some b => .ok b
  | none => .error (.badHandle .buffer h.idx k.buffers.size)

/-- The op behind a handle, or the error naming the missed handle. -/
def checkOp (k : Kernel) (h : OpId) : Except KernelError TileOp :=
  match k.op? h with
  | some o => .ok o
  | none => .error (.badHandle .op h.idx k.ops.size)

/-- The loop behind a handle, or the error naming the missed handle. -/
def tryLoop (k : Kernel) (h : LoopId) : Except KernelError LoopNest :=
  match k.loop? h with
  | some l => .ok l
  | none => .error (.badHandle .loop h.idx k.loops.size)

/-- The region shape one execution of an operand touches. -/
def tileShapeOf (k : Kernel) (o : Operand) : Shape := o.tileShape (k.buffer o.buffer).shape

/-- Every operand names a buffer, and every window is non-empty and tiles its axis. -/
def checkWindows (k : Kernel) (op : TileOp) : Except KernelError Unit :=
  op.operands.forM fun o => do
    let b ← k.tryBuffer o.buffer
    match o.step with
    | none => pure ()
    | some s =>
      let fits := match b.shape[s.axis]? with
        | some n => 0 < s.extent && n % s.extent == 0
        | none => false
      unless fits do
        throw (.operands op.name s!"window {s.extent}@{s.axis} does not tile `{b.name}`")

/-- The output shapes a reduction of `input` along `axis` may have: the axis dropped, the axis
kept with extent 1, or `[1]` when dropping it leaves nothing. -/
def reducedShapeOk (input out : Shape) (axis : Nat) : Bool :=
  let dropped := input.eraseIdx axis
  let kept := input.set axis 1
  out == dropped || out == kept || (dropped.isEmpty && out == [1])

/-- Checks an op's operands against its kind. -/
def checkOperands (k : Kernel) (op : TileOp) : Except KernelError Unit := do
  let fail := fun (reason : String) =>
    (throw (KernelError.operands op.name reason) : Except KernelError Unit)
  let (ni, no) := op.kind.arity
  if op.inputs.length ≠ ni ∨ op.outputs.length ≠ no then
    fail s!"expected {ni} inputs and {no} outputs, got {op.inputs.length} and {op.outputs.length}"
  k.checkWindows op
  let shape := k.tileShapeOf
  let buf := fun (o : Operand) => k.buffer o.buffer
  match op.kind, op.inputs, op.outputs with
  | .copy .., [src], [dst] =>
    if src.buffer == dst.buffer then fail "copy onto itself"
    if (buf src).dtype ≠ (buf dst).dtype then fail "copy changes element type; use a cast"
    if shape src ≠ shape dst then
      fail s!"tile {(shape src).text} copied into {(shape dst).text}"
  | .cast, [src], [dst] =>
    if shape src ≠ shape dst then fail s!"shapes {(shape src).text} and {(shape dst).text} differ"
  | .atomic .., [src], [dst] =>
    if shape src ≠ shape dst then fail s!"shapes {(shape src).text} and {(shape dst).text} differ"
    if (buf dst).scope ≠ .global ∧ (buf dst).scope ≠ .shared then
      fail "atomic destination must be global or shared"
  | .elementwise _, ins, [dst] =>
    if ins.any (shape · ≠ shape dst) then fail "operand shapes differ"
  | .reduce _ axis, [src], [dst] =>
    let input := shape src
    let out := shape dst
    if input.length ≤ axis then fail s!"axis {axis} out of range"
    if !reducedShapeOk input out axis then
      fail s!"cannot reduce {input.text} along {axis} into {out.text}"
  | .gemm _, [a, b], [c] =>
    let (sa, sb, sc) := (shape a, shape b, shape c)
    let composes := match sa, sb, sc with
      | [a0, a1], [b0, b1], [c0, c1] => a1 == b0 && a0 == c0 && b1 == c1
      | _, _, _ => false
    if !composes then fail s!"{sa.text} x {sb.text} does not produce {sc.text}"
    if (buf c).scope ≠ .fragment then fail "accumulator must be a register fragment"
    if let some i := [a, b].find? fun i => (buf i).scope ≠ .shared ∧ (buf i).scope ≠ .fragment then
      fail s!"operand `{(buf i).name}` must be shared or a fragment"
  | _, _, _ => pure ()

/-- The position of each live op in program order. -/
def positionIn (live : List OpId) (h : OpId) : Option Nat := live.idxOf? h

/-- Checks the whole kernel: operands of live ops, acyclicity, dependencies placed earlier, and
loop windows within their buffers. -/
def validate (k : Kernel) : Except KernelError Unit := do
  let live := k.liveOps
  live.forM fun h => k.checkOperands (k.op h)
  let _ ← k.topologicalOrder
  live.forM fun h =>
    (k.op h).deps.forM fun d =>
      match positionIn live d, positionIn live h with
      | some p, some q =>
        if p < q then pure () else throw (.dependencyOrder (k.op h).name (k.op d).name)
      | _, _ => pure ()
  k.loopIds.forM fun l =>
    let nest := k.loop l
    nest.body.forM fun h =>
      (k.op h).operands.forM fun o =>
        match o.step with
        | none => pure ()
        | some s =>
          let b := k.buffer o.buffer
          if (b.shape[s.axis]?.getD 0) < s.extent * nest.extent then
            throw (.invalidLoop nest.name
              s!"{nest.extent} windows of {s.extent} overrun `{b.name}` along axis {s.axis}")
          else pure ()

/-- Every buffer carries a layout; otherwise the first that does not is named. -/
def checkResolved (k : Kernel) : Except KernelError Unit :=
  match k.buffers.toList.find? (·.layout.isNone) with
  | some b => .error (.unresolved b.name)
  | none => .ok ()

end Kernel
end TileKernel
