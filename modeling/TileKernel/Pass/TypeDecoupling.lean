import TileKernel.Lowering.Basic

/-!
# Type decoupling

Ops that combine operands of different element types get an explicit cast into a temporary of
the common type, so that later stages and backends only ever see uniformly typed arithmetic.
Elementwise, reduction and atomic ops convert every input to the type of their output; a matrix
product converts only its two factors, to their promoted type, since the accumulator may be
wider.

A temporary covers the operand's tile: a dense source gives a dense temporary in the same
dimension order, an unwindowed fragment source the same fragment; a global source is staged into
local memory. A windowed fragment source cannot be converted.
-/

set_option autoImplicit false

namespace TileKernel

/-- The inputs of an op that need a cast: position, operand and the type to cast to. -/
def conversions (k : Kernel) (op : TileOp) : List (Nat × Operand × Scalar) :=
  let dtype := fun (o : Operand) => (k.buffer o.buffer).dtype
  let toward := fun (target : Scalar) (xs : List (Operand × Nat)) =>
    xs.filterMap fun (o, i) => if dtype o != target then some (i, o, target) else none
  match op.kind with
  | .elementwise _ | .reduce .. | .atomic .. =>
    match op.outputs with
    | out :: _ => toward (dtype out) op.inputs.zipIdx
    | [] => []
  | .gemm _ =>
    match op.inputs with
    | a :: b :: _ => if dtype a == dtype b then [] else toward ((dtype a).promote (dtype b)) [(a, 0), (b, 1)]
    | _ => []
  | _ => []

/-- A temporary holding the operand converted to `dtype`, with its layout; `none` when the
source has no layout or its layout cannot describe the tile. -/
def tempFor (k : Kernel) (o : Operand) (dtype : Scalar) : Checked (Option (Buffer × Layout)) := do
  let source := k.buffer o.buffer
  let tile := o.tileShape source.shape
  let some sourceLayout := source.layout | return none
  let layout := match sourceLayout with
    | .dense d =>
      match DenseLayout.withOrder tile d.order with
      | .ok l => some (Layout.dense l)
      | .error _ => none
    | .fragment f => if o.step.isNone then some (.fragment f) else none
  let some layout := layout | return none
  let scope := if source.scope == .global then Scope.local else source.scope
  return some ({ name := s!"{source.name}_as_{← dtype.name}", shape := tile, dtype, scope }, layout)

/-- The first of `base`, `base_1`, `base_2`, … that no buffer has. -/
def uniqueBufferName (k : Kernel) (base : String) : String :=
  let tries := base :: (List.range' 1 (k.buffers.size + 1)).map fun n => s!"{base}_{n}"
  (tries.find? fun n => (k.findBuffer? n).isNone).getD base

/-- Casts the given inputs of `h` into fresh temporaries just before it, and replaces it with an
op reading the temporaries after the casts. Every temporary is planned before anything changes. -/
def decouple (h : OpId) (wanted : List (Nat × Operand × Scalar)) : KernelM KernelError Unit := do
  let k ← get
  let op := k.op h
  let temps ← wanted.mapM fun (i, input, dtype) => do
    match ← liftM (tempFor k input dtype) with
    | some t => pure (i, input, t)
    | none =>
      let source ← liftM (k.buffer input.buffer).dtype.name
      throw (.implicitConversion op.name i source (← liftM dtype.name))
  let (inputs, casts) ← temps.foldlM (fun (acc : List Operand × List OpId) (i, input, buffer, layout) => do
    let temp ← KernelM.edit (·.addBuffer { buffer with name := uniqueBufferName (← get) buffer.name })
    KernelM.update (·.attachLayout temp layout)
    let cast : TileOp :=
      { name := s!"{op.name}_cast{i}", kind := .cast, inputs := [input], outputs := [.whole temp] }
    let c ← KernelM.edit (·.insertBefore h cast)
    op.deps.forM fun d => KernelM.update (·.addDependency c d)
    pure (acc.1.set i (.whole temp), acc.2 ++ [c])) (op.inputs, [])
  let replaced ← KernelM.edit (·.replaceOp h { op.detached with inputs })
  casts.forM fun c => KernelM.update (·.addDependency replaced c)

/-- Makes every implicit conversion of a live op an explicit cast; answers whether any op
changed. -/
def typeDecoupling : KernelM KernelError Bool := do
  let live := (← get).liveOps
  live.foldlM (fun changed h => do
    let k ← get
    let wanted := conversions k (k.op h)
    if wanted.isEmpty then pure changed
    else
      decouple h wanted
      pure true) false

end TileKernel
