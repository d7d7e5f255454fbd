import TileKernel.Lowering.Basic

/-!
# Layout constraints

Every buffer starts with a domain of candidate layouts: the layout already attached, else its
hint (from the options, then from the buffer), else the defaults of its scope. Each live op
constrains the buffers it touches, either on its own (`Requirement`: the matrix unit's operand
fragment, a lane strip, or what a cooperative copy into registers produces) or relative to another
operand (`Relation`: equal layouts, or dense layouts with the same unit-stride dimension).
-/

set_option autoImplicit false

namespace TileKernel

/-- What one op accepts for one buffer, on its own. -/
inductive Requirement where
  /-- The matrix unit's native fragment for this operand. -/
  | mma (operand : MmaOperand)
  /-- A lane-strip fragment. -/
  | strip
  /-- The natural result of a cooperative copy into registers: its strip, or a matrix-unit
  fragment whose tile divides the strip's tile; nothing when the copy has no strip. -/
  | copyInto (strip : Option Fragment)
deriving DecidableEq, Repr

/-- Whether a requirement accepts a layout; only fragments are ever accepted. Whether a tile
divides the strip's is asked only of a matrix-unit fragment other than the strip. -/
def Requirement.admits (r : Requirement) (l : Layout) : Checked Bool :=
  match l with
  | .dense _ => pure false
  | .fragment f =>
    match r with
    | .mma operand => pure (f.kind == .mma operand)
    | .strip => match f.kind with
      | .strip _ => pure true
      | .mma _ => pure false
    | .copyInto none => pure false
    | .copyInto (some s) =>
      if f == s then pure true else
      match f.kind with
      | .mma _ => f.divides s.tile
      | .strip _ => pure false

/-- What one op needs between the layouts of two of its operands. -/
inductive Relation where
  | equal
  /-- Both dense with unit stride along the same dimension. -/
  | sameInnermost
deriving DecidableEq, Repr

/-- Whether two layouts stand in the relation. -/
def Relation.holds (r : Relation) (a b : Layout) : Bool :=
  match r with
  | .equal => a == b
  | .sameInnermost =>
    match a.asDense?, b.asDense? with
    | some x, some y => x.innermost == y.innermost
    | _, _ => false

/-- A constraint an op places on its buffers. -/
inductive Constraint where
  | unary (op : OpId) (buffer : BufferId) (requirement : Requirement)
  | binary (op : OpId) (a b : BufferId) (relation : Relation)
deriving DecidableEq, Repr

namespace Constraint

/-- The op that declared the constraint. -/
def op : Constraint → OpId
  | .unary op .. | .binary op .. => op

/-- Whether the constraint involves the buffer. -/
def touches (c : Constraint) (b : BufferId) : Bool :=
  match c with
  | .unary _ x _ => x == b
  | .binary _ x y _ => x == b || y == b

/-- Whether the constraint relates two buffers. -/
def isBinary : Constraint → Bool
  | .binary .. => true
  | .unary .. => false

end Constraint

/-- The constraints one op declares, by kind. A product asks the matrix unit's operand fragment
(a strip without one) of each register operand; a copy relates dense sides by their unit-stride
dimension, asks of a register destination what a cooperative copy produces, and makes register
sides equal; an element-wise op makes a register input of its output's type equal to it and
relates dense inputs to the output (equal when the shapes agree); atomics and casts relate dense
sides by their unit-stride dimension. Relayout copies accept anything. -/
def opConstraints (k : Kernel) (t : Target) (h : OpId) : Checked (List Constraint) := do
  let op := k.op h
  let buf := fun (o : Operand) => k.buffer o.buffer
  let densePair := fun (a b : Operand) =>
    (buf a).scope.isDense && (buf b).scope.isDense && (buf a).shape.length == (buf b).shape.length
  match op.kind, op.inputs, op.outputs with
  | .gemm _, [a, b], [c] =>
    return [(a, MmaOperand.a), (b, .b), (c, .acc)].filterMap fun (o, role) =>
      if (buf o).scope != .fragment then none
      else some (.unary h o.buffer (if t.mma.isSome then .mma role else .strip))
  | .copy _ materialize, [src], [dst] =>
    if materialize then return []
    else if densePair src dst then return [.binary h src.buffer dst.buffer .sameInnermost]
    else if (buf src).scope.isDense && !(buf dst).scope.isDense then
      let d := buf dst
      let shape := (d.shape[0]?.getD 0, d.shape[1]?.getD 0)
      let strip := match ← (Fragment.ofStrip shape d.dtype t).run with
        | .ok f => some f
        | .error _ => none
      return [.unary h dst.buffer (.copyInto strip)]
    else if !(buf src).scope.isDense && !(buf dst).scope.isDense then
      return [.binary h src.buffer dst.buffer .equal]
    else return []
  | .elementwise _, ins, [dst] =>
    return (ins.filter (·.buffer != dst.buffer)).filterMap fun src =>
      let a := buf src
      let b := buf dst
      if a.scope == .fragment && b.scope == .fragment && a.dtype == b.dtype then
        some (.binary h src.buffer dst.buffer .equal)
      else if densePair src dst then
        some (.binary h src.buffer dst.buffer (if a.shape == b.shape then .equal else .sameInnermost))
      else none
  | .atomic .., [src], [dst] | .cast, [src], [dst] =>
    return if densePair src dst then [.binary h src.buffer dst.buffer .sameInnermost] else []
  | _, _, _ => return []

/-- The candidate layouts of a buffer without hints, in preference order: row-major in global
memory, every dimension order in shared and local memory, and for registers the copy strip then
the matrix-unit fragments of A, B and the accumulator, those that fit. -/
def scopeCandidates (b : Buffer) (t : Target) : Checked (List Layout) := do
  match b.scope with
  | .global => return [Layout.rowMajor b.shape]
  | .shared | .local => return (DenseLayout.allOrders b.shape).map .dense
  | .fragment =>
    let shape := (b.shape[0]?.getD 0, b.shape[1]?.getD 0)
    let strip := match ← (Fragment.ofStrip shape b.dtype t).run with
      | .ok f => [Layout.fragment f]
      | .error _ => []
    let units ← [MmaOperand.a, .b, .acc].filterMapM fun operand => do
      match ← (Fragment.ofMma operand shape t).run with
      | .ok f => pure (some (.fragment f))
      | .error _ => pure none
    return strip ++ units

/-- The layout hint of a buffer: the options' entry for its name, else its own. -/
def layoutHint (o : CompileOptions) (b : Buffer) : Option Layout :=
  (o.layoutHints.lookup b.name).orElse fun _ => b.hint

/-- The initial domain of a buffer: its attached layout; else its hint, which must cover its
shape and suit its scope (a register hint must also be a valid fragment); else its scope's
candidates, which must not be empty. -/
def initialDomain (b : Buffer) (o : CompileOptions) : ExceptT KernelError Checked (List Layout) := do
  match b.layout with
  | some l => return [l]
  | none =>
    match layoutHint o b with
    | none =>
      let candidates ← scopeCandidates b o.target
      if candidates.isEmpty then
        throw (.invalidFragment
          s!"`{b.name}` ({← b.dtype.name} {b.shape.text}) fits no strip or matrix-unit fragment on {o.target.name}")
      else return candidates
    | some hint =>
      if hint.shape ≠ b.shape then
        throw (.layoutMismatch b.name
          s!"hint shape {hint.shape.text} differs from buffer shape {b.shape.text}")
      else
        match hint, b.scope with
        | .fragment f, .fragment => f.validate o.target; return [hint]
        | .dense _, scope =>
          if scope.isDense then return [hint]
          else throw (.layoutMismatch b.name s!"hint {hint.text} does not suit a {scope.name} buffer")
        | .fragment _, scope =>
          throw (.layoutMismatch b.name s!"hint {hint.text} does not suit a {scope.name} buffer")

end TileKernel
