import TileKernel.Kernel.Check

/-!
# Session requests: references and specifications

A session edits one kernel step by step. Steps name buffers, ops and loops by name or by handle
index, and describe operands, ops and layouts by specification.

* A buffer name is looked up among the declarations; a loop name finds the first loop of that
  name. An op name finds the first live op of that name in program order, failing that the first
  op of that name in the arena, so that a replaced op's name keeps meaning its live successor.
* An index is taken as it is where the kernel operation checks handles itself; `checked`
  resolution refuses an index outside the arena instead, for steps that would otherwise read past
  it.
* A layout specification is built against the session's target and can fail as its constructor
  does.
-/

set_option autoImplicit false

namespace TileKernel

/-- A buffer by name or by handle index. -/
inductive BufferRef where
  | named (name : String)
  | index (i : Nat)
deriving DecidableEq, Repr

/-- An op by name or by handle index. -/
inductive OpRef where
  | named (name : String)
  | index (i : Nat)
deriving DecidableEq, Repr

/-- A loop by name or by handle index. -/
inductive LoopRef where
  | named (name : String)
  | index (i : Nat)
deriving DecidableEq, Repr

/-- A reference that names nothing, or a step the session does not know. -/
inductive RequestError where
  | noBufferNamed (name : String)
  | noBuffer (i : Nat)
  | noOpNamed (name : String)
  | noOp (i : Nat)
  | noLoopNamed (name : String)
  | noLoop (i : Nat)
  | unknownBackend (name : String)
  | unknownPass (name : String)
deriving DecidableEq, Repr

/-- The text of a request error. -/
def RequestError.message : RequestError → String
  | .noBufferNamed n => s!"no buffer named {n}"
  | .noBuffer i => s!"no buffer {i}"
  | .noOpNamed n => s!"no op named {n}"
  | .noOp i => s!"no op {i}"
  | .noLoopNamed n => s!"no loop named {n}"
  | .noLoop i => s!"no loop {i}"
  | .unknownBackend n => s!"unknown backend {n}"
  | .unknownPass n => s!"unknown pass {n}"

/-- An operand by specification: a buffer, an optional loop window, and whether it rotates. -/
structure OperandSpec where
  buffer : BufferRef
  step : Option Step := none
  rotating : Bool := false
deriving DecidableEq, Repr

/-- An op by specification, without dependencies or schedule. -/
structure OpSpec where
  name : String
  kind : OpKind
  inputs : List OperandSpec
  outputs : List OperandSpec
deriving DecidableEq, Repr

/-- A layout by specification. -/
inductive LayoutSpec where
  | rowMajor (shape : Shape)
  | colMajor (shape : Shape)
  /-- A dense layout with an explicit dimension order, which must be a permutation. -/
  | dense (shape : Shape) (order : List Nat)
  /-- The matrix unit's layout of an operand, on the target. -/
  | mma (operand : MmaOperand) (shape : Nat × Nat)
  /-- The layout a cooperative copy of the element type produces, on the target. -/
  | strip (shape : Nat × Nat) (dtype : Scalar)
  /-- A fragment taken as given, unvalidated. -/
  | raw (f : Fragment)
deriving DecidableEq, Repr

/-- Builds the layout a specification describes on a target. -/
def LayoutSpec.build (t : Target) : LayoutSpec → ExceptT KernelError Checked Layout
  | .rowMajor shape => pure (.dense (DenseLayout.rowMajor shape))
  | .colMajor shape => pure (.dense (DenseLayout.colMajor shape))
  | .dense shape order => liftExcept ((DenseLayout.withOrder shape order).map .dense)
  | .mma operand shape => Layout.fragment <$> Fragment.ofMma operand shape t
  | .strip shape dtype => Layout.fragment <$> Fragment.ofStrip shape dtype t
  | .raw f => pure (.fragment f)

namespace Kernel

/-- The buffer a reference names; an index is taken as it is. -/
def resolveBuffer (k : Kernel) : BufferRef → Except RequestError BufferId
  | .named n => match k.findBuffer? n with
    | some h => .ok h
    | none => .error (.noBufferNamed n)
  | .index i => .ok ⟨i⟩

/-- The buffer a reference names, which must exist. -/
def resolveBufferChecked (k : Kernel) (r : BufferRef) : Except RequestError BufferId :=
  match r with
  | .index i => if i < k.buffers.size then .ok ⟨i⟩ else .error (.noBuffer i)
  | _ => k.resolveBuffer r

/-- The first op of a name: live ops first, in program order, then the whole arena. -/
def findOp? (k : Kernel) (name : String) : Option OpId :=
  (k.liveOps.find? fun h => (k.op h).name == name).orElse fun _ =>
    k.opIds.find? fun h => (k.op h).name == name

/-- The op a reference names; an index is taken as it is. -/
def resolveOp (k : Kernel) : OpRef → Except RequestError OpId
  | .named n => match k.findOp? n with
    | some h => .ok h
    | none => .error (.noOpNamed n)
  | .index i => .ok ⟨i⟩

/-- The op a reference names, which must exist. -/
def resolveOpChecked (k : Kernel) (r : OpRef) : Except RequestError OpId :=
  match r with
  | .index i => if i < k.ops.size then .ok ⟨i⟩ else .error (.noOp i)
  | _ => k.resolveOp r

/-- The loop a reference names; an index is taken as it is. -/
def resolveLoop (k : Kernel) : LoopRef → Except RequestError LoopId
  | .named n => match k.findLoop? n with
    | some l => .ok l
    | none => .error (.noLoopNamed n)
  | .index i => .ok ⟨i⟩

/-- The loop a reference names, which must exist. -/
def resolveLoopChecked (k : Kernel) (r : LoopRef) : Except RequestError LoopId :=
  match r with
  | .index i => if i < k.loops.size then .ok ⟨i⟩ else .error (.noLoop i)
  | _ => k.resolveLoop r

/-- The operand a specification describes. -/
def resolveOperand (k : Kernel) (o : OperandSpec) : Except RequestError Operand := do
  pure { buffer := ← k.resolveBuffer o.buffer, step := o.step, rotating := o.rotating }

/-- The op a specification describes; inputs are resolved before outputs. -/
def resolveOpSpec (k : Kernel) (s : OpSpec) : Except RequestError TileOp := do
  let inputs ← s.inputs.mapM k.resolveOperand
  let outputs ← s.outputs.mapM k.resolveOperand
  pure { name := s.name, kind := s.kind, inputs, outputs }

end Kernel
end TileKernel
