import TileKernel.Kernel.Buffer

/-!
# Tile operations

A tile op is one action over tile-shaped regions of buffers: a copy, a fill with a constant, a
reduction along an axis, an element-wise binary operation, a matrix multiply-accumulate, an atomic
update, a type conversion, or a barrier. Its operands name buffers, optionally through a window
that advances with the enclosing loop (`Step`). Ops are added to the kernel's arena and referred
to by `OpId`; the kernel alone attaches their dependencies and their schedule.
-/

set_option autoImplicit false

namespace TileKernel

/-- The handle of an op: its position in the kernel's op arena. -/
structure OpId where
  idx : Nat
deriving DecidableEq, Repr, Inhabited, Hashable

/-- Reduction operator. -/
inductive ReduceOp where
  | sum
  | max
  | min
deriving DecidableEq, Repr

/-- Element-wise binary operator. -/
inductive BinaryOp where
  | add
  | sub
  | mul
  | max
  | min
deriving DecidableEq, Repr

/-- Read-modify-write update of an atomic op. -/
inductive AtomicOp where
  | add
  | max
  | min
  | exchange
deriving DecidableEq, Repr

/-- Synchronization flavour. -/
inductive BarrierKind where
  /-- Block-wide execution and memory barrier. -/
  | sync
  /-- Waits until at most `pending` groups of asynchronous copies are in flight. -/
  | asyncWait (pending : Nat)
deriving DecidableEq, Repr

/-- What an op does. -/
inductive OpKind where
  /-- `out = in`; `vector` is the per-lane chunk of store planning, `materialize` marks copies
  that change layout. -/
  | copy (vector : Option Nat) (materialize : Bool)
  /-- `out = value` everywhere. -/
  | fill (value : Literal)
  /-- Reduces the input along `axis`. -/
  | reduce (op : ReduceOp) (axis : Nat)
  /-- `out = in0 op in1`. -/
  | elementwise (op : BinaryOp)
  /-- `C (+)= A * B`. -/
  | gemm (accumulate : Bool)
  /-- `out = out op in`, element-wise and atomically. -/
  | atomic (op : AtomicOp) (vector : Option Nat)
  /-- Element type conversion. -/
  | cast
  | barrier (kind : BarrierKind)
deriving DecidableEq, Repr

/-- The kind of an op without its parameters. -/
inductive OpTag where
  | copy
  | fill
  | reduce
  | elementwise
  | gemm
  | atomic
  | cast
  | barrier
deriving DecidableEq, Repr

namespace BinaryOp

/-- Applies the operator to doubles; `max` and `min` ignore a NaN operand. -/
def eval : BinaryOp → Binary64 → Binary64 → Binary64
  | .add, a, b => a.add b
  | .sub, a, b => a.sub b
  | .mul, a, b => a.mul b
  | .max, a, b => a.maxNum b
  | .min, a, b => a.minNum b

/-- The operator's name. -/
def name : BinaryOp → String
  | .add => "add"
  | .sub => "sub"
  | .mul => "mul"
  | .max => "max"
  | .min => "min"

/-- The operator of a name, as `name` writes it. -/
def ofName? : String → Option BinaryOp
  | "add" => some .add
  | "sub" => some .sub
  | "mul" => some .mul
  | "max" => some .max
  | "min" => some .min
  | _ => none

end BinaryOp

/-- The reduction's name. -/
def ReduceOp.name : ReduceOp → String
  | .sum => "sum"
  | .max => "max"
  | .min => "min"

/-- The reduction of a name. -/
def ReduceOp.ofName? : String → Option ReduceOp
  | "sum" => some .sum
  | "max" => some .max
  | "min" => some .min
  | _ => none

/-- The atomic update's name. -/
def AtomicOp.name : AtomicOp → String
  | .add => "add"
  | .max => "max"
  | .min => "min"
  | .exchange => "exch"

/-- The atomic update of a name, as `name` writes it. -/
def AtomicOp.ofName? : String → Option AtomicOp
  | "add" => some .add
  | "max" => some .max
  | "min" => some .min
  | "exch" => some .exchange
  | _ => none

namespace OpKind

/-- The parameter-free kind. -/
def tag : OpKind → OpTag
  | .copy .. => .copy
  | .fill _ => .fill
  | .reduce .. => .reduce
  | .elementwise _ => .elementwise
  | .gemm _ => .gemm
  | .atomic .. => .atomic
  | .cast => .cast
  | .barrier _ => .barrier

/-- Whether the op reads its output before writing it: accumulating products and atomics. -/
def readsOutput : OpKind → Bool
  | .gemm true => true
  | .atomic .. => true
  | _ => false

/-- The numbers of inputs and outputs the kind takes. -/
def arity : OpKind → Nat × Nat
  | .copy .. | .reduce .. | .atomic .. | .cast => (1, 1)
  | .fill _ => (0, 1)
  | .elementwise _ | .gemm _ => (2, 1)
  | .barrier _ => (0, 0)

/-- The per-lane chunk recorded by store planning. -/
def vector? : OpKind → Option Nat
  | .copy v _ => v
  | .atomic _ v => v
  | _ => none

/-- `.v4` for a recorded vector of 4, nothing without one. -/
def vectorSuffix : Option Nat → String
  | some v => s!".v{v}"
  | none => ""

/-- The printed form: `copy.v4`, `relayout`, `fill(0.0)`, `reduce.sum[1]`, `add`, `gemm.acc`,
`atomic.add.v2`, `cast`, `sync`, `wait(1)`. -/
def text : OpKind → String
  | .copy v m => (if m then "relayout" else "copy") ++ vectorSuffix v
  | .fill value => s!"fill({value.text})"
  | .reduce op axis => s!"reduce.{op.name}[{axis}]"
  | .elementwise op => op.name
  | .gemm acc => if acc then "gemm.acc" else "gemm"
  | .atomic op v => s!"atomic.{op.name}" ++ vectorSuffix v
  | .cast => "cast"
  | .barrier .sync => "sync"
  | .barrier (.asyncWait p) => s!"wait({p})"

end OpKind

/-- A window of a buffer advancing with the enclosing loop: iteration `i` covers
`[i * extent, (i + 1) * extent)` along `axis`. -/
structure Step where
  axis : Nat
  extent : Nat
deriving DecidableEq, Repr

/-- One buffer argument of an op. -/
structure Operand where
  buffer : BufferId
  step : Option Step := none
  /-- On pipeline clones: the physical instance is picked from the buffer's ring by iteration. -/
  rotating : Bool := false
deriving DecidableEq, Repr

namespace Operand

/-- The whole buffer. -/
def whole (b : BufferId) : Operand := { buffer := b }

/-- A window of `extent` along `axis`. -/
def stepped (b : BufferId) (axis extent : Nat) : Operand := { buffer := b, step := some ⟨axis, extent⟩ }

/-- The shape of the region one execution touches in a buffer of shape `shape`. -/
def tileShape (o : Operand) (shape : Shape) : Shape :=
  match o.step with
  | some s => shape.set s.axis s.extent
  | none => shape

/-- The first index of the region touched in an iteration: the window's start along its axis
(a 32-bit product, computed only for an axis inside the rank), zero elsewhere. -/
def origin (o : Operand) (rank iteration : Nat) : Checked (List Nat) := do
  let zero := List.replicate rank 0
  match o.step with
  | some s =>
    if s.axis < rank then return zero.set s.axis (← Word.u32.mul iteration s.extent)
    else return zero
  | none => return zero

end Operand

/-- The part of a pipelined loop an op was placed in. -/
inductive Phase where
  | prologue
  | steady
  | epilogue
deriving DecidableEq, Repr

/-- The phase of a lower-case name. -/
def Phase.ofName? : String → Option Phase
  | "prologue" => some .prologue
  | "steady" => some .steady
  | "epilogue" => some .epilogue
  | _ => none

/-- The phase's name as a title: `Prologue`, `Steady`, `Epilogue`. -/
def Phase.title : Phase → String
  | .prologue => "Prologue"
  | .steady => "Steady"
  | .epilogue => "Epilogue"

/-- Which source iteration a scheduled op executes. -/
inductive IterRef where
  /-- A fixed iteration (prologue and epilogue). -/
  | absolute (n : Nat)
  /-- `i + k` for the steady loop counter `i`. -/
  | relative (k : Nat)
deriving DecidableEq, Repr

namespace IterRef

/-- The source iteration at steady counter `i`, a 32-bit count. -/
def resolve : IterRef → Nat → Checked Nat
  | .absolute n, _ => pure n
  | .relative k, i => Word.u32.add i k

/-- The printed form: `3`, `i`, `i+2`. -/
def text : IterRef → String
  | .absolute n => toString n
  | .relative 0 => "i"
  | .relative k => s!"i+{k}"

end IterRef

/-- The stage of loads in a pipelined loop. -/
def loadStage : Nat := 0

/-- The stage of computations in a pipelined loop. -/
def computeStage : Nat := 1

/-- Scheduling metadata attached by the pipeline scheduler. -/
structure SchedInfo where
  stage : Nat
  phase : Phase
  iteration : IterRef
  /-- The loop-body op this one was cloned from. -/
  origin : OpId
deriving DecidableEq, Repr

/-- Inserts a handle into a list kept in increasing order without repeats. -/
def OpId.insertSorted (h : OpId) : List OpId → List OpId
  | [] => [h]
  | x :: xs =>
    if h.idx < x.idx then h :: x :: xs
    else if h.idx = x.idx then x :: xs
    else x :: OpId.insertSorted h xs

/-- One action over tile-shaped regions. `deps` lists the ops that must complete first, in
increasing handle order. -/
structure TileOp where
  name : String
  kind : OpKind
  inputs : List Operand
  outputs : List Operand
  deps : List OpId := []
  sched : Option SchedInfo := none
deriving DecidableEq, Repr

namespace TileOp

/-- The operands, inputs first. -/
def operands (op : TileOp) : List Operand := op.inputs ++ op.outputs

/-- The operands the op reads: its inputs, and its outputs too when it reads them. -/
def reads (op : TileOp) : List Operand :=
  if op.kind.readsOutput then op.inputs ++ op.outputs else op.inputs

/-- A copy of the op without dependencies or schedule. -/
def detached (op : TileOp) : TileOp :=
  { name := op.name, kind := op.kind, inputs := op.inputs, outputs := op.outputs }

/-- A plain copy. -/
def copy (name : String) (src dst : Operand) : TileOp :=
  { name, kind := .copy none false, inputs := [src], outputs := [dst] }

/-- A fill. -/
def fill (name : String) (value : Literal) (dst : Operand) : TileOp :=
  { name, kind := .fill value, inputs := [], outputs := [dst] }

/-- A barrier. -/
def barrier (name : String) (kind : BarrierKind) : TileOp :=
  { name, kind := .barrier kind, inputs := [], outputs := [] }

end TileOp
end TileKernel
