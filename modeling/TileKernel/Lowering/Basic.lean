import TileKernel.Kernel.Edit

/-!
# Lowering: options, errors and stages

`CompileOptions` configure lowering: the target, per-loop pipeline depths, whether swizzles and
materializing copies may be used, layout hints by buffer name, and the family of swizzles to
search. `LowerError` is any failure of a lowering stage: a kernel error, a layout conflict that no
copy can resolve, a shared buffer no swizzle makes conflict-free, or a loop that cannot be
pipelined at the requested depth.

A lowering stage is a computation on a kernel that may fail (`KernelM`); the changes it made before
failing are kept, as later stages and the caller can observe them. A stage may also fault, and a
fault ends the whole computation.
-/

set_option autoImplicit false

namespace TileKernel

/-- The swizzles the optimizer may choose from: kinds tried in order, and the widest field
(by default the bits that address every vector chunk of one bank row). -/
structure SwizzleFamily where
  kinds : List SwizzleKind := [.xor, .rotate]
  maxBits : Option Nat := none
deriving DecidableEq, Repr

/-- The configuration of lowering. -/
structure CompileOptions where
  target : Target
  /-- Pipeline depth by loop name, over the loop's declared depth. -/
  pipelineDepth : List (String × Nat) := []
  /-- Run the swizzle optimizer. -/
  swizzle : Bool := true
  /-- Allow materializing copies to resolve layout conflicts. -/
  layoutCopies : Bool := true
  /-- Layouts by buffer name, over the hints on the buffers. -/
  layoutHints : List (String × Layout) := []
  swizzleFamily : SwizzleFamily := {}

/-- Why a loop cannot be pipelined at the requested depth. -/
inductive DependencyViolation where
  /-- A compute op reads a staged buffer before the iteration's load writes it. -/
  | readBeforeWrite
  /-- A load reads a buffer written by a compute op of the loop. -/
  | computeFeedsLoad
  /-- A staged buffer is also written by a compute op. -/
  | stagedBufferWrittenByCompute
  /-- A staged buffer is used outside the loop. -/
  | stagedBufferLiveOut
  /-- The body has no load stage to overlap. -/
  | noLoadStage
  /-- Fewer iterations than the prologue issues. -/
  | tripCountTooSmall
deriving DecidableEq, Repr

/-- The explanation of a violation. -/
def DependencyViolation.text : DependencyViolation → String
  | .readBeforeWrite => "a compute reads a staged buffer before its load in the same iteration"
  | .computeFeedsLoad => "a load depends on a value computed in the loop"
  | .stagedBufferWrittenByCompute => "a staged buffer is written by a compute op"
  | .stagedBufferLiveOut => "a staged buffer is used outside the loop"
  | .noLoadStage => "the body has no load stage"
  | .tripCountTooSmall => "the trip count is smaller than the prologue"

/-- Any failure of a lowering stage. -/
inductive LowerError where
  | kernel (e : KernelError)
  /-- Two ops need incompatible layouts for one buffer and no copy may separate them: `first`
  is the constraint that narrowed the buffer, `second` the one that left no layout. -/
  | layoutConflict (buffer first second : String)
  /-- No swizzle of the family makes every accessor conflict-free. -/
  | swizzleInfeasible (buffer : String) (accessors : List String) (worstDegree : Nat)
  /-- The loop's dependencies do not allow the requested depth. -/
  | pipelineDependency (loopName : String) (depth : Nat) (op buffer : Option String)
      (reason : DependencyViolation)
deriving DecidableEq, Repr

/-- The text of a lowering error. -/
def LowerError.message : LowerError → String
  | .kernel e => e.message
  | .layoutConflict buffer first second => s!"layout conflict on `{buffer}`: {first}, but {second}"
  | .swizzleInfeasible buffer accessors worst =>
    s!"no swizzle removes bank conflicts on `{buffer}` (worst degree {worst}, accessed by " ++
      ", ".intercalate accessors ++ ")"
  | .pipelineDependency loopName depth op buffer reason =>
    let context := match op, buffer with
      | some o, some b => s!" (op `{o}`, buffer `{b}`)"
      | some o, none => s!" (op `{o}`)"
      | none, some b => s!" (buffer `{b}`)"
      | none, none => ""
    s!"cannot pipeline loop `{loopName}` at depth {depth}: {reason.text}" ++ context

/-- A computation on a kernel that may fail with `ε`, keeping the changes made before a
failure, or fault, which ends it with no kernel. -/
abbrev KernelM (ε α : Type) := ExceptT ε (StateT Kernel Checked) α

namespace KernelM

/-- Runs a stage on a kernel: its outcome and the kernel it leaves, unless it faults. -/
def run {ε α : Type} (s : KernelM ε α) (k : Kernel) : Checked (Except ε α × Kernel) :=
  (ExceptT.run s).run k

/-- A kernel operation answering a value and the updated kernel. -/
def edit {α : Type} (f : Kernel → Except KernelError (α × Kernel)) : KernelM KernelError α := do
  match f (← get) with
  | .ok (a, k) => set k; pure a
  | .error e => throw e

/-- A kernel operation answering the updated kernel. -/
def update (f : Kernel → Except KernelError Kernel) : KernelM KernelError Unit := do
  match f (← get) with
  | .ok k => set k
  | .error e => throw e

/-- A kernel operation that may fault, answering the updated kernel. -/
def updateChecked (f : Kernel → ExceptT KernelError Checked Kernel) : KernelM KernelError Unit := do
  let outcome ← liftM (m := Checked) (f (← get)).run
  match outcome with
  | .ok k => set k
  | .error e => throw e

/-- A kernel check. -/
def check (f : Kernel → Except KernelError Unit) : KernelM KernelError Unit := do
  match f (← get) with
  | .ok () => pure ()
  | .error e => throw e

/-- A computation that may fault or fail with a kernel error, as a kernel stage. -/
def attempt {α : Type} (x : ExceptT KernelError Checked α) : KernelM KernelError α := do
  let outcome ← liftM (m := Checked) x.run
  match outcome with
  | .ok a => pure a
  | .error e => throw e

/-- A kernel stage seen as a lowering stage. -/
def lift {α : Type} (s : KernelM KernelError α) : KernelM LowerError α := ExceptT.adapt .kernel s

end KernelM
end TileKernel
