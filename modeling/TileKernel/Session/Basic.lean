import TileKernel.Session.Request
import TileKernel.Lower
import TileKernel.Codegen.Backend
import TileKernel.Catalog

/-!
# Sessions

A session is a kernel together with the options it is lowered under. It starts from an empty
kernel of a given name or from a reference kernel, and steps edit and query it in turn. A step
that fails keeps whatever the operation it called changed before failing: kernel edits change
nothing when they fail, lowering stages keep their earlier work.

`SessionM` runs one step: it may fail with a `StepError`, whose cause is a reference that names
nothing, a kernel error, a lowering error or a backend error. It may also fault, which ends the
session.
-/

set_option autoImplicit false

namespace TileKernel

/-- A kernel and its lowering options. -/
structure Session where
  kernel : Kernel
  options : CompileOptions

/-- Why a step failed. -/
inductive StepError where
  | request (e : RequestError)
  | kernel (e : KernelError)
  | lower (e : LowerError)
  | backend (e : BackendError)
deriving DecidableEq, Repr

/-- One step of a session. -/
abbrev SessionM (α : Type) := ExceptT StepError (StateT Session Checked) α

namespace SessionM

/-- Fails with the request error, if any. -/
def request {α : Type} (e : Except RequestError α) : SessionM α :=
  match e with
  | .ok a => pure a
  | .error e => throw (.request e)

/-- Fails with the kernel error, if any. -/
def check {α : Type} (e : Except KernelError α) : SessionM α :=
  match e with
  | .ok a => pure a
  | .error e => throw (.kernel e)

/-- Runs a computation that may fault or fail with a kernel error. -/
def attempt {α : Type} (x : ExceptT KernelError Checked α) : SessionM α := do
  check (← liftM (m := Checked) x.run)

/-- The session's kernel. -/
def getKernel : SessionM Kernel := do pure (← get).kernel

/-- The session's target. -/
def getTarget : SessionM Target := do pure (← get).options.target

/-- A kernel operation answering a value and the updated kernel. -/
def edit {α : Type} (f : Kernel → Except KernelError (α × Kernel)) : SessionM α := do
  let (a, k) ← check (f (← getKernel))
  modify fun s => { s with kernel := k }
  pure a

/-- A kernel operation answering the updated kernel. -/
def update (f : Kernel → Except KernelError Kernel) : SessionM Unit := do
  let k ← check (f (← getKernel))
  modify fun s => { s with kernel := k }

/-- A kernel operation that may fault, answering the updated kernel. -/
def updateChecked (f : Kernel → ExceptT KernelError Checked Kernel) : SessionM Unit := do
  let k ← attempt (f (← getKernel))
  modify fun s => { s with kernel := k }

/-- Runs a stage on the kernel, keeping its changes also when it fails. -/
def stage {ε α : Type} (wrap : ε → StepError) (m : KernelM ε α) : SessionM α := do
  let (r, k) ← liftM (m := Checked) (KernelM.run m (← getKernel))
  modify fun s => { s with kernel := k }
  match r with
  | .ok a => pure a
  | .error e => throw (wrap e)

end SessionM

/-- A reference kernel to start from. -/
inductive Base where
  | gemm (kTiles depth : Nat)
  | streamedGemm (nTiles depth : Nat)
  | fragmentConflictGemm (forbidCopies : Bool)
  | rowReduce (tiles depth : Nat)
  | splitKGemm (kTiles : Nat)
  /-- A catalog kernel with its default parameters. -/
  | byName (name : String)
deriving DecidableEq, Repr

/-- Why a session could not start. -/
inductive StartError where
  /-- The catalog has no kernel of the name. -/
  | unknownKernel
  | kernel (e : KernelError)
deriving DecidableEq, Repr

/-- The text of a start error. -/
def StartError.message : StartError → String
  | .unknownKernel => "no kernel by that name"
  | .kernel e => e.message

/-- Builds a reference kernel. -/
def Base.build : Base → ExceptT StartError Checked Kernel
  | .gemm kTiles depth => (Catalog.gemm kTiles depth).adapt .kernel
  | .streamedGemm nTiles depth => (Catalog.streamedGemm nTiles depth).adapt .kernel
  | .fragmentConflictGemm forbid => (Catalog.fragmentConflictGemm forbid).adapt .kernel
  | .rowReduce tiles depth => (Catalog.rowReduce tiles depth).adapt .kernel
  | .splitKGemm kTiles => (Catalog.splitKGemm kTiles).adapt .kernel
  | .byName name =>
    match Catalog.byName? name with
    | some k => k.adapt .kernel
    | none => throw .unknownKernel

/-- Starts a session: an empty kernel of the name, or a reference kernel under its own name. -/
def Session.start (name : String) (base : Option Base) (options : CompileOptions) :
    ExceptT StartError Checked Session := do
  let kernel ← match base with
    | some b => b.build
    | none => pure { name }
  pure { kernel, options }

end TileKernel
