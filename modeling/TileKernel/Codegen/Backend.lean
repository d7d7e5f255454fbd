import TileKernel.Codegen.Cuda
import TileKernel.Codegen.Cpp
import TileKernel.Kernel.Dump

/-!
# Backends

A backend turns a kernel into output files and diagnostics. The CUDA and C++ backends need a
fully lowered kernel and select instructions against their own device (`sm80` and `cpu`); the
text dump accepts a kernel at any stage. A backend is found by any of its target identifiers.
-/

set_option autoImplicit false

namespace TileKernel

/-- An output emitter. -/
inductive Backend where
  /-- CUDA for matrix-unit GPUs. -/
  | cuda
  /-- Portable C++ for host CPUs. -/
  | cpu
  /-- The kernel's text dump. -/
  | irDump
deriving DecidableEq, Repr

/-- How serious a diagnostic is. -/
inductive DiagnosticLevel where
  | warning
  | info
deriving DecidableEq, Repr

/-- A non-fatal message of a backend. -/
structure Diagnostic where
  level : DiagnosticLevel
  message : String

/-- The text of a diagnostic: `[Warning] …` or `[Info] …`. -/
def Diagnostic.text (d : Diagnostic) : String :=
  (match d.level with
    | .warning => "[Warning] "
    | .info => "[Info] ") ++ d.message

/-- A generated file. -/
structure OutputFile where
  name : String
  text : String

/-- What a backend produces. -/
structure BackendOutput where
  files : List OutputFile
  diagnostics : List Diagnostic

namespace Backend

/-- The human-readable name. -/
def name : Backend → String
  | .cuda => "CUDA"
  | .cpu => "CPU"
  | .irDump => "IR Dump"

/-- Every backend, in the order a target identifier is looked up: the text dump first. -/
def all : List Backend := [.irDump, .cuda, .cpu]

/-- The target identifiers a backend answers to. -/
def identifiers : Backend → List String
  | .cuda => ["cuda", "sm80"]
  | .cpu => ["cpu", "host"]
  | .irDump => ["ir-dump", "ir"]

/-- The device kernels are lowered against before a backend emits them; the text dump, which
accepts any kernel, takes the GPU. -/
def device : Backend → Target
  | .cpu => Target.cpu
  | _ => Target.sm80

/-- The backend of a target identifier. -/
def ofTarget? (name : String) : Option Backend := all.find? (·.identifiers.contains name)

/-- The CUDA diagnostics: shared memory use, a warning above the static limit, and a note when
register tiles need whole warps. -/
def cudaDiagnostics (k : LoweredKernel) : Checked (List Diagnostic) := do
  let shared ← Cuda.sharedBytes k
  return [⟨.info, s!"kernel '{k.name}': {shared} bytes of shared memory"⟩] ++
  (if Cuda.staticSharedLimit < shared then
    [⟨.warning, s!"kernel '{k.name}' needs {shared} bytes of shared memory, above the " ++
      s!"{Cuda.staticSharedLimit} byte static limit; launch with " ++
      "cudaFuncAttributeMaxDynamicSharedMemorySize"⟩]
  else []) ++
  (if Cuda.usesFragments k then
    [⟨.info, "register tiles are warp-wide: launch whole warps per block"⟩]
  else [])

/-- The C++ diagnostics: how many barriers became thread fences, if any. -/
def cppDiagnostics (k : LoweredKernel) : List Diagnostic :=
  let fences := (k.ops.filter (·.mnemonic == Cpp.fence)).length
  if fences = 0 then [] else
    [⟨.info, s!"kernel '{k.name}': {fences} barrier(s) lowered to thread fences"⟩]

/-- Emits a kernel; `lineInfo` annotates CUDA instructions with their op and iteration. -/
def compile (b : Backend) (lineInfo : Bool) (k : Kernel) :
    ExceptT BackendError Checked BackendOutput :=
  match b with
  | .cuda => do
    let lowered ← lowerKernel k (Cuda.table Target.sm80.name)
    let diagnostics ← cudaDiagnostics lowered
    pure ⟨[⟨s!"{lowered.name}.cu", Cuda.emit lineInfo lowered⟩], diagnostics⟩
  | .cpu => do
    let lowered ← lowerKernel k (Cpp.table Target.cpu.name)
    pure ⟨[⟨s!"{lowered.name}.cpp", Cpp.emit lowered⟩], cppDiagnostics lowered⟩
  | .irDump => do pure ⟨[⟨s!"{k.name}.tir", ← k.dump⟩], []⟩

end Backend
end TileKernel
