import TileKernel.CommandLine.Args
import TileKernel.Catalog
import TileKernel.Codegen.Backend
import TileKernel.Lower

/-!
# Running a command

A compilation builds the named kernel from the catalogue, finds the backend of the target
identifier, lowers the kernel against that backend's device with the command's overrides, and
emits it: the text of each output file goes to standard output or to the output path, the
backend's diagnostics to standard error, and with `--emit-ir` the lowered kernel's dump before
them. `--dry-run` stops after lowering.

What a command does is a list of `Effect`s and an exit status, so that everything but the
writing itself is decided here. A failure is reported on standard error as a headline and its
cause, with status 1; a fault stops the command with status 101; unreadable arguments give
status 2, help and version status 0.
-/

set_option autoImplicit false

namespace TileKernel
namespace CommandLine

/-- One observable action of a command. -/
inductive Effect where
  /-- Text to standard output. -/
  | out (text : String)
  /-- Text to standard error. -/
  | err (text : String)
  /-- A file's text written to a path. -/
  | write (path text : String)

/-- What a command does, in order, and the status it exits with. -/
structure Outcome where
  effects : List Effect
  status : Nat

/-- The report of a failure: its headline and, below it, what caused it. -/
def report (headline : String) (cause : Option String) : String :=
  let below := match cause with
    | some c => s!"  ╰─▶ {c}\n"
    | none => ""
  s!"Error:   × {headline}\n" ++ below ++ "\n"

/-- A command that fails with a report. -/
def Outcome.failure (done : List Effect) (headline : String) (cause : Option String) : Outcome :=
  ⟨done ++ [.err (report headline cause)], 1⟩

/-- A command stopped by a fault, after what it had already done: the fault is reported on
standard error and the status is 101. -/
def Outcome.faulted (done : List Effect) (f : Fault) : Outcome :=
  ⟨done ++ [.err s!"thread 'main' panicked:\n{f.message}\n"], 101⟩

/-- The help text. -/
def helpText : String :=
  "tilec: tile kernel compiler\n\n" ++ usage ++ "\n\n" ++
  "Arguments:\n" ++
  "  [KERNEL]  Kernel to compile (see --list)\n\n" ++
  "Options:\n" ++
  "      --list                     List the available kernels and exit\n" ++
  "  -t, --target <TARGET>          Target backend (default: ir-dump) [default: ir-dump]\n" ++
  "  -o, --output <OUTPUT>          Output path (default: stdout)\n" ++
  "      --stages <STAGES>          Pipeline depth, as LOOP=DEPTH for one loop or DEPTH for every loop\n" ++
  "      --no-swizzle               Skip the swizzle optimizer\n" ++
  "      --no-copies                Fail on layout conflicts instead of inserting copies\n" ++
  "      --banks <BANKS>            Number of shared-memory banks\n" ++
  "      --bank-width <BANK_WIDTH>  Width of one shared-memory bank in bytes\n" ++
  "      --mma <MMA>                Native MMA shape as MxNxK, or \"none\"\n" ++
  "      --lanes <LANES>            Lanes cooperating on one register tile\n" ++
  "      --line-info                Annotate emitted code with the IR op it comes from\n" ++
  "      --emit-ir                  Dump IR to stderr before backend compilation\n" ++
  "      --dry-run                  Lower without producing output\n" ++
  "  -v, --verbose...               Increase log verbosity (-v info, -vv debug, -vvv trace)\n" ++
  "  -h, --help                     Print help\n" ++
  "  -V, --version                  Print version\n"

/-- The version line. -/
def versionText : String := "tilec-cli 0.1.0\n"

/-- Pads a name with spaces to `width` characters. -/
def padRight (width : Nat) (s : String) : String :=
  s ++ String.ofList (List.replicate (width - s.length) ' ')

/-- The catalogue, one kernel a line: its name in a column of 16 and its description. -/
def catalogText : String :=
  String.join (Catalog.entries.map fun (name, about) => padRight 16 name ++ " " ++ about ++ "\n")

/-- Sets the pipeline depth of one loop, replacing an earlier one. -/
def setDepth (depths : List (String × Nat)) (loopName : String) (d : Nat) : List (String × Nat) :=
  (loopName, d) :: depths.filter (·.1 != loopName)

/-- The lowering options of a command for a kernel: the device's parameters with the command's
overrides, and the depths it asks for (a depth without a loop name applies to every loop). -/
def compileOptions (o : Options) (device : Target) (k : Kernel) : CompileOptions :=
  let depths := o.stages.foldl (fun ds (loopName, d) =>
    match loopName with
    | some l => setDepth ds l d
    | none => k.loops.toList.foldl (fun ds lp => setDepth ds lp.name d) ds) []
  let target := { device with
    bankCount := o.banks.getD device.bankCount,
    bankWidth := o.bankWidth.getD device.bankWidth,
    mma := o.mma.getD device.mma,
    lanes := o.lanes.getD device.lanes }
  { target, pipelineDepth := depths, swizzle := !o.noSwizzle, layoutCopies := !o.noCopies }

/-- Compiles a kernel as the options say. -/
def compile (o : Options) : Outcome :=
  if o.list then ⟨[.out catalogText], 0⟩ else
  match o.kernel with
  | none => .failure [] "no kernel given (use --list to see the available ones)" none
  | some name =>
  match Catalog.byName? name with
  | none =>
    .failure [] (s!"unknown kernel '{name}' (available: " ++
      ", ".intercalate (Catalog.entries.map (·.1)) ++ ")") none
  | some build =>
  match build.run with
  | .error f => .faulted [] f
  | .ok (.error e) => .failure [] "kernel construction failed" (some e.message)
  | .ok (.ok kernel) =>
  let targetName := o.targetName
  match Backend.ofTarget? targetName with
  | none =>
    .failure [] (s!"unknown target '{targetName}' (available: " ++
      ", ".intercalate (Backend.all.flatMap (·.identifiers)) ++ ")") none
  | some backend =>
  let options := compileOptions o backend.device kernel
  match (lower options).run kernel with
  | .error f => .faulted [] f
  | .ok (.error e, k) => .failure [] s!"lowering '{k.name}' for {options.target.name} failed"
      (some e.message)
  | .ok (.ok (), k) =>
  match (if o.emitIr then (fun text => [Effect.err (text ++ "\n")]) <$> k.dump else pure []) with
  | .error f => .faulted [] f
  | .ok dumped =>
  if o.dryRun then ⟨dumped, 0⟩ else
  match (backend.compile o.lineInfo k).run with
  | .error f => .faulted dumped f
  | .ok (.error e) => .failure dumped "backend compilation failed" (some e.message)
  | .ok (.ok output) =>
  let notes := output.diagnostics.map fun d => Effect.err (d.text ++ "\n")
  let files := output.files.map fun f =>
    match o.output with
    | some path => Effect.write path f.text
    | none => Effect.out f.text
  ⟨dumped ++ notes ++ files, 0⟩

/-- Runs a command line, without the program's name. -/
def run (args : List String) : Outcome :=
  match parse args with
  | .error e => ⟨[.err e.text], 2⟩
  | .ok .help => ⟨[.out helpText], 0⟩
  | .ok .version => ⟨[.out versionText], 0⟩
  | .ok (.compile o) => compile o

end CommandLine
end TileKernel
