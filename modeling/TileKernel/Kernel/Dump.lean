import TileKernel.Kernel.Basic

/-!
# The text form of a kernel

`Kernel.dump` writes a kernel as text: a header, one line per buffer (scope, type, shape, layout
or `<unresolved>`, swizzle, ring membership), then the body, with loops as braced blocks and
pipelined loops as their rings and their prologue, steady and epilogue blocks. An op line gives
its handle, name, kind, operands, schedule and dependencies. Writing an element type's width in
bits is 8-bit arithmetic, so a kernel with a type of 32 bytes or more faults.
-/

set_option autoImplicit false

namespace TileKernel
namespace Kernel

/-- An operand as `name`, `name{axis@extent}` for a loop window, and `~` after a rotating one. -/
def operandText (k : Kernel) (o : Operand) : String :=
  let window := match o.step with
    | some s => "\x7b" ++ s!"{s.axis}@{s.extent}" ++ "\x7d"
    | none => ""
  (k.buffer o.buffer).name ++ window ++ (if o.rotating then "~" else "")

/-- A buffer line's content: `name: scope type[shape] layout`, then its swizzle and ring. -/
def bufferText (b : Buffer) : Checked String := do
  let layout := match b.layout with
    | some l => " " ++ l.text
    | none => " <unresolved>"
  let swizzle := match b.swizzle with
    | some s => " swizzle " ++ s.text
    | none => ""
  let ring := match b.instanceOf with
    | some (logical, n) => s!" (instance {n} of [{logical.idx}])"
    | none => ""
  return s!"{b.name}: {b.scope.name} {← b.dtype.name}{b.shape.text}" ++ layout ++ swizzle ++ ring

/-- An op line's content: `%h name = kind inputs -> outputs @iter stage s after %d`. -/
def opText (k : Kernel) (h : OpId) : String :=
  let o := k.op h
  let list := fun (os : List Operand) => ", ".intercalate (os.map k.operandText)
  let ins := if o.inputs.isEmpty then "" else " " ++ list o.inputs
  let outs := if o.outputs.isEmpty then "" else " -> " ++ list o.outputs
  let sched := match o.sched with
    | some s => s!" @{s.iteration.text} stage {s.stage}"
    | none => ""
  let deps := if o.deps.isEmpty then "" else
    " after " ++ " ".intercalate (o.deps.map fun d => s!"%{d.idx}")
  s!"%{h.idx} {o.name} = {o.kind.text}" ++ ins ++ outs ++ sched ++ deps

/-- The lines of one statement. -/
def stmtLines (k : Kernel) : Stmt → List String
  | .op h => ["  " ++ k.opText h]
  | .loop l =>
    let nest := k.loop l
    let head := s!"  loop {nest.name} 0..{nest.extent}"
    let inner := match nest.expansion with
      | none =>
        let depth := match nest.depth with
          | some d => s!" depth {d}"
          | none => ""
        (head ++ depth ++ " \x7b") :: nest.body.map fun h => "    " ++ k.opText h
      | some p =>
        let rings := p.rings.map fun r =>
          s!"    ring {(k.buffer r.logical).name}: " ++
            ", ".intercalate (r.instances.map fun b => (k.buffer b).name)
        let block := fun (label : String) (hs : List OpId) =>
          s!"    {label}:" :: hs.map fun h => "      " ++ k.opText h
        (head ++ s!" pipelined depth {p.depth} steady x{p.steadyTrips} \x7b") :: rings ++
          block "prologue" p.prologue ++ block "steady" p.steady ++ block "epilogue" p.epilogue
    inner ++ ["  \x7d"]

/-- The text form of the kernel; every line ends with a newline. -/
def dump (k : Kernel) : Checked String := do
  let buffers ← k.buffers.toList.mapM fun b => do pure ("  buffer " ++ (← bufferText b))
  let lines := s!"kernel {k.name} \x7b" :: buffers ++ k.body.flatMap k.stmtLines ++ ["\x7d"]
  return String.join (lines.map (· ++ "\n"))

end Kernel
end TileKernel
