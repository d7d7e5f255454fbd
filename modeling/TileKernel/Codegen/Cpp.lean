import TileKernel.Codegen.Select

/-!
# Portable C++ text

The host emitter supports dense layouts only and prints one C++ function built against the
`tilec/cpu.hpp` support header. Global buffers become pointer parameters and every other buffer a
64-byte aligned local array; a ring of rotating instances is an array of instance pointers. Every
operand is a `tilec_cpu::view`, narrowed by its swizzle and its loop window; a statement lists
outputs before inputs, then a fill's literal, then the instruction's parameters, and ends with a
comment naming the op.
-/

set_option autoImplicit false

namespace TileKernel
namespace Cpp

/-- The rules of the host: dense operands only, barriers as thread fences. -/
def table (target : String) : Table :=
  { target, rules := [
    ⟨.copy, [.dense, .dense], "tilec_cpu::copy"⟩,
    ⟨.fill, [.dense], "tilec_cpu::fill"⟩,
    ⟨.reduce, [.dense, .dense], "tilec_cpu::reduce"⟩,
    ⟨.elementwise, [.dense, .dense, .dense], "tilec_cpu::elementwise"⟩,
    ⟨.cast, [.dense, .dense], "tilec_cpu::convert"⟩,
    ⟨.atomic, [.dense, .dense], "tilec_cpu::atomic"⟩,
    ⟨.barrier, [], "tilec_cpu::fence"⟩] }

/-- The instruction barriers become. -/
def fence : String := "tilec_cpu::fence"

/-- The spelling of an element type. -/
def typeName (s : Scalar) : String :=
  let bits := s.width * 8
  match s.kind with
  | .bool => "bool"
  | .float => if bits = 16 then "tilec_cpu::half" else if bits = 64 then "double" else "float"
  | .bfloat => "tilec_cpu::bfloat16"
  | .sint => s!"std::int{bits}_t"
  | .uint => s!"std::uint{bits}_t"

/-- The iteration an operand is addressed at: a fixed number, `i`, `i + k`, or `0` outside
loops. -/
def iteration : Option IterRef → String
  | some (.absolute t) => toString t
  | some (.relative 0) => "i"
  | some (.relative k) => s!"i + {k}"
  | none => "0"

/-- A view of the operand's current instance and window. -/
def view (o : LoweredOperand) (it : Option IterRef) : String :=
  let itText := iteration it
  let base := if o.ring.isEmpty then o.buffer
    else s!"{o.buffer}_ring[({itText}) % {o.ring.length}]"
  let swizzle := match o.swizzle with
    | some sw => s!".swizzle({sw.bits}, {sw.base}, {sw.shift})"
    | none => ""
  let window := match o.step with
    | some st => s!".window({st.axis}, {st.extent}, {itText})"
    | none => ""
  s!"tilec_cpu::view({base})" ++ swizzle ++ window

/-- A literal argument; NaN and the infinities through `std::numeric_limits`. -/
def literal : Literal → String
  | .float v =>
    match v.view with
    | .nan => "std::numeric_limits<double>::quiet_NaN()"
    | .inf neg => (if neg then "-" else "") ++ "std::numeric_limits<double>::infinity()"
    | .finite .. => Literal.floatText v
  | l => l.text

/-- A parameter argument: numbers as written, anything else as an operation name. -/
def paramArg : Param → String
  | .num n => toString n
  | .flag b => "tilec_cpu::Op::" ++ (if b then "true" else "false")
  | .word w => "tilec_cpu::Op::" ++ w

/-- One instruction as a statement, without indentation. -/
def statement (op : LoweredOp) : String :=
  let fillArg := match op.kind with
    | .fill v => [literal v]
    | _ => []
  let args := (op.outputs ++ op.inputs).map (view · op.iteration) ++ fillArg ++
    op.params.map paramArg
  op.mnemonic ++ "(" ++ ", ".intercalate args ++ s!");  // {op.name}"

/-- The ring declarations, one per rotating buffer, in order of first use. -/
def rings (k : LoweredKernel) : List String :=
  let operands := k.ops.flatMap fun op => op.inputs ++ op.outputs
  let step := fun (acc : List String × List String) (o : LoweredOperand) =>
    if o.ring.isEmpty || acc.1.contains o.buffer then acc else
    let ty := ((k.buffer? o.buffer).map fun b => typeName b.dtype).getD "void"
    let instances := ", ".intercalate o.ring
    (acc.1 ++ [o.buffer], acc.2 ++ [s!"{ty}* const {o.buffer}_ring[{o.ring.length}] = \x7b{instances}\x7d;"])
  (operands.foldl step ([], [])).2

/-- The function of a lowered kernel. -/
def emit (k : LoweredKernel) : String :=
  let params := (k.buffers.filter (·.scope == .global)).map fun b =>
    let ty := typeName b.dtype
    s!"{ty}* {b.name}"
  let locals := (k.buffers.filter (·.scope != .global)).map fun b =>
    let ty := typeName b.dtype
    s!"  alignas(64) {ty} {b.name}[{b.elements}];"
  let body := k.body.flatMap fun
    | .op op => ["  " ++ statement op]
    | .loop name trips ops =>
      [s!"  // {name}", s!"  for (std::uint32_t i = 0; i < {trips}; ++i) \x7b"] ++
        ops.map (fun op => "    " ++ statement op) ++ ["  \x7d"]
  let lines :=
    [s!"// Generated by tilec for {k.target}.", "#include <tilec/cpu.hpp>", "",
      s!"extern \"C\" void {k.name}(" ++ ", ".intercalate params ++ ") \x7b"] ++
    locals ++ (rings k).map ("  " ++ ·) ++ [""] ++ body ++ ["\x7d"]
  String.join (lines.map (· ++ "\n"))

end Cpp
end TileKernel
