import TileKernel.Kernel.Check

/-!
# Instruction selection

A `Table` lists, per op kind, the operand layout combinations a target can execute, each with the
instruction it becomes. `lowerKernel` walks a resolved kernel and selects the first matching rule
for every op, in table order; an op with no matching rule is unsupported, as there is no generic
fallback. Operands are classified by scope and layout (`LayoutClass`) and matched by patterns
(`Slot`).

The result, a `LoweredKernel`, is what text emitters print: the buffers in declaration order and
a body in which a pipelined loop appears as its prologue ops, a counted steady loop and its
epilogue ops. A rotating operand of a pipelined loop names the ring of its instances, except in
a fixed iteration, which names its instance directly.
-/

set_option autoImplicit false

namespace TileKernel

/-- How an operand's buffer is laid out, as far as instruction selection is concerned. -/
inductive LayoutClass where
  /-- Dense device memory. -/
  | global
  /-- Dense shared memory, possibly behind a swizzle. -/
  | shared (swizzled : Bool)
  /-- Dense per-lane memory. -/
  | local
  /-- A register tile in the layout a cooperative copy produces. -/
  | strip
  /-- A register tile in the matrix unit's operand layout. -/
  | mma (operand : MmaOperand)
deriving DecidableEq, Repr

namespace LayoutClass

/-- The class of a buffer, which must carry a layout. -/
def of (b : Buffer) : Except KernelError LayoutClass :=
  match b.layout, b.scope with
  | none, _ => .error (.unresolved b.name)
  | some (.fragment f), _ =>
    match f.kind with
    | .strip _ => .ok .strip
    | .mma operand => .ok (.mma operand)
  | some (.dense _), .global => .ok .global
  | some (.dense _), .shared => .ok (.shared b.swizzle.isSome)
  | some (.dense _), _ => .ok .local

/-- Whether the buffer lives in registers distributed over lanes. -/
def isFragment : LayoutClass → Bool
  | .strip | .mma _ => true
  | _ => false

end LayoutClass

/-- A pattern over one operand's class. -/
inductive Slot where
  | global
  /-- Shared memory, swizzled or not. -/
  | shared
  | local
  /-- Any dense buffer. -/
  | dense
  | strip
  /-- One matrix-unit operand fragment. -/
  | mma (operand : MmaOperand)
  /-- A matrix-unit input: a shared tile or the matching operand fragment. -/
  | feed (operand : MmaOperand)
  /-- Any register tile. -/
  | fragment
  | any
deriving DecidableEq, Repr

/-- Whether the pattern matches a class. -/
def Slot.admits : Slot → LayoutClass → Bool
  | .global, c => c == .global
  | .shared, c => (c matches .shared _)
  | Slot.local, c => c == LayoutClass.local
  | .dense, c => !c.isFragment
  | .strip, c => c == .strip
  | .mma op, c => c == .mma op
  | .feed op, c => (c matches .shared _) || c == .mma op
  | .fragment, c => c.isFragment
  | .any, _ => true

/-- One rule of a table: the kind it applies to, patterns for the inputs then the outputs, and
the instruction. -/
structure Rule where
  tag : OpTag
  slots : List Slot
  mnemonic : String

/-- Whether the rule applies to an op of the kind with operands of the classes. -/
def Rule.matches (r : Rule) (tag : OpTag) (classes : List LayoutClass) : Bool :=
  r.tag == tag && r.slots.length == classes.length &&
    (r.slots.zip classes).all fun (s, c) => s.admits c

/-- The op and layout combinations one target executes, earlier rules first. -/
structure Table where
  target : String
  rules : List Rule

/-- Why a kernel cannot be emitted. -/
inductive BackendError where
  /-- An op with no rule: its name, kind text, `buffer: layout` per operand, and the target. -/
  | unsupported (op kind : String) (layouts : List String) (target : String)
  /-- The kernel is not fully lowered. -/
  | kernel (e : KernelError)
deriving DecidableEq, Repr

/-- The text of a backend error. -/
def BackendError.message : BackendError → String
  | .unsupported op kind layouts target =>
    s!"no lowering for `{op}` ({kind}) with [" ++ ", ".intercalate layouts ++ s!"] on {target}"
  | .kernel e => "kernel is not lowered: " ++ e.message

/-- A kernel error as a backend error. -/
def liftKernel {α : Type} : Except KernelError α → Except BackendError α
  | .ok a => .ok a
  | .error e => .error (.kernel e)

/-- An operand's buffer and layout as an unsupported-op report shows it. -/
def layoutNote (b : Buffer) : String :=
  match b.layout, b.swizzle with
  | some l, some s => s!"{b.name}: {l.text} swizzle {s.text}"
  | some l, none => s!"{b.name}: {l.text}"
  | none, _ => s!"{b.name}: <unresolved>"

/-- The first rule that applies to an op. -/
def Table.select (t : Table) (k : Kernel) (op : TileOp) : Except BackendError Rule := do
  let classes ← liftKernel (op.operands.mapM fun o => LayoutClass.of (k.buffer o.buffer))
  match t.rules.find? (·.matches op.kind.tag classes) with
  | some r => pure r
  | none =>
    throw (.unsupported op.name op.kind.text (op.operands.map fun o => layoutNote (k.buffer o.buffer))
      t.target)

/-- A buffer as an emitter declares it. -/
structure LoweredBuffer where
  name : String
  scope : Scope
  dtype : Scalar
  elements : Nat
  layoutClass : LayoutClass
  layout : String
  swizzle : Option Swizzle
  /-- Registers per lane of a register tile. -/
  regsPerLane : Option Nat

/-- An operand after ring resolution. -/
structure LoweredOperand where
  /-- The buffer accessed when the instance is fixed, the logical buffer otherwise. -/
  buffer : String
  /-- The instances chosen by `iteration % ring.length`; empty when fixed. -/
  ring : List String
  step : Option Step
  layoutClass : LayoutClass
  swizzle : Option Swizzle

/-- A compile-time parameter of an instruction. -/
inductive Param where
  | num (n : Nat)
  | flag (b : Bool)
  | word (w : String)
deriving DecidableEq, Repr

/-- One selected instruction. -/
structure LoweredOp where
  name : String
  kind : OpKind
  mnemonic : String
  inputs : List LoweredOperand
  outputs : List LoweredOperand
  /-- The source iteration inside a loop; a relative one counts from the loop counter. -/
  iteration : Option IterRef

/-- The instruction's compile-time parameters, in a fixed order per kind. -/
def LoweredOp.params (op : LoweredOp) : List Param :=
  match op.kind with
  | .copy v _ => [.num (v.getD 1)]
  | .fill _ | .cast => []
  | .reduce r axis => [.word r.name, .num axis]
  | .elementwise b => [.word b.name]
  | .gemm accumulate => [.flag accumulate]
  | .atomic a v => [.word a.name, .num (v.getD 1)]
  | .barrier .sync => []
  | .barrier (.asyncWait pending) => [.num pending]

/-- A statement of the lowered body. -/
inductive LoweredStmt where
  | op (op : LoweredOp)
  /-- A counted loop whose counter starts at zero. -/
  | loop (name : String) (trips : Nat) (body : List LoweredOp)

/-- A kernel after instruction selection. -/
structure LoweredKernel where
  name : String
  target : String
  buffers : List LoweredBuffer
  body : List LoweredStmt

namespace LoweredKernel

/-- Every instruction in emission order. -/
def ops (k : LoweredKernel) : List LoweredOp :=
  k.body.flatMap fun
    | .op o => [o]
    | .loop _ _ body => body

/-- The first buffer of a name. -/
def buffer? (k : LoweredKernel) (name : String) : Option LoweredBuffer :=
  k.buffers.find? (·.name == name)

end LoweredKernel

/-- Resolves an operand: a rotating operand on a ring of the expansion names its instance at a
fixed iteration and the whole ring otherwise. -/
def lowerOperand (k : Kernel) (o : Operand) (p : Option Expansion) (it : Option IterRef) :
    Except BackendError LoweredOperand := do
  let b := k.buffer o.buffer
  let (name, ring) := match p.bind (·.ringOf o.buffer), o.rotating, it with
    | some r, true, some (.absolute t) => ((k.buffer (r.instance t)).name, [])
    | some r, true, _ => (b.name, r.instances.map fun x => (k.buffer x).name)
    | _, _, _ => (b.name, [])
  let layoutClass ← liftKernel (LayoutClass.of b)
  pure { buffer := name, ring, step := o.step, layoutClass, swizzle := b.swizzle }

/-- Selects the instruction of an op. -/
def lowerOp (k : Kernel) (t : Table) (op : TileOp) (p : Option Expansion) (it : Option IterRef) :
    Except BackendError LoweredOp := do
  let rule ← t.select k op
  let inputs ← op.inputs.mapM fun o => lowerOperand k o p it
  let outputs ← op.outputs.mapM fun o => lowerOperand k o p it
  pure { name := op.name, kind := op.kind, mnemonic := rule.mnemonic, inputs, outputs, iteration := it }

/-- The buffer as declared: its element count and a register tile's registers per lane are
machine counts, taken in that order. -/
def lowerBuffer (b : Buffer) : ExceptT BackendError Checked LoweredBuffer := do
  let layout ← match b.layout with
    | some l => pure l
    | none => throw (.kernel (.unresolved b.name))
  let elements ← b.elements
  let layoutClass ← liftExcept (liftKernel (LayoutClass.of b))
  let regsPerLane ← match layout.asFragment? with
    | some f => some <$> f.regsPerLane
    | none => pure none
  pure { name := b.name, scope := b.scope, dtype := b.dtype, elements, layoutClass,
         layout := layout.text, swizzle := b.swizzle, regsPerLane }

/-- Runs instruction selection over a fully resolved kernel. An op's iteration is its scheduled
one; the ops of a loop that is not pipelined run at the loop counter. -/
def lowerKernel (k : Kernel) (t : Table) : ExceptT BackendError Checked LoweredKernel := do
  liftExcept (liftKernel k.checkResolved)
  let buffers ← k.buffers.toList.mapM lowerBuffer
  let one := fun (h : OpId) (p : Option Expansion) (fallback : Option IterRef) =>
    let op := k.op h
    lowerOp k t op p ((op.sched.map (·.iteration)).or fallback)
  let body ← liftExcept <| k.body.mapM fun
    | .op h => do pure [LoweredStmt.op (← one h none none)]
    | .loop l => do
      let nest := k.loop l
      match nest.expansion with
      | none =>
        let ops ← nest.body.mapM fun h => one h none (some (.relative 0))
        pure [.loop nest.name nest.extent ops]
      | some p =>
        let prologue ← p.prologue.mapM fun h => one h (some p) none
        let steady ← p.steady.mapM fun h => one h (some p) none
        let epilogue ← p.epilogue.mapM fun h => one h (some p) none
        pure (prologue.map .op ++ [.loop nest.name p.steadyTrips steady] ++ epilogue.map .op)
  pure { name := k.name, target := t.target, buffers, body := body.flatten }

end TileKernel
