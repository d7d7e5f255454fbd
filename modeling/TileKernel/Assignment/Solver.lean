import TileKernel.Assignment.Constraint

/-!
# Solving layout constraints

The solver narrows each buffer's domain by the unary constraints in order, then makes the binary
constraints arc consistent (a queue of constraints, each revising both of its buffers against the
other and requeueing the constraints that touch a buffer that shrank). It then repeatedly fixes
the most constrained undecided buffer (fewest candidates, then lowest handle) to its first
candidate and propagates again, until every domain holds one layout.

Whether a requirement admits a layout may fault, so solving may fault. When a domain runs empty
the solver names the conflict: the buffer, the constraint that emptied
it (`second`), and an earlier constraint on the buffer that admits none of what `second` admits
(else the last other constraint on it, else the buffer's declaration), with the layouts each
side admits.
-/

set_option autoImplicit false

namespace TileKernel

/-- One side of a conflict: an op's constraint, or the buffer's declaration when `op` is
`none`, with the layouts it admits. -/
structure Side where
  op : Option OpId
  admits : List Layout
deriving Repr

/-- A domain that ran empty. -/
structure Conflict where
  buffer : BufferId
  /-- The other buffer of a relation that emptied the domain. -/
  partner : Option BufferId
  first : Side
  second : Side
deriving Repr

/-- At most four layouts, then how many more: `[a, b, c, d, ... 2 more]`. -/
def layoutListText (ls : List Layout) : String :=
  let shown := ", ".intercalate ((ls.take 4).map Layout.text)
  let more := if 4 < ls.length then s!", ... {ls.length - 4} more" else ""
  "[" ++ shown ++ more ++ "]"

/-- `` `op` admits [...] `` or `the declaration admits [...]`. -/
def Side.describe (s : Side) (k : Kernel) : String :=
  let who := match s.op with
    | some h => s!"`{(k.op h).name}`"
    | none => "the declaration"
  s!"{who} admits " ++ layoutListText s.admits

/-- The solver's state: the constraints, the initial domains and the current domains, both
indexed by buffer handle. -/
structure Solver where
  constraints : Array Constraint
  initial : Array (List Layout)
  domains : Array (List Layout)

namespace Solver

/-- The current domain of a buffer. -/
def domain (s : Solver) (b : BufferId) : List Layout := s.domains[b.idx]?.getD []

/-- Replaces the current domain of a buffer. -/
def setDomain (s : Solver) (b : BufferId) (d : List Layout) : Solver :=
  { s with domains := s.domains.set! b.idx d }

/-- The binary constraints touching a buffer, other than `except`, in order. -/
def arcsTouching (s : Solver) (b : BufferId) (except : Option Nat) : List Nat :=
  (List.range s.constraints.size).filter fun j =>
    some j != except && (match s.constraints[j]? with
      | some c => c.isBinary && c.touches b
      | none => false)

/-- The layouts of the buffer's initial domain that constraint `i` admits on its own: those its
requirement accepts, or those related to some layout still in the other buffer's domain. -/
def admitted (s : Solver) (i : Nat) (b : BufferId) : Checked (List Layout) :=
  let initial := s.initial[b.idx]?.getD []
  match s.constraints[i]? with
  | some (.unary _ _ r) => initial.filterM r.admits
  | some (.binary _ x y rel) =>
    let support := s.domain (if x == b then y else x)
    pure (initial.filter fun l => support.any (rel.holds l))
  | none => pure []

/-- Names the conflict constraint `second` ran into on a buffer. -/
def conflict (s : Solver) (b : BufferId) (second : Nat) : Checked Conflict := do
  let admits ← s.admitted second b
  let others := (List.range s.constraints.size).filter fun j =>
    j != second && (match s.constraints[j]? with
      | some c => c.touches b
      | none => false)
  let disjoint ← others.findM? fun j => do return !(← s.admitted j b).any admits.contains
  let opOf := fun (j : Nat) => s.constraints[j]?.map Constraint.op
  let first ← match disjoint.orElse fun _ => others.getLast? with
    | some j => do pure (⟨opOf j, ← s.admitted j b⟩ : Side)
    | none => pure ⟨none, s.initial[b.idx]?.getD []⟩
  let partner := match s.constraints[second]? with
    | some (.binary _ x y _) => some (if x == b then y else x)
    | _ => none
  return ⟨b, partner, first, ⟨opOf second, admits⟩⟩

/-- Drops the layouts of `x` without support in `y`; answers whether `x` shrank. -/
def revise (s : Solver) (x y : BufferId) (rel : Relation) : Solver × Bool :=
  let support := s.domain y
  let before := s.domain x
  let after := before.filter fun l => support.any (rel.holds l)
  (s.setDomain x after, after.length != before.length)

/-- Revises `x` against `y` for constraint `i`, queueing the constraints touching `x` when it
shrank. -/
def reviseArc (s : Solver) (queue : List Nat) (i : Nat) (x y : BufferId) (rel : Relation) :
    ExceptT Conflict Checked (Solver × List Nat) := do
  let (s, shrank) := s.revise x y rel
  if !shrank then return (s, queue)
  else if (s.domain x).isEmpty then throw (← s.conflict x i)
  else return (s, queue ++ (s.arcsTouching x (some i)).filter fun j => !queue.contains j)

/-- The number of queue steps that suffices for arc consistency: every step either empties the
queue or follows a shrink, and each shrink queues at most every constraint. -/
def propagationBound (s : Solver) : Nat :=
  (s.domains.toList.foldl (fun n d => n + d.length) 0 + 1) * (s.constraints.size + 1) + 1

/-- Arc consistency over the binary constraints of the queue. -/
def propagate (s : Solver) (queue : List Nat) : ExceptT Conflict Checked Solver :=
  go s.propagationBound s queue
where
  /-- Works through the queue, for at most `fuel` steps. -/
  go : Nat → Solver → List Nat → ExceptT Conflict Checked Solver
    | 0, s, _ => pure s
    | _, s, [] => pure s
    | fuel + 1, s, i :: rest =>
      match s.constraints[i]? with
      | some (.binary _ a b rel) => do
        let (s, q) ← s.reviseArc rest i a b rel
        let (s, q) ← s.reviseArc q i b a rel
        go fuel s q
      | _ => go fuel s rest

/-- The undecided buffer with the fewest candidates, the lowest handle on a tie. -/
def undecided (s : Solver) : Option BufferId :=
  let open_ := (List.range s.domains.size).filter fun i => 1 < (s.domains[i]?.getD []).length
  (open_.foldl (fun best i =>
    match best with
    | none => some i
    | some j =>
      if (s.domains[i]?.getD []).length < (s.domains[j]?.getD []).length then some i else some j)
    none).map (⟨·⟩)

/-- Applies the unary constraints in order. -/
def applyUnary (s : Solver) : ExceptT Conflict Checked Solver :=
  (List.range s.constraints.size).foldlM (fun (s : Solver) (i : Nat) => do
    match (s.constraints[i]? : Option Constraint) with
    | some (.unary _ b r) =>
      let d ← ((s.domain b).filterM r.admits : Checked (List Layout))
      let s := s.setDomain b d
      if d.isEmpty then throw (← s.conflict b i) else pure s
    | _ => pure s) s

/-- Fixes undecided buffers one by one, propagating after each; every round decides one. -/
def settle (s : Solver) : ExceptT Conflict Checked Solver :=
  go s.domains.size s
where
  /-- At most `fuel` rounds. -/
  go : Nat → Solver → ExceptT Conflict Checked Solver
    | 0, s => pure s
    | fuel + 1, s =>
      match s.undecided with
      | none => pure s
      | some b => do
        let s := s.setDomain b ((s.domain b).take 1)
        let s ← s.propagate (s.arcsTouching b none)
        go fuel s

/-- Solves a constraint network from its initial domains: one layout per buffer, or the
conflict that stopped it. -/
def solve (constraints : List Constraint) (initial : Array (List Layout)) :
    ExceptT Conflict Checked (List (BufferId × Layout)) := do
  let s : Solver := ⟨constraints.toArray, initial, initial⟩
  let s ← s.applyUnary
  let s ← s.propagate (List.range s.constraints.size)
  let s ← s.settle
  return (List.range s.domains.size).filterMap fun i =>
    (s.domains[i]?.getD []).getLast?.map fun l => (⟨i⟩, l)

end Solver
end TileKernel
