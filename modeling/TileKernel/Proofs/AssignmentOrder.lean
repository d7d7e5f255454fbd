import TileKernel.Proofs.SolveOrder
import TileKernel.Proofs.AssignmentFailure

/-!
# Layout assignment does not depend on the order of the live ops

Layout assignment collects the constraints of the live ops in program order (`liveConstraints`)
and searches for layouts meeting them; the search's answer does not show the order of its
constraints (`Solver.solve_perm`). What else the assignment reads of a kernel is its buffers, for
the initial domains and for attaching the answer, and its ops, for their constraints:

* the initial domains read the buffers alone (`initialDomains_congr`) and the constraints of an op
  the ops and the buffers alone (`opConstraints_congr`), so two kernels whose live ops are two
  orders of one list collect two orders of one network (`liveConstraints_perm`);
* attaching the answer reads and writes nothing but the buffers (`attach_loop_congr`).

So two kernels that differ only in the order of their live ops, when neither needs a
materializing copy, get the same layouts (`assignLayouts_order_independent`).
-/

set_option autoImplicit false

namespace TileKernel

section Flatten

variable {α β ε : Type}

/-- Mapping a computation over two orders of one list and joining the answers gives two orders of
one list. -/
theorem flatten_perm_of_mapM {f : α → Except ε (List β)} {l l' : List α} {r r' : List (List β)}
    (hp : l.Perm l') (h : l.mapM f = .ok r) (h' : l'.mapM f = .ok r') : r.flatten.Perm r'.flatten := by
  -- Both answers are the lists of the values `f` gives on the elements.
  let g : α → List β := fun x => match f x with
    | .ok y => y
    | .error _ => []
  have values : ∀ {l : List α} {r : List (List β)}, List.Forall₂ (fun x y => f x = .ok y) l r →
      r = l.map g := by
    intro l r h
    induction h with
    | nil => rfl
    | cons hxy _ ih => simp [g, hxy, ih]
  rw [values (mapM_eq_ok h), values (mapM_eq_ok h')]
  exact (hp.map g).flatten

end Flatten

/-! ### What the assignment reads of a kernel -/

section Reads

variable {k₁ k₂ : Kernel}

theorem initialDomains_congr (hb : k₁.buffers = k₂.buffers) (o : CompileOptions) :
    initialDomains k₁ o = initialDomains k₂ o := by
  unfold initialDomains
  rw [hb]

theorem opConstraints_congr (hb : k₁.buffers = k₂.buffers) (ho : k₁.ops = k₂.ops) (t : Target) :
    opConstraints k₁ t = opConstraints k₂ t := by
  obtain ⟨_, buffers, ops, _, _, _⟩ := k₁
  obtain ⟨_, _, _, _, _, _⟩ := k₂
  subst hb ho
  rfl

/-- Two kernels with the same ops and buffers, whose live ops are two orders of one list, collect
two orders of one network. -/
theorem liveConstraints_perm (hb : k₁.buffers = k₂.buffers) (ho : k₁.ops = k₂.ops)
    (hp : k₁.liveOps.Perm k₂.liveOps) {t : Target} {cs₁ cs₂ : List Constraint}
    (h₁ : liveConstraints k₁ t = .ok cs₁) (h₂ : liveConstraints k₂ t = .ok cs₂) : cs₁.Perm cs₂ := by
  rcases hm₁ : k₁.liveOps.mapM (opConstraints k₁ t) with _ | r₁ <;>
    simp only [liveConstraints, hm₁, bind, Except.bind, pure, Except.pure] at h₁
  · cases h₁
  rcases hm₂ : k₂.liveOps.mapM (opConstraints k₂ t) with _ | r₂ <;>
    simp only [liveConstraints, hm₂, bind, Except.bind, pure, Except.pure] at h₂
  · cases h₂
  obtain rfl := Except.ok.inj h₁
  obtain rfl := Except.ok.inj h₂
  rw [← opConstraints_congr hb ho] at hm₂
  exact flatten_perm_of_mapM hp hm₁ hm₂

/-- A layout attaches only to a buffer without one that it fits. -/
theorem attachLayout_fits {k k' : Kernel} {b : BufferId} {l : Layout} (h : k.attachLayout b l = .ok k') :
    ∃ bf, k.buffer? b = some bf ∧ bf.layout = none ∧ l.Fits bf := by
  rcases hb : k.buffer? b with _ | bf
  · simp [Kernel.attachLayout, Kernel.tryBuffer, hb, bind, Except.bind] at h
  simp only [Kernel.attachLayout, Kernel.tryBuffer, hb, bind, Except.bind] at h
  split_ifs at h with hl hs
  refine ⟨bf, rfl, Option.not_isSome_iff_eq_none.1 hl, not_not.1 hs, ?_⟩
  split at h <;> simp_all [Layout.isFragment, Layout.asFragment?]

/-- Attaching a layout reads and writes the buffers alone. -/
theorem attachLayout_congr {k₁' : Kernel} {b : BufferId} {l : Layout} (hb : k₁.buffers = k₂.buffers)
    (h : k₁.attachLayout b l = .ok k₁') : k₂.attachLayout b l = .ok { k₂ with buffers := k₁'.buffers } := by
  obtain ⟨bf, hbf, hl, fit⟩ := attachLayout_fits h
  obtain ⟨-, rfl⟩ := attachLayout_ok h
  rw [attachLayout_of_fits (by rwa [Kernel.buffer?, ← hb]) hl fit]
  simp [Kernel.modifyBuffer, hb]

end Reads

/-! ### Two runs of the attaching loop -/

namespace KernelM

variable {ε : Type}

/-- A loop simulates itself along a relation its steps keep: a run from one kernel is matched by a
run from any kernel related to it, ending related. -/
theorem run_forM_simulate {γ : Type} {f : γ → KernelM ε PUnit} (R : Kernel → Kernel → Prop) :
    ∀ {l : List γ} {kx ky kx' : Kernel},
      (∀ d ∈ l, ∀ {kx ky kx' : Kernel}, R kx ky → (f d).run kx = .ok (.ok (), kx') →
        ∃ ky', (f d).run ky = .ok (.ok (), ky') ∧ R kx' ky') →
      R kx ky → (l.forM f).run kx = .ok (.ok (), kx') →
      ∃ ky', (l.forM f).run ky = .ok (.ok (), ky') ∧ R kx' ky'
  | [], kx, ky, kx', _, hR, h => by
    obtain ⟨-, rfl⟩ := Prod.mk.inj (Except.ok.inj h)
    exact ⟨ky, rfl, hR⟩
  | d :: l, kx, ky, kx', step, hR, h => by
    rw [List.forM] at h
    obtain ⟨_, kx₁, h₁, h⟩ := run_bind_eq_ok.1 h
    obtain ⟨ky₁, h₁', hR₁⟩ := step d List.mem_cons_self hR h₁
    obtain ⟨ky', h', hR'⟩ :=
      run_forM_simulate R (fun d' hd' => step d' (List.mem_cons_of_mem _ hd')) hR₁ h
    refine ⟨ky', ?_, hR'⟩
    rw [List.forM, run_bind_of_ok h₁']
    exact h'

end KernelM

section Attach

variable {kx ky kx' : Kernel}

/-- One step of the attaching loop reads and writes the buffers alone. -/
theorem attach_step_congr {b : BufferId} {l : Layout} (hb : kx.buffers = ky.buffers)
    (h : (do
        if ((← get).buffer b).layout.isNone then
          KernelM.lift (KernelM.update (·.attachLayout b l)) : KernelM LowerError Unit).run kx =
      .ok (.ok (), kx')) :
    (do
        if ((← get).buffer b).layout.isNone then
          KernelM.lift (KernelM.update (·.attachLayout b l)) : KernelM LowerError Unit).run ky =
      .ok (.ok (), { ky with buffers := kx'.buffers }) := by
  rw [KernelM.run_get_bind] at h ⊢
  have same : ky.buffer b = kx.buffer b := by simp [Kernel.buffer, Kernel.buffer?, hb]
  rw [same]
  split at h
  · rename_i hnone
    rw [if_pos hnone]
    have attached := KernelM.run_update.1 (KernelM.run_lift_eq_ok.1 h)
    exact KernelM.run_lift_eq_ok.2 (KernelM.run_update.2 (attachLayout_congr hb attached))
  · rename_i hnone
    rw [if_neg hnone]
    obtain ⟨-, rfl⟩ := Prod.mk.inj (Except.ok.inj h)
    rw [hb]
    rfl

/-- The attaching loop reads and writes the buffers alone. -/
theorem attach_loop_congr {assignment : List (BufferId × Layout)} (hb : kx.buffers = ky.buffers)
    (h : (assignment.forM fun (b, l) => do
        if ((← get).buffer b).layout.isNone then
          KernelM.lift (KernelM.update (·.attachLayout b l)) : KernelM LowerError Unit).run kx =
      .ok (.ok (), kx')) :
    ∃ ky', (assignment.forM fun (b, l) => do
        if ((← get).buffer b).layout.isNone then
          KernelM.lift (KernelM.update (·.attachLayout b l)) : KernelM LowerError Unit).run ky =
      .ok (.ok (), ky') ∧ kx'.buffers = ky'.buffers :=
  KernelM.run_forM_simulate (fun kx ky => kx.buffers = ky.buffers)
    (fun _ _ _ _ _ hR hs => ⟨_, attach_step_congr hR hs, rfl⟩) hb h

end Attach

/-! ### The assignment -/

/-- The first round of layout assignment answers: the network of the kernel has a solution as it
is, and no materializing copy is needed. -/
def Kernel.NeedsNoCopy (o : CompileOptions) (k : Kernel) : Prop :=
  ∃ a, (solveRound o k).run k = .ok (.ok (.ok a), k)

/-- A first round that answers ends the rounds, with no copy. -/
theorem solveWithCopies_of_solved {o : CompileOptions} {k : Kernel} {a : List (BufferId × Layout)}
    {budget : Nat} {copies : List OpId} (h : (solveRound o k).run k = .ok (.ok (.ok a), k)) :
    (solveWithCopies o budget copies).run k = .ok (.ok (a, copies), k) := by
  rw [solveWithCopies, KernelM.run_get_bind, KernelM.run_bind_of_ok h]
  rfl

/-- With a first round that answers, the assignment attaches that answer and reports no copy. -/
theorem assignLayouts_of_first_round {o : CompileOptions} {k : Kernel} {a : List (BufferId × Layout)}
    (h : (solveRound o k).run k = .ok (.ok (.ok a), k)) :
    (assignLayouts o).run k = ((a.forM fun (b, l) => do
        if ((← get).buffer b).layout.isNone then
          KernelM.lift (KernelM.update (·.attachLayout b l)) : KernelM LowerError Unit) >>=
      fun _ => pure []).run k := by
  rw [assignLayouts, KernelM.run_get_bind]
  dsimp only
  rw [KernelM.run_bind_of_ok (solveWithCopies_of_solved h)]

/-- **Layout assignment does not depend on the order of the live ops.** Two kernels with the same
buffers and ops, whose live ops are two orders of one list, neither needing a materializing copy,
both get their layouts with no copy (the first one assignable), and the same ones: the two runs
end on the same buffers. -/
theorem assignLayouts_order_independent {o : CompileOptions} {k₁ k₂ : Kernel} (hA : k₁.Assignable)
    (hb : k₁.buffers = k₂.buffers) (ho : k₁.ops = k₂.ops) (hp : k₁.liveOps.Perm k₂.liveOps)
    (n₁ : k₁.NeedsNoCopy o) (n₂ : k₂.NeedsNoCopy o) :
    ∃ k₁' k₂', (assignLayouts o).run k₁ = .ok (.ok [], k₁') ∧
      (assignLayouts o).run k₂ = .ok (.ok [], k₂') ∧ k₁'.buffers = k₂'.buffers := by
  obtain ⟨a₁, h₁⟩ := n₁
  obtain ⟨a₂, h₂⟩ := n₂
  -- The two first rounds search two orders of one network from the same domains.
  have same : a₂ = a₁ := by
    obtain ⟨-, D, cs₁, hD₁, hcs₁, hs₁⟩ := solveRound_ok h₁
    obtain ⟨-, D₂, cs₂, hD₂, hcs₂, hs₂⟩ := solveRound_ok h₂
    rw [← initialDomains_congr hb, hD₁] at hD₂
    obtain rfl : D = D₂ := Except.ok.inj (Except.ok.inj hD₂)
    exact (Option.some.inj (Solver.solve_perm (liveConstraints_perm hb ho hp hcs₁ hcs₂) D hs₁ hs₂)).symm
  subst a₂
  -- Both runs attach the one answer, the second to the buffers of the first.
  have solved : (solveWithCopies o k₁.liveOps.length []).run k₁ = .ok (.ok (a₁, []), k₁) :=
    solveWithCopies_of_solved h₁
  obtain ⟨k₁', run₁⟩ := assignLayouts_of_solved hA solved
  rw [assignLayouts_of_first_round h₁] at run₁
  obtain ⟨_, kx, attach₁, -⟩ := KernelM.run_bind_eq_ok.1 run₁
  obtain ⟨ky, attach₂, hb'⟩ := attach_loop_congr hb attach₁
  refine ⟨kx, ky, ?_, ?_, hb'⟩
  · rw [assignLayouts_of_first_round h₁, KernelM.run_bind_of_ok attach₁]
    rfl
  · rw [assignLayouts_of_first_round h₂, KernelM.run_bind_of_ok attach₂]
    rfl

/-- **Layouts do not depend on the order of the constraints.** The search on two orders of one
list of constraints answers alike, when every requirement answers on the initial candidates of its
buffer; so layout assignment gives the same layouts to two kernels that differ only in the order
of their live ops, when neither needs a materializing copy. -/
theorem layouts_independent_of_order (cs cs' : List Constraint) (D : Array (List Layout))
    (o : CompileOptions) (k₁ k₂ : Kernel) :
    (cs.Perm cs' → Solver.RequirementsAnswer cs (domainAt D) →
      ∃ r r', (Solver.solve cs D).run = .ok r ∧ (Solver.solve cs' D).run = .ok r' ∧
        r.toOption = r'.toOption) ∧
    (k₁.Assignable → k₁.buffers = k₂.buffers → k₁.ops = k₂.ops → k₁.liveOps.Perm k₂.liveOps →
      k₁.NeedsNoCopy o → k₂.NeedsNoCopy o →
      ∃ k₁' k₂', (assignLayouts o).run k₁ = .ok (.ok [], k₁') ∧
        (assignLayouts o).run k₂ = .ok (.ok [], k₂') ∧ k₁'.buffers = k₂'.buffers) :=
  ⟨fun hp => Solver.solve_order_independent hp, assignLayouts_order_independent⟩

/-- Two copies of one global buffer into two others. -/
def twoLoads : Kernel where
  name := "loads"
  buffers := #[{ name := "g", shape := [16], dtype := .f32, scope := .global },
    { name := "s", shape := [16], dtype := .f32, scope := .global },
    { name := "t", shape := [16], dtype := .f32, scope := .global }]
  ops := #[TileOp.copy "a" (.whole ⟨0⟩) (.whole ⟨1⟩), TileOp.copy "b" (.whole ⟨0⟩) (.whole ⟨2⟩)]
  body := [.op ⟨0⟩, .op ⟨1⟩]

theorem twoLoads_built : twoLoads.Built :=
  ⟨"loads", .head (Kernel.Call.addBuffer
      (b := { name := "g", shape := [16], dtype := .f32, scope := .global }) (by with_unfolding_all rfl)) <|
    .head (Kernel.Call.addBuffer
      (b := { name := "s", shape := [16], dtype := .f32, scope := .global }) (by with_unfolding_all rfl)) <|
    .head (Kernel.Call.addBuffer
      (b := { name := "t", shape := [16], dtype := .f32, scope := .global }) (by with_unfolding_all rfl)) <|
    .head (Kernel.Call.addOp (o := TileOp.copy "a" (.whole ⟨0⟩) (.whole ⟨1⟩)) (by with_unfolding_all rfl)) <|
    .head (Kernel.Call.addOp (o := TileOp.copy "b" (.whole ⟨0⟩) (.whole ⟨2⟩)) (by with_unfolding_all rfl)) <|
    .head (Kernel.Call.push (h := ⟨0⟩) (by with_unfolding_all rfl)) <|
    .single (Kernel.Call.push (h := ⟨1⟩) (by with_unfolding_all rfl))⟩

/-- A strip requirement and an equality, in both orders, answer alike; and the two loads, pushed
in either order, need no copy and get the same layouts. -/
theorem twoLoads_assign_alike :
    (∃ r r', (Solver.solve [.unary ⟨0⟩ ⟨0⟩ .strip, .binary ⟨1⟩ ⟨0⟩ ⟨1⟩ .equal]
        #[[.rowMajor [16, 16], .fragment ⟨.strip 1, (16, 16), (16, 16), 32⟩],
          [.fragment ⟨.strip 1, (16, 16), (16, 16), 32⟩, .rowMajor [16, 16]]]).run = .ok r ∧
      (Solver.solve [.binary ⟨1⟩ ⟨0⟩ ⟨1⟩ .equal, .unary ⟨0⟩ ⟨0⟩ .strip]
        #[[.rowMajor [16, 16], .fragment ⟨.strip 1, (16, 16), (16, 16), 32⟩],
          [.fragment ⟨.strip 1, (16, 16), (16, 16), 32⟩, .rowMajor [16, 16]]]).run = .ok r' ∧
      r.toOption = r'.toOption) ∧
    twoLoads.Assignable ∧ twoLoads.NeedsNoCopy { target := Target.sm80 } ∧
      ({ twoLoads with body := [.op ⟨1⟩, .op ⟨0⟩] } : Kernel).NeedsNoCopy { target := Target.sm80 } ∧
      ∃ k₁' k₂', (assignLayouts { target := Target.sm80 }).run twoLoads = .ok (.ok [], k₁') ∧
        (assignLayouts { target := Target.sm80 }).run { twoLoads with body := [.op ⟨1⟩, .op ⟨0⟩] } =
          .ok (.ok [], k₂') ∧ k₁'.buffers = k₂'.buffers := by
  -- Every buffer is one-dimensional: the answer is the dense layout of each.
  have n₁ : twoLoads.NeedsNoCopy { target := Target.sm80 } :=
    ⟨[(⟨0⟩, .rowMajor [16]), (⟨1⟩, .rowMajor [16]), (⟨2⟩, .rowMajor [16])], rfl⟩
  have n₂ : ({ twoLoads with body := [.op ⟨1⟩, .op ⟨0⟩] } : Kernel).NeedsNoCopy
      { target := Target.sm80 } :=
    ⟨[(⟨0⟩, .rowMajor [16]), (⟨1⟩, .rowMajor [16]), (⟨2⟩, .rowMajor [16])], rfl⟩
  exact ⟨(layouts_independent_of_order _ _ _ { target := Target.sm80 } twoLoads twoLoads).1
      (.swap _ _ _) fun op b r hm _ _ => Solver.Requirement.admits_answers (fun f hf => by simp [hf] at hm) _,
    twoLoads_built.assignable, n₁, n₂,
    (layouts_independent_of_order [] [] #[] _ _ _).2 twoLoads_built.assignable rfl rfl (by decide) n₁ n₂⟩

end TileKernel
