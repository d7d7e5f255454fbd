import TileKernel.Proofs.Failure

/-!
# A failed pipelining leaves the program intact

`pipelineLoop` checks the loop first and rewrites it after: it allocates the rings, clones the
body ops into the blocks of the expansion with their barriers, installs the expansion, and last
moves the dependents of each body op to its last clone. Rings and clones are declared after
everything there is, and each edit that follows touches only something just declared, so until
the expansion is installed the kernel only grows (`Kernel.Extends`). Installing the expansion
either fails and changes nothing, or succeeds, after which nothing fails.

`pipelineLoop_failure_intact`: a failed pipelining leaves the body, every loop, the live ops and
every buffer and op that was there as they were; a refused depth of zero or a dependency that
forbids the overlap leaves the kernel exactly as it was.
-/

set_option autoImplicit false

namespace TileKernel

open KernelM Kernel

section Stages

variable (k₀ : Kernel)

/-- A ring declares its instances and gives each the buffer's layout and swizzle. -/
theorem allocateRing_guards (logical : BufferId) (depth : Nat) :
    Guards k₀.Extends KernelError.NotLoop (allocateRing logical depth) := by
  unfold allocateRing
  refine guards_get_bind fun _ _ => (guards_mapM fun j _ => ?_).bind' fun _ => guards_pure _
  refine (guards_addBuffer _).bind (fun h => k₀.buffers.size ≤ h.idx)
    (fun _ _ _ hk h => addBuffer_fresh hk h) fun h hh => ?_
  dsimp only
  -- The layout, then the swizzle, of the buffer go to the instance just declared.
  split
  · refine (guards_attachLayout hh _).bind' fun _ => ?_
    split
    · exact (guards_attachSwizzle hh _).bind' fun _ => guards_pure _
    · exact guards_pure _
  · split
    · exact (guards_attachSwizzle hh _).bind' fun _ => guards_pure _
    · exact guards_pure _

/-- A slot declares one clone per entry and edits only that clone. -/
theorem cloneSlot_guards (body : List OpId) (staged : List BufferId)
    (entries : List (OpId × Stage)) (phase : Phase) (iteration : IterRef) (after : Option OpId) :
    Guards k₀.Extends KernelError.NotLoop (cloneSlot body staged entries phase iteration after) := by
  unfold cloneSlot
  refine guards_foldlM fun made e _ => ?_
  obtain ⟨original, stage⟩ := e
  refine guards_get_bind fun _ _ => guards_get_bind fun _ _ => ?_
  refine (guards_addOp _).bind (fun h => k₀.ops.size ≤ h.idx)
    (fun _ _ _ hk h => addOp_fresh hk h) fun h hh => ?_
  -- The schedule and every dependency go to the clone just declared.
  refine (guards_setSched hh _).bind' fun _ => (guards_forM fun dep _ => ?_).bind' fun _ => ?_
  · split
    · exact guards_addDependency hh _
    · split
      · exact guards_addDependency hh _
      · exact guards_pure _
  · dsimp only
    split
    · exact (guards_addDependency hh _).bind' fun _ => guards_pure _
    · exact guards_pure _

/-- A barrier is a fresh op that gets its schedule and dependencies. -/
theorem addBarrier_guards (kind : BarrierKind) (phase : Phase) (after : List OpId) :
    Guards k₀.Extends KernelError.NotLoop (addBarrier kind phase after) := by
  unfold addBarrier
  refine (guards_addOp _).bind (fun h => k₀.ops.size ≤ h.idx)
    (fun _ _ _ hk h => addOp_fresh hk h) fun h hh => ?_
  exact (guards_setSched hh _).bind' fun _ =>
    (guards_forM fun a _ => guards_addDependency hh a).bind' fun _ => guards_pure _

end Stages

/-- A pipelining fails in its checks, and changes nothing, or in its rewrite, with a kernel
failure that is no malformed loop but a refused expansion, and only adds to the kernel. -/
theorem pipelineLoop_fails {k k' : Kernel} {l : LoopId} {depth : Nat} {e : LowerError}
    (h : (pipelineLoop l depth).run k = .ok (.error e, k')) :
    k' = k ∨ k.Extends k' ∧ ∃ e', e = .kernel e' ∧ e'.ExpansionRefused := by
  unfold pipelineLoop at h
  rw [run_get_bind] at h
  rcases KernelM.run_bind_eq_error.1 h with h | ⟨lp, k₁, hlp, h⟩
  · rw [run_liftM] at h
    split at h <;> cases h
  rw [(run_liftM_entry hlp).2.1] at h
  extract_lets body entries finish ahead loads computes trips rewrite checked at h
  -- Installing the expansion fails before it changes anything, and what follows cannot fail.
  have finish_fails : ∀ p, FailureGuards k.Extends KernelError.ExpansionRefused (finish p) := by
    rintro ⟨expansion, pairs⟩
    refine (failureGuards_update fun _ _ => setExpansion_fails l expansion).bind_of_never
      fun _ => forM_never fun original _ => ?_
    -- Moving the dependents of an op to its clone is a plain edit of the kernel.
    split <;> intro _ _ _ h <;> cases h
  have rewrite_fails : ∀ staged,
      FailureGuards k.Extends (fun e => ∃ e', e = .kernel e' ∧ e'.ExpansionRefused)
        (rewrite staged) := by
    intro staged
    have ring := fun b => (allocateRing_guards k b depth).mono KernelError.expansionRefused_of_notLoop
    have slot := fun entries phase iteration after =>
      (cloneSlot_guards k body staged entries phase iteration after).mono
        KernelError.expansionRefused_of_notLoop
    have barrier := fun kind phase after =>
      (addBarrier_guards k kind phase after).mono KernelError.expansionRefused_of_notLoop
    simp only [rewrite]
    refine FailureGuards.lift (FailureGuards.bind' (guards_mapM fun b _ => ring b) fun rings => ?_)
    split
    · exact FailureGuards.bind' (slot _ _ _ _) fun made =>
        FailureGuards.bind' (guards_pure _) fun _ => finish_fails _
    · refine FailureGuards.bind' (guards_mapM fun t _ => slot _ _ _ _) fun prologue => ?_
      refine FailureGuards.bind' (slot _ _ _ _) fun issued => ?_
      refine FailureGuards.bind' (barrier _ _ _) fun wait => ?_
      refine FailureGuards.bind' (slot _ _ _ _) fun computed => ?_
      refine FailureGuards.bind' (barrier _ _ _) fun sync => ?_
      refine FailureGuards.bind' (guards_mapM fun t _ => ?_) fun epilogue => ?_
      · exact (barrier _ _ _).bind' fun w => (slot _ _ _ _).bind' fun made => guards_pure _
      · exact FailureGuards.bind' (guards_pure _) fun _ => finish_fails _
  split at h
  · -- A depth of zero is refused first.
    rw [run_throw_bind] at h
    exact .inl (Prod.mk.inj (Except.ok.inj h)).2.symm
  simp only [checked] at h
  split at h
  · split at h
    · rw [pure_bind] at h
      exact .inr (rewrite_fails _ k e k' (.refl k) h)
    · rw [run_throw_bind] at h
      exact .inl (Prod.mk.inj (Except.ok.inj h)).2.symm
  · rw [pure_bind] at h
    exact .inr (rewrite_fails _ k e k' (.refl k) h)

/-- A failed pipelining leaves the program intact: the body, every loop with its expansion, the
live ops and every buffer and op there was are as they were. A refused depth of zero or a
dependency that forbids the overlap leaves the kernel exactly as it was. -/
theorem pipelineLoop_failure_intact {k k' : Kernel} {l : LoopId} {depth : Nat} {e : LowerError}
    (h : (pipelineLoop l depth).run k = .ok (.error e, k')) :
    k.Extends k' ∧ k'.liveOps = k.liveOps ∧
      ((∃ n d op b r, e = .pipelineDependency n d op b r) ∨
        (∃ n, e = .kernel (.invalidLoop n "pipeline depth must be at least 1")) → k' = k) := by
  rcases pipelineLoop_fails h with rfl | ⟨grows, e', rfl, refused⟩
  · exact ⟨.refl k', rfl, fun _ => rfl⟩
  · refine ⟨grows, grows.liveOps, ?_⟩
    -- The rewrite fails with a kernel failure, and its one loop failure has another reason.
    rintro (⟨n, d, op, b, r, he⟩ | ⟨n, he⟩)
    · cases he
    · cases he
      exact absurd (refused n _ rfl) (by decide)

/-- `stagedCast` with a buffer named like the second instance of the ring of its staged buffer. -/
def clashingStage : Kernel :=
  { stagedCast with
    buffers := stagedCast.buffers.push
      { name := "s_stage2", shape := [2, 2], dtype := Scalar.f32, scope := .shared } }

/-- Pipelining `clashingStage` three deep declares the first instance of the ring, then fails on
the name of the second: the kernel has grown, and the program it had is intact. -/
theorem clashingStage_failure_intact : ∃ e k',
    (pipelineLoop ⟨0⟩ 3).run clashingStage = .ok (.error e, k') ∧ clashingStage.Extends k' ∧
      k'.liveOps = clashingStage.liveOps ∧ k' ≠ clashingStage := by
  have fails : ((pipelineLoop ⟨0⟩ 3).run clashingStage).toOption.map
      (fun r => (r.1.toBool, r.2.buffers.size)) = some (false, 5) := by
    unfold pipelineLoop
    simp only [Kernel.sortedIds_eq_insertionSort]
    decide +kernel
  rcases run : (pipelineLoop ⟨0⟩ 3).run clashingStage with fault | ⟨_ | _, k'⟩
  · simp [run, Except.toOption, Except.toBool] at fails
  · obtain ⟨grows, live, -⟩ := pipelineLoop_failure_intact run
    have declared : k'.buffers.size = 5 := by
      simpa [run, Except.toOption, Except.toBool] using fails
    refine ⟨_, k', rfl, grows, live, fun same => ?_⟩
    rw [same] at declared
    exact absurd declared (by decide)
  · simp [run, Except.toOption, Except.toBool] at fails

end TileKernel
