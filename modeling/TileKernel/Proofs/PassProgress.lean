import TileKernel.Proofs.Passes
import TileKernel.Proofs.Granularity
import TileKernel.Proofs.ExplicitConversions
import TileKernel.Proofs.PipelineProgress

/-!
# The standard passes succeed

On a sound kernel in which no op converts an input implicitly, the standard passes of a target
whose vector and atomic budgets stay below `2 ^ 31` bytes run to the end
(`runPasses_standard_runs`). Store granularity computes every legal chunk, since a chunk is
doubled only while it fits the budget (`legalVector_ok`), and replaces live ops by ops that pass
the checks their originals passed and convert what they converted. Type decoupling then finds
nothing to convert and changes nothing, and every round of simplification succeeds on a formed
kernel (`simplify_round`).

The passes end on a sound kernel over the same buffers, and keep of every loop its name, its trip
count and the depth, steady trips and rings of its expansion (`Kernel.LoopsKept`): their edits
change only which ops the blocks list.
-/

set_option autoImplicit false

namespace TileKernel

/-! ### What the passes keep of the loops -/

/-- What the rewrite passes keep of a loop: its name, its trip count, and the depth, steady trips
and rings of its expansion. -/
def LoopNest.header (n : LoopNest) : String × Nat × Option (Nat × Nat × List Ring) :=
  (n.name, n.extent, n.expansion.map fun p => (p.depth, p.steadyTrips, p.rings))

namespace Kernel

variable {k k' : Kernel}

/-- `k'` has the loops of `k`, up to the ops their blocks list. -/
def LoopsKept (k k' : Kernel) : Prop := k'.loops.map LoopNest.header = k.loops.map LoopNest.header

theorem loopsKept_of_loops (h : k'.loops = k.loops) : k.LoopsKept k' := by
  rw [LoopsKept, h]

theorem LoopsKept.trans {k₁ k₂ k₃ : Kernel} (h₁ : k₁.LoopsKept k₂) (h₂ : k₂.LoopsKept k₃) :
    k₁.LoopsKept k₃ :=
  Eq.trans h₂ h₁

/-- Editing the loop records in a way that keeps their headers keeps the loops. -/
theorem loopsKept_modifyLoop {l : LoopId} {f : LoopNest → LoopNest}
    (hf : ∀ n, (f n).header = n.header) : k.LoopsKept (k.modifyLoop l f) := by
  unfold LoopsKept modifyLoop
  refine Array.ext (by simp) fun i h₁ h₂ => ?_
  simp only [Array.getElem_map, Array.getElem_modify]
  split <;> simp [hf]

/-- Editing the op list of one block keeps the loops. -/
theorem loopsKept_modifyBlock {b : Block} {f : List OpId → List OpId}
    {g : List Stmt → List Stmt} : k.LoopsKept (k.modifyBlock b f g) := by
  cases b with
  | body => exact loopsKept_of_loops rfl
  | loop l => exact loopsKept_modifyLoop fun _ => rfl
  | prologue l | steady l | epilogue l =>
    exact loopsKept_modifyLoop fun n => by rcases n with ⟨name, extent, depth, body, _ | p⟩ <;> rfl

/-- No edit of the passes changes a loop's header. -/
theorem loopsKept_edits : EditsKeep LoopsKept where
  refl _ := rfl
  trans := LoopsKept.trans
  replaceOp h := by
    obtain ⟨b, -, -, -, -, rfl⟩ := replaceOp_eq h
    show LoopsKept _ (Kernel.modifyBlock _ _ _ _)
    refine LoopsKept.trans ?_ loopsKept_modifyBlock
    exact loopsKept_of_loops redirectDependents_frame.2.1
  insertBefore h := by
    obtain ⟨b, -, -, -, -, rfl⟩ := insertBefore_eq h
    exact loopsKept_modifyBlock
  removeOp h := by
    obtain ⟨b, -, -, rfl⟩ := removeOp_eq h
    show LoopsKept _ (Kernel.modifyBlock _ _ _ _)
    refine LoopsKept.trans ?_ loopsKept_modifyBlock
    exact loopsKept_of_loops bypass_frame.2.1
  addDependency h := by
    obtain ⟨-, -, rfl⟩ := addDependency_ok h
    exact loopsKept_of_loops rfl
  addBuffer _ h := by
    obtain ⟨-, -, -, rfl⟩ := addBuffer_eq_ok.1 h
    exact loopsKept_of_loops rfl
  attachLayout h := by
    obtain ⟨-, rfl⟩ := attachLayout_ok h
    exact loopsKept_of_loops rfl

end Kernel

/-! ### Store granularity -/

section Granularity

variable {t : Target} {k k' : Kernel}

/-- A budget of a target whose vector and atomic budgets stay below `2 ^ 31`. -/
theorem chunkBudget_lt (hv : t.vectorBytes < 2 ^ 31) (ha : t.atomicBytes < 2 ^ 31) {kind : OpKind}
    {b : Nat} (h : t.chunkBudget kind = some b) : b < 2 ^ 31 := by
  cases kind <;> simp only [Target.chunkBudget, Option.some.injEq, reduceCtorEq] at h <;> omega

/-- **The legal chunk computes** when the target's budgets stay below `2 ^ 31`: the doubling stops
within the budget before it could overflow. -/
theorem legalVector_ok (hv : t.vectorBytes < 2 ^ 31) (ha : t.atomicBytes < 2 ^ 31) (k : Kernel)
    (op : TileOp) : ∃ v, legalVector t k op = .ok v := by
  unfold legalVector
  simp only [bind, Except.bind, pure, Except.pure]
  split
  · rename_i b hbudget
    have hb : t.chunkBudget op.kind = some b := by
      rw [← hbudget]
      generalize op.kind = kind
      cases kind <;> rfl
    have hsmall := chunkBudget_lt hv ha hb
    split
    · exact ⟨_, rfl⟩
    · rcases widestChunk_answers ((op.operands.map (sideLimit k)).foldl (fun c s => min c s.cap)
          (max (b / max ((op.operands.map fun o => (k.buffer o.buffer).dtype.bytes).foldl max 1) 1) 1))
          ((op.operands.map (sideLimit k)).filterMap (·.extent)) with ⟨hfits, -⟩ | ⟨-, w, hw, -⟩
      · -- Doubling past `2 ^ 31` needs a cap of at least `2 ^ 31`, above every budget.
        have hcap := (Kernel.le_foldl_min_iff.1 ((le_max_iff.1 hfits.1).resolve_left (by decide))).1
        have hdiv := Nat.div_le_self b (max ((op.operands.map fun o =>
          (k.buffer o.buffer).dtype.bytes).foldl max 1) 1)
        omega
      · rw [hw]
        exact ⟨_, rfl⟩
  · exact ⟨_, rfl⟩

/-- Recording a chunk keeps what the operand checks read. -/
theorem checkOperands_withVector (op : TileOp) (v : Nat) :
    k.checkOperands { op.detached with kind := op.kind.withVector v } = k.checkOperands op := by
  obtain ⟨name, kind, inputs, outputs, deps, sched⟩ := op
  -- The checks of a copy or an atomic match on one input and one output, and read no chunk.
  cases kind
  case copy | atomic =>
    rcases inputs with _ | ⟨a, _ | ⟨b, inputs⟩⟩ <;> rcases outputs with _ | ⟨x, _ | ⟨y, outputs⟩⟩ <;> rfl
  all_goals rfl

/-- Recording a chunk keeps the conversions of an op. -/
theorem conversions_withVector (op : TileOp) (v : Nat) :
    conversions k { op.detached with kind := op.kind.withVector v } = conversions k op := by
  obtain ⟨name, kind, inputs, outputs, deps, sched⟩ := op
  cases kind <;> rfl

theorem conversions_of_buffers (hb : k'.buffers = k.buffers) (op : TileOp) :
    conversions k' op = conversions k op :=
  conversions_congr fun o _ => by simp only [Kernel.buffer, Kernel.buffer?, hb]

/-- No op of the arena converts an input implicitly. -/
def Kernel.ConvertsNothing (k : Kernel) : Prop :=
  ∀ x : OpId, x.idx < k.ops.size → conversions k (k.op x) = []

/-- Replacing an op by one that converts nothing keeps a kernel converting nothing. -/
theorem Kernel.ConvertsNothing.replaceOp (hc : k.ConvertsNothing) {old y : OpId} {o : TileOp}
    (ho : conversions k o = []) (h : k.replaceOp old o = .ok (y, k')) : k'.ConvertsNothing := by
  intro x hx
  have hb := Kernel.replaceOp_buffers h
  obtain ⟨rfl, hnew, hsize⟩ := replaceOp_detached h
  rw [← conversions_detached, conversions_of_buffers hb]
  by_cases hold : x.idx < k.ops.size
  · rw [(replaceOp_alike h).detached x hold, conversions_detached]
    exact hc x hold
  · obtain rfl := OpId.eq_of_idx (Nat.le_of_not_lt hold) (hsize ▸ hx)
    rw [hnew, conversions_detached]
    exact ho

/-- The loop of store granularity, for a step that keeps the kernel or replaces the op by one
recording a chunk: from a formed kernel it succeeds, and keeps the kernel formed, its buffers, and
an arena that converts nothing. The induction runs on the live ops left, those before them
replaced or left alone. -/
theorem granularity_runs {f : Bool → OpId → KernelM KernelError Bool}
    (hf : ∀ c kx x, kx.Formed → x ∈ kx.liveOps → ∃ c' kx', (f c x).run kx = .ok (.ok c', kx') ∧
      (kx' = kx ∨ ∃ L y, kx.replaceOp x
        { (kx.op x).detached with kind := (kx.op x).kind.withVector L } = .ok (y, kx'))) :
    ∀ (rest N : List OpId) (c : Bool) {kx : Kernel}, kx.Formed → kx.liveOps = N ++ rest →
      ∃ c' k', (rest.foldlM f c).run kx = .ok (.ok c', k') ∧ k'.Formed ∧ k'.buffers = kx.buffers ∧
        (kx.ConvertsNothing → k'.ConvertsNothing)
  | [], _, c, kx, hF, _ => ⟨c, kx, rfl, hF, rfl, id⟩
  | x :: rest, N, c, kx, hF, hl => by
    have hx : x ∈ kx.liveOps := by simp [hl]
    obtain ⟨c₁, k₁, h₁, hk₁⟩ := hf c kx x hF hx
    rw [List.foldlM_cons, KernelM.run_bind_of_ok h₁]
    rcases hk₁ with rfl | ⟨L, y, hr⟩
    · exact granularity_runs hf rest (N ++ [x]) c₁ hF (by simp [hl])
    · obtain ⟨hl₁, -, -⟩ := Kernel.replaceOp_at hF hl hr
      obtain ⟨c', k', hrun, hF', hb', hc'⟩ :=
        granularity_runs hf rest (N ++ [y]) c₁ (hF.replaceOp hr) (by simp [hl₁])
      refine ⟨c', k', hrun, hF', hb'.trans (Kernel.replaceOp_buffers hr), fun hc => hc' ?_⟩
      -- The replacement converts what the op converted: nothing.
      refine hc.replaceOp ?_ hr
      rw [conversions_withVector]
      exact hc x (hF.live_lt hx)

/-- **Store granularity succeeds** on a formed kernel when the target's budgets stay below
`2 ^ 31`, and keeps the kernel formed, its buffers, and an arena that converts nothing. -/
theorem storeGranularity_runs (hv : t.vectorBytes < 2 ^ 31) (ha : t.atomicBytes < 2 ^ 31)
    (hF : k.Formed) :
    ∃ c k', (storeGranularity t).run k = .ok (.ok c, k') ∧ k'.Formed ∧ k'.buffers = k.buffers ∧
      (k.ConvertsNothing → k'.ConvertsNothing) := by
  unfold storeGranularity
  rw [KernelM.run_get_bind]
  refine granularity_runs (fun c kx x hFx hx => ?_) k.liveOps [] false hF rfl
  -- A step computes the legal chunk, then keeps the op or replaces it: it is live, and its
  -- replacement passes the checks it passed.
  dsimp only
  rw [KernelM.run_get_bind, KernelM.run_bind, KernelM.run_liftM]
  obtain ⟨v, hlegal⟩ := legalVector_ok hv ha kx (kx.op x)
  rw [hlegal]
  rcases v with _ | L
  · exact ⟨c, kx, rfl, .inl rfl⟩
  · dsimp only
    split
    · exact ⟨c, kx, rfl, .inl rfl⟩
    · obtain ⟨y, k₁, hr⟩ := Kernel.replaceOp_live hFx hx
        (o := { (kx.op x).detached with kind := (kx.op x).kind.withVector L })
        (by rw [checkOperands_withVector]; exact hFx.operandsChecked x (hFx.live_lt hx))
      exact ⟨true, k₁, by rw [KernelM.run_bind_of_ok (KernelM.run_edit.2 hr)]; rfl, .inr ⟨L, y, hr⟩⟩

end Granularity

/-! ### The standard passes -/

section Standard

variable {k k' : Kernel}

/-- Rounds of a pass succeed from every kernel an invariant allows, when one round does and
keeps the invariant. -/
theorem Pass.repeatRounds_runs (p : Pass) (I : Kernel → Prop)
    (step : ∀ kx, I kx → ∃ c ky, p.run.run kx = .ok (.ok c, ky) ∧ I ky) :
    ∀ (n : Nat) {kx : Kernel}, I kx → ∃ c ky, (p.repeatRounds n).run kx = .ok (.ok c, ky) ∧ I ky
  | 0, kx, hk => ⟨false, kx, rfl, hk⟩
  | n + 1, kx, hk => by
    obtain ⟨c, k₁, h₁, hk₁⟩ := step kx hk
    rw [Pass.repeatRounds, KernelM.run_bind_of_ok h₁]
    cases c with
    | false => exact ⟨false, k₁, rfl, hk₁⟩
    | true =>
      obtain ⟨c', k₂, h₂, hk₂⟩ := Pass.repeatRounds_runs p I step n hk₁
      exact ⟨true, k₂, by rw [if_pos rfl, KernelM.run_bind_of_ok h₂]; rfl, hk₂⟩

/-- Every run of the passes keeps a kernel sound. -/
theorem runPasses_keeps_sound {ps : List Pass} {c : Bool} (hs : k.Sound)
    (h : (runPasses ps).run k = .ok (.ok c, k')) : k'.Sound := by
  have rounds : ∀ (p : Pass) (n : Nat) {c : Bool} {kx ky : Kernel}, kx.Sound →
      (p.repeatRounds n).run kx = .ok (.ok c, ky) → ky.Sound := by
    intro p n
    induction n with
    | zero =>
      intro c kx ky hs h
      obtain ⟨-, rfl⟩ := Prod.mk.inj (Except.ok.inj h)
      exact hs
    | succ n ih =>
      intro c kx ky hs h
      rw [Pass.repeatRounds] at h
      obtain ⟨changed, k₁, h₁, h⟩ := KernelM.run_bind_eq_ok.1 h
      have hs₁ := Pass.run_keeps_sound hs h₁
      split at h
      · obtain ⟨_, k₂, h₂, h⟩ := KernelM.run_bind_eq_ok.1 h
        obtain ⟨-, rfl⟩ := Prod.mk.inj (Except.ok.inj h)
        exact ih hs₁ h₂
      · obtain ⟨-, rfl⟩ := Prod.mk.inj (Except.ok.inj h)
        exact hs₁
  unfold runPasses at h
  refine KernelM.run_foldlM_ok (fun _ _ kx => kx.Sound) [] (fun p _ _ _ _ _ _ hs₁ hp => ?_) hs h
  obtain ⟨_, k₂, h₂, hp⟩ := KernelM.run_bind_eq_ok.1 hp
  obtain ⟨-, rfl⟩ := Prod.mk.inj (Except.ok.inj hp)
  exact rounds p _ hs₁ h₂

/-- **The standard passes succeed** on a sound kernel that converts nothing and whose types can
all be cast to, for a target whose budgets stay below `2 ^ 31`: they end on a sound kernel over the
same buffers, with the loops' headers as they were. -/
theorem runPasses_standard_runs {t : Target} (hv : t.vectorBytes < 2 ^ 31)
    (ha : t.atomicBytes < 2 ^ 31) (hs : k.Sound) (hc : k.ConvertsNothing) (hcast : k.Castable) :
    ∃ c k', (runPasses (Pass.standard t)).run k = .ok (.ok c, k') ∧ k'.Sound ∧
      k'.buffers = k.buffers ∧ k.LoopsKept k' := by
  -- Each pass, round after round, keeps the kernel formed over the same buffers; store
  -- granularity also keeps an arena that converts nothing, and type decoupling then changes
  -- nothing.
  obtain ⟨c₁, k₁, h₁, ⟨hF₁, hb₁⟩, hc₁⟩ : ∃ c k₁,
      ((Pass.storeGranularity t).repeatRounds 1).run k = .ok (.ok c, k₁) ∧
        (k₁.Formed ∧ k₁.buffers = k.buffers) ∧ k₁.ConvertsNothing := by
    obtain ⟨c, k₁, h₁, ⟨hF₁, hb₁⟩, hc₁⟩ := Pass.repeatRounds_runs (.storeGranularity t)
      (fun kx => (kx.Formed ∧ kx.buffers = k.buffers) ∧ kx.ConvertsNothing)
      (fun kx hk => by
        obtain ⟨⟨hF, hb⟩, hc⟩ := hk
        obtain ⟨c, ky, h, hF', hb', hc'⟩ := storeGranularity_runs hv ha hF
        exact ⟨c, ky, h, ⟨hF', hb'.trans hb⟩, hc' hc⟩) 1 ⟨⟨hs.toFormed, rfl⟩, hc⟩
    exact ⟨c, k₁, h₁, ⟨hF₁, hb₁⟩, hc₁⟩
  have h₂ : (Pass.typeDecoupling.repeatRounds 1).run k₁ = .ok (.ok false, k₁) := by
    rw [Pass.repeatRounds, Pass.run, KernelM.run_bind_of_ok
      (Kernel.typeDecoupling_of_converted fun y hy => hc₁ y (hF₁.live_lt hy))]
    rfl
  obtain ⟨c₃, k₃, h₃, hF₃, hb₃⟩ := Pass.repeatRounds_runs .simplify
    (fun kx => kx.Formed ∧ kx.buffers = k.buffers)
    (fun kx hk => by
      obtain ⟨hF, hb⟩ := hk
      obtain ⟨c, ky, h, hF', hb', -⟩ := Kernel.simplify_round hF (hcast.of_buffers hb)
      exact ⟨c, ky, h, hF', hb'.trans hb⟩) 10 ⟨hF₁, hb₁⟩
  have hrun : (runPasses (Pass.standard t)).run k = .ok (.ok (false || c₁ || false || c₃), k₃) := by
    unfold runPasses Pass.standard
    simp only [List.foldlM_cons, List.foldlM_nil, Pass.rounds]
    rw [KernelM.run_bind_of_ok (KernelM.run_bind_of_ok h₁), KernelM.run_bind_of_ok
      (KernelM.run_bind_of_ok h₂), KernelM.run_bind_of_ok (KernelM.run_bind_of_ok h₃)]
    rfl
  exact ⟨_, k₃, hrun, runPasses_keeps_sound hs hrun, hb₃,
    Kernel.loopsKept_edits.of_runPasses hrun⟩

end Standard

end TileKernel
