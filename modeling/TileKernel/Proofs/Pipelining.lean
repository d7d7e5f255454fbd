import TileKernel.Proofs.Edits
import TileKernel.Proofs.Propagation
import TileKernel.Proofs.Barriers
import TileKernel.Lowering.Pipeline
import Mathlib.Data.List.Forall2
import Mathlib.Data.List.Sort

/-!
# The barriers of a pipelined loop

`pipelineLoop` rewrites a loop of extent `n` at depth `d > 1` into a prologue, a steady block and
an epilogue of fresh clones and barriers. Read as events (`Kernel.event`), a load-stage clone
loads its source iteration, a barrier waits, and any other clone computes its source iteration;
the expansion then runs (`Expansion.events`: the prologue once, the steady block `steadyTrips`
times with counter `i`, the epilogue once) exactly the `schedule` of the barrier semantics, with
a slot of `L > 0` loads for each iteration, `d - 1` iterations loaded ahead and `n - (d - 1)`
steady trips (`pipelineLoop_events`).

Hence `pipelineLoop_barriers`: every run of the expansion is `Run.Safe` for the loop's `n`
iterations at depth `d`. Each computation of iteration `t` starts after the copy group of `t` has
completed, and a load of iteration `t + d` or later, which refills the ring instance of `t`,
starts only after every computation of `t` has finished.

Every clone and barrier is a fresh op whose kind and schedule are fixed when it is made; the
later edits of the rewrite only add ops, buffers and dependencies (`Kernel.Retains`).
-/

set_option autoImplicit false

namespace TileKernel

/-! ### Events of an expansion -/

/-- The source iteration a reference names at steady counter `i`. -/
def IterRef.source : IterRef → Nat → Nat
  | .absolute n, _ => n
  | .relative k, i => i + k

/-- What an op of kind `kind` does for iteration `t` when it does not load: a barrier waits,
anything else computes. -/
def Event.ofKind : OpKind → Nat → Event
  | .barrier .sync, _ => .sync
  | .barrier (.asyncWait p), _ => .wait p
  | _, t => .compute t

theorem Event.ofKind_computesAt (kind : OpKind) (t : Nat) : (Event.ofKind kind t).ComputesAt t := by
  unfold Event.ofKind
  split
  · exact .inr trivial
  · exact .inr trivial
  · exact .inl rfl

/-- The event op `h` is when the steady block runs with counter `i`: an op of the load stage
loads its source iteration, any other does what its kind does for its source iteration. -/
def Kernel.event (k : Kernel) (h : OpId) (i : Nat) : Event :=
  match (k.op h).sched with
  | some info =>
    if info.stage = loadStage then .load (info.iteration.source i)
    else .ofKind (k.op h).kind (info.iteration.source i)
  | none => .ofKind (k.op h).kind i

/-- The events of a pipelined loop: its prologue once, its steady block `steadyTrips` times with
counter `i`, its epilogue once. -/
def Expansion.events (p : Expansion) (k : Kernel) : List Event :=
  p.prologue.map (k.event · 0) ++
    (List.range p.steadyTrips).flatMap (fun i => p.steady.map (k.event · i)) ++
    p.epilogue.map (k.event · 0)

section Events

variable {k : Kernel} {h : OpId} {i : Nat} {info : SchedInfo}

theorem event_of_load (hs : (k.op h).sched = some info) (hl : info.stage = loadStage) :
    k.event h i = .load (info.iteration.source i) := by
  simp [Kernel.event, hs, hl]

theorem event_of_compute (hs : (k.op h).sched = some info) (hc : info.stage = computeStage) :
    k.event h i = .ofKind (k.op h).kind (info.iteration.source i) := by
  simp [Kernel.event, hs, hc, loadStage, computeStage]

end Events

/-! ### Edits that keep every op -/

/-- What an edit keeps of the arenas: they only grow, every op keeps its kind and its schedule,
and every buffer stays as it was. -/
structure Kernel.Retains (k k' : Kernel) : Prop where
  size : k.ops.size ≤ k'.ops.size
  kind : ∀ x, x.idx < k.ops.size → (k'.op x).kind = (k.op x).kind
  sched : ∀ x, x.idx < k.ops.size → (k'.op x).sched = (k.op x).sched
  loops : k.loops.size ≤ k'.loops.size
  buffers : k.buffers.size ≤ k'.buffers.size
  buffer : ∀ b, b.idx < k.buffers.size → k'.buffer b = k.buffer b

namespace Kernel

variable {k k' k'' : Kernel}

theorem Retains.refl (k : Kernel) : k.Retains k :=
  ⟨Nat.le_refl _, fun _ _ => rfl, fun _ _ => rfl, Nat.le_refl _, Nat.le_refl _, fun _ _ => rfl⟩

theorem Retains.trans (h₁ : k.Retains k') (h₂ : k'.Retains k'') : k.Retains k'' where
  size := Nat.le_trans h₁.size h₂.size
  kind x hx := (h₂.kind x (Nat.lt_of_lt_of_le hx h₁.size)).trans (h₁.kind x hx)
  sched x hx := (h₂.sched x (Nat.lt_of_lt_of_le hx h₁.size)).trans (h₁.sched x hx)
  loops := Nat.le_trans h₁.loops h₂.loops
  buffers := Nat.le_trans h₁.buffers h₂.buffers
  buffer b hb := (h₂.buffer b (Nat.lt_of_lt_of_le hb h₁.buffers)).trans (h₁.buffer b hb)

/-- Declaring buffers after the existing ones keeps everything. -/
theorem retains_appendBuffers (bs : Array Buffer) : k.Retains { k with buffers := k.buffers ++ bs } :=
  ⟨Nat.le_refl _, fun _ _ => rfl, fun _ _ => rfl, Nat.le_refl _, by simp,
    fun _ hb => by simp [Kernel.buffer, buffer?, Array.getElem?_append_left hb]⟩

theorem op_modifyOp {x y : OpId} {f : TileOp → TileOp} (hx : x.idx < k.ops.size) :
    (k.modifyOp x f).op y = if x = y then f (k.op y) else k.op y := by
  obtain ⟨i⟩ := x
  obtain ⟨j⟩ := y
  by_cases hij : i = j
  · subst hij
    simp [Kernel.op, op?, modifyOp, Array.getElem?_modify, Array.getElem?_eq_getElem hx]
  · simp [Kernel.op, op?, modifyOp, Array.getElem?_modify, hij]

theorem retains_modifyOp {x : OpId} {f : TileOp → TileOp}
    (hf : ∀ o, (f o).kind = o.kind ∧ (f o).sched = o.sched) : k.Retains (k.modifyOp x f) := by
  refine ⟨by simp [modifyOp], fun y _ => ?_, fun y _ => ?_, Nat.le_refl _, Nat.le_refl _,
    fun _ _ => rfl⟩
  all_goals
    simp only [Kernel.op, op?, modifyOp, Array.getElem?_modify]
    split_ifs
    · cases k.ops[y.idx]? <;> simp [hf]
    · rfl

theorem retains_addDependency {h on : OpId} (hd : k.addDependency h on = .ok k') :
    k.Retains k' := by
  unfold addDependency at hd
  rcases hh : k.checkOp h with e | o
  · simp [hh, bind, Except.bind] at hd
  rcases hon : k.checkOp on with e | p
  · simp [hh, hon, bind, Except.bind] at hd
  by_cases hc : k.dependsOn on h = true
  · simp [hh, hon, hc, bind, Except.bind, throw, throwThe, MonadExceptOf.throw] at hd
  · simp only [hh, hon, hc, bind, Except.bind, Bool.false_eq_true, if_false] at hd
    obtain rfl := Except.ok.inj hd
    exact retains_modifyOp fun _ => ⟨rfl, rfl⟩

theorem retains_redirectDependents {src dst : OpId} : k.Retains (k.redirectDependents src dst) := by
  unfold redirectDependents
  -- Each step leaves the kernel or changes one op's dependencies.
  induction k.dependents src generalizing k with
  | nil => exact Retains.refl k
  | cons d ds ih =>
    rw [List.foldl_cons]
    split_ifs
    · exact ih
    · have step : k.Retains (k.modifyOp d fun o =>
          { o with deps := dst.insertSorted (o.deps.erase src) }) :=
        retains_modifyOp fun _ => ⟨rfl, rfl⟩
      exact step.trans ih

theorem setSched_ok {x : OpId} {info : SchedInfo} (h : k.setSched x info = .ok k') :
    x.idx < k.ops.size ∧ k' = k.modifyOp x ({ · with sched := some info }) := by
  unfold setSched at h
  rcases hx : k.checkOp x with e | o
  · simp [hx, bind, Except.bind] at h
  simp only [hx, bind, Except.bind] at h
  split at h
  · cases h
  · exact ⟨lt_of_checkOp hx, (Except.ok.inj h).symm⟩

/-- A fresh op with a schedule, as `addOp` then `setSched` make it. -/
theorem addOp_setSched {o : TileOp} {x : OpId} {k₁ : Kernel} {info : SchedInfo}
    (hadd : k.addOp o = .ok (x, k₁)) (hs : k₁.setSched x info = .ok k') :
    k.Retains k' ∧ x.idx < k'.ops.size ∧ (k'.op x).kind = o.kind ∧
      (k'.op x).sched = some info := by
  obtain ⟨rfl, rfl⟩ := addOp_ok hadd
  obtain ⟨hx, rfl⟩ := setSched_ok hs
  have fresh : ∀ y : OpId, y.idx < k.ops.size → (⟨k.ops.size⟩ : OpId) ≠ y :=
    fun y hy he => by rw [← he] at hy; exact Nat.lt_irrefl _ hy
  refine ⟨⟨by simp [modifyOp], fun y hy => ?_, fun y hy => ?_, Nat.le_refl _, Nat.le_refl _,
    fun _ _ => rfl⟩,
    by simp [modifyOp], ?_, ?_⟩
  · rw [op_modifyOp hx, if_neg (fresh y hy), op_push hy]
  · rw [op_modifyOp hx, if_neg (fresh y hy), op_push hy]
  · rw [op_modifyOp hx, if_pos rfl, op_push_self]
  · rw [op_modifyOp hx, if_pos rfl]

/-- Looking a loop handle up in the arena succeeds only inside it, and reads the loop. -/
theorem entry_loops_ok {l : LoopId} {lp : LoopNest} (h : Checked.entry k.loops l.idx = .ok lp) :
    k.loop l = lp ∧ l.idx < k.loops.size := by
  unfold Checked.entry at h
  split at h
  · rename_i a ha
    obtain rfl := Except.ok.inj h
    exact ⟨by simp [Kernel.loop, Kernel.loop?, ha], (Array.getElem?_eq_some_iff.1 ha).1⟩
  · cases h

/-- Recording an expansion retires the body and keeps every op. -/
theorem setExpansion_ok {l : LoopId} {p : Expansion} (h : k.setExpansion l p = .ok k')
    (hl : l.idx < k.loops.size) : k.Retains k' ∧ (k'.loop l).expansion = some p := by
  unfold setExpansion at h
  dsimp only at h
  split at h
  · cases h
  simp only [bind, Except.bind] at h
  split at h
  · cases h
  obtain rfl := Except.ok.inj h
  refine ⟨⟨Nat.le_refl _, fun _ _ => rfl, fun _ _ => rfl, by simp [modifyLoop], Nat.le_refl _,
    fun _ _ => rfl⟩, ?_⟩
  simp [Kernel.loop, loop?, modifyLoop, hl, Array.getElem_modify]

end Kernel

/-! ### Slots and barriers -/

/-- The stage number the scheduler gives a stage. -/
def Stage.number : Stage → Nat
  | .load => loadStage
  | .compute => computeStage

/-- `x` is what a slot of `phase` for `iteration` makes of the body entry `e` in kernel `k`: the
pair of the entry's op and a clone of it that carries the slot's schedule. -/
def ClonedAs (k : Kernel) (phase : Phase) (iteration : IterRef) (e : OpId × Stage)
    (x : OpId × OpId) : Prop :=
  x.1 = e.1 ∧ x.2.idx < k.ops.size ∧
    (k.op x.2).sched = some ⟨e.2.number, phase, iteration, e.1⟩

/-- `x` is a barrier of kind `kind` that a block of `phase` runs in the compute stage. -/
def BarrierAs (k : Kernel) (kind : BarrierKind) (phase : Phase) (x : OpId) : Prop :=
  x.idx < k.ops.size ∧ (k.op x).kind = .barrier kind ∧
    (k.op x).sched = some ⟨computeStage, phase, .relative 0, x⟩

section Slots

variable {k k' : Kernel} {phase : Phase} {iteration : IterRef}

theorem BarrierAs.retains {kind : BarrierKind} {x : OpId} (h : BarrierAs k kind phase x)
    (hr : k.Retains k') : BarrierAs k' kind phase x :=
  ⟨Nat.lt_of_lt_of_le h.1 hr.size, (hr.kind _ h.1).trans h.2.1, (hr.sched _ h.1).trans h.2.2⟩

theorem BarrierAs.event {kind : BarrierKind} {x : OpId} (h : BarrierAs k kind phase x) (i : Nat) :
    k.event x i = .ofKind (.barrier kind) i := by
  rw [event_of_compute h.2.2 rfl, h.2.1]
  rfl

theorem ClonedAs.retains {e : OpId × Stage} {x : OpId × OpId} (h : ClonedAs k phase iteration e x)
    (hr : k.Retains k') : ClonedAs k' phase iteration e x :=
  ⟨h.1, Nat.lt_of_lt_of_le h.2.1 hr.size, (hr.sched _ h.2.1).trans h.2.2⟩

theorem run_forM_retains {γ ε : Type} {f : γ → KernelM ε PUnit} {l : List γ}
    (step : ∀ d ∈ l, ∀ {k₁ k₂}, (f d).run k₁ = .ok (.ok (), k₂) → k₁.Retains k₂)
    (h : (l.forM f).run k = .ok (.ok (), k')) : k.Retains k' :=
  KernelM.run_forM_ok (fun _ k₁ => k.Retains k₁) []
    (fun d hd _ _ _ keep hs => keep.trans (step d hd hs))
    (.refl k) h

theorem retains_update_addDependency {h on : OpId}
    (hs : (KernelM.update (·.addDependency h on)).run k = .ok (.ok (), k')) :
    k.Retains k' :=
  Kernel.retains_addDependency (KernelM.run_update.1 hs)

/-- A slot clones its entries in order, each into a fresh op with the slot's schedule, and keeps
every op that was there. -/
theorem cloneSlot_spec {body : List OpId} {staged : List BufferId} {entries : List (OpId × Stage)}
    {after : Option OpId} {made : List (OpId × OpId)}
    (h : (cloneSlot body staged entries phase iteration after).run k = .ok (.ok made, k')) :
    k.Retains k' ∧ List.Forall₂ (ClonedAs k' phase iteration) entries made := by
  unfold cloneSlot at h
  -- The fold keeps every op, and each step clones its entry behind the ones already made.
  refine KernelM.run_foldlM_ok (fun done made k₁ => k.Retains k₁ ∧
    List.Forall₂ (ClonedAs k₁ phase iteration) done made) [] ?_ ⟨.refl k, .nil⟩ h
  rintro ⟨original, stage⟩ - done made₁ k₁ made₂ k₂ ⟨keep, cloned⟩ hs
  split at hs
  rename_i o s heq
  obtain ⟨rfl, rfl⟩ := Prod.mk.inj heq
  rw [KernelM.run_get_bind, KernelM.run_get_bind] at hs
  obtain ⟨x, k₃, hadd, hs⟩ := KernelM.run_bind_eq_ok.1 hs
  obtain ⟨_, k₄, hsched, hs⟩ := KernelM.run_bind_eq_ok.1 hs
  obtain ⟨fresh, hx, -, hxs⟩ := Kernel.addOp_setSched (KernelM.run_edit.1 hadd)
    (KernelM.run_update.1 hsched)
  obtain ⟨_, k₅, hdeps, hs⟩ := KernelM.run_bind_eq_ok.1 hs
  have deps : k₄.Retains k₅ := run_forM_retains (fun _ _ _ _ hd => by
    split at hd
    · exact retains_update_addDependency hd
    · split at hd
      · exact retains_update_addDependency hd
      · obtain ⟨-, rfl⟩ := Prod.mk.inj (Except.ok.inj hd)
        exact .refl _) hdeps
  -- An op to wait for, if any, is one more dependency.
  have last : k₅.Retains k₂ ∧ made₂ = made₁ ++ [(original, x)] := by
    split at hs
    · obtain ⟨_, k₆, hb, hs⟩ := KernelM.run_bind_eq_ok.1 hs
      obtain ⟨hm, rfl⟩ := Prod.mk.inj (Except.ok.inj hs)
      exact ⟨retains_update_addDependency hb, (Except.ok.inj hm).symm⟩
    · obtain ⟨hm, rfl⟩ := Prod.mk.inj (Except.ok.inj hs)
      exact ⟨.refl _, (Except.ok.inj hm).symm⟩
  obtain ⟨final, rfl⟩ := last
  have later := deps.trans final
  refine ⟨keep.trans (fresh.trans later), List.rel_append (cloned.imp fun _ _ c =>
    c.retains (fresh.trans later)) (.cons ?_ .nil)⟩
  refine ⟨rfl, Nat.lt_of_lt_of_le hx later.size, (later.sched x hx).trans ?_⟩
  cases stage <;> exact hxs

/-- A barrier is a fresh op of its kind in the compute stage, and keeps every op that was there. -/
theorem addBarrier_spec {kind : BarrierKind} {after : List OpId} {x : OpId}
    (h : (addBarrier kind phase after).run k = .ok (.ok x, k')) :
    k.Retains k' ∧ BarrierAs k' kind phase x := by
  unfold addBarrier at h
  obtain ⟨x', k₁, hadd, h⟩ := KernelM.run_bind_eq_ok.1 h
  obtain ⟨_, k₂, hsched, h⟩ := KernelM.run_bind_eq_ok.1 h
  obtain ⟨fresh, hx, hkind, hxs⟩ := Kernel.addOp_setSched (KernelM.run_edit.1 hadd)
    (KernelM.run_update.1 hsched)
  obtain ⟨_, k₃, hdeps, h⟩ := KernelM.run_bind_eq_ok.1 h
  obtain ⟨hm, rfl⟩ := Prod.mk.inj (Except.ok.inj h)
  obtain rfl := Except.ok.inj hm
  have deps : k₂.Retains k₃ :=
    run_forM_retains (fun _ _ _ _ hd => retains_update_addDependency hd) hdeps
  have made : BarrierAs k₂ kind phase x' := ⟨hx, by rw [hkind]; split <;> rfl, hxs⟩
  exact ⟨fresh.trans deps, made.retains deps⟩

/-- The clones of a load slot each load the slot's source iteration. -/
theorem events_of_loadSlot {entries : List (OpId × Stage)} {made : List (OpId × OpId)}
    (h : List.Forall₂ (ClonedAs k phase iteration) entries made)
    (hl : ∀ e ∈ entries, e.2 = .load) (i : Nat) :
    made.map (fun x => k.event x.2 i) = loadSlot entries.length (iteration.source i) := by
  induction h with
  | nil => rfl
  | @cons e x es xs hx _ ih =>
    have stage : e.2.number = loadStage := by rw [hl e List.mem_cons_self]; rfl
    rw [List.map_cons, ih fun e he => hl e (List.mem_cons_of_mem _ he),
      event_of_load hx.2.2 stage]
    rfl

/-- The clones of a compute slot each compute the slot's source iteration, or wait. -/
theorem events_of_computeSlot {entries : List (OpId × Stage)} {made : List (OpId × OpId)}
    (h : List.Forall₂ (ClonedAs k phase iteration) entries made)
    (hc : ∀ e ∈ entries, e.2 = .compute) (i : Nat) :
    ∀ e ∈ made.map (fun x => k.event x.2 i), e.ComputesAt (iteration.source i) := by
  induction h with
  | nil => simp
  | @cons e x es xs hx _ ih =>
    have stage : e.2.number = computeStage := by rw [hc e List.mem_cons_self]; rfl
    rw [List.map_cons, List.forall_mem_cons, event_of_compute hx.2.2 stage]
    exact ⟨Event.ofKind_computesAt _ _, ih fun e he => hc e (List.mem_cons_of_mem _ he)⟩

end Slots

/-! ### Checks -/

/-- A pipelinable loop has a load stage and at least `depth - 1` iterations. -/
theorem checkPipelinable_ok {k : Kernel} {l : LoopId} {d : Nat} {entries : List (OpId × Stage)}
    {staged : List BufferId} (h : checkPipelinable k l d entries = .ok staged) :
    entries.any (·.2 == .load) = true ∧ d - 1 ≤ (k.loop l).extent := by
  unfold checkPipelinable at h
  dsimp only at h
  -- The first two checks settle both facts; the later ones only refuse more.
  split at h
  · cases h
  rename_i loads
  split at h
  · cases h
  rename_i enough
  exact ⟨by simpa using loads, by omega⟩

/-! ### Rings -/

section Rings

variable {k k' : Kernel}

theorem attachSwizzle_ok {b : BufferId} {s : Swizzle}
    (h : (k.attachSwizzle b s).run = .ok (.ok k')) :
    k' = k.modifyBuffer b ({ · with swizzle := some s }) := by
  unfold Kernel.attachSwizzle at h
  obtain ⟨bf, -, h⟩ := run_bind_eq_ok.1 h
  dsimp only at h
  -- Every check that fails throws; what passes them all attaches the swizzle.
  repeat' split at h
  all_goals first
    | (obtain ⟨_, hx, -⟩ := run_bind_eq_ok.1 h; cases hx)
    | skip
  obtain ⟨_, -, h⟩ := run_bind_eq_ok.1 h
  split at h
  · obtain ⟨_, hx, -⟩ := run_bind_eq_ok.1 h
    cases hx
  · exact (Except.ok.inj (Except.ok.inj h)).symm

/-- The name of instance `j` of a buffer's ring. -/
def Buffer.stageName (b : Buffer) (j : Nat) : String := s!"{b.name}_stage{j}"

/-- Instance `j` of the ring of `b`, the buffer behind `logical`: a fresh declaration under the
stage name that inherits the layout and the swizzle. -/
def Buffer.ringInstance (b : Buffer) (logical : BufferId) (j : Nat) : Buffer :=
  { b.renamed (b.stageName j) with
    instanceOf := some (logical, j)
    layout := b.layout
    swizzle := b.swizzle }

/-- The instances a ring of `depth` adds for the buffer behind `logical`. -/
def Kernel.ringInstances (k : Kernel) (depth : Nat) (logical : BufferId) : List Buffer :=
  (List.range' 1 (depth - 1)).map ((k.buffer logical).ringInstance logical)

/-- Editing the buffer just declared edits the declaration. -/
theorem modifyBuffer_push {c : Buffer} {f : Buffer → Buffer} :
    ({ k with buffers := k.buffers.push c } : Kernel).modifyBuffer ⟨k.buffers.size⟩ f =
      { k with buffers := k.buffers.push (f c) } := by
  simp only [Kernel.modifyBuffer, Kernel.mk.injEq, and_true, true_and]
  ext i hi₁ hi₂
  · simp
  · simp only [Array.getElem_modify, Array.getElem_push]
    grind

/-- A buffer handle past the arena reads the default buffer, whose shape is empty. -/
theorem lt_of_shape_ne_nil {b : BufferId} (h : (k.buffer b).shape ≠ []) : b.idx < k.buffers.size := by
  by_contra hb
  exact h (by simp [Kernel.buffer, Kernel.buffer?, Nat.le_of_not_lt hb]; rfl)

/-- The last step of a ring instance attaches the buffer's swizzle, if it has one, to the
instance just declared. -/
theorem swizzleTail_ok {k₀ : Kernel} {s? : Option Swizzle} {c : Buffer} {y : BufferId}
    (hc : c.swizzle = none)
    (h : (match s? with
      | some s => do
        KernelM.updateChecked fun k => k.attachSwizzle ⟨k₀.buffers.size⟩ s
        pure ⟨k₀.buffers.size⟩
      | _ => pure ⟨k₀.buffers.size⟩ : KernelM KernelError BufferId).run
        { k₀ with buffers := k₀.buffers.push c } = .ok (.ok y, k')) :
    y = ⟨k₀.buffers.size⟩ ∧ k' = { k₀ with buffers := k₀.buffers.push { c with swizzle := s? } } := by
  split at h
  · obtain ⟨_, k₁, hw, h⟩ := KernelM.run_bind_eq_ok.1 h
    obtain ⟨hm, rfl⟩ := Prod.mk.inj (Except.ok.inj h)
    rw [attachSwizzle_ok (KernelM.run_updateChecked.1 hw), modifyBuffer_push]
    exact ⟨(Except.ok.inj hm).symm, rfl⟩
  · obtain ⟨hm, rfl⟩ := Prod.mk.inj (Except.ok.inj h)
    rename_i hs
    have none : s? = none := Option.eq_none_iff_forall_ne_some.2 hs
    subst none
    rw [← hc]
    exact ⟨(Except.ok.inj hm).symm, rfl⟩

/-- A map whose every step declares one buffer, `g c` for the element `c`, and answers its handle
declares them all in order, under consecutive handles. -/
theorem run_mapM_declares {γ ε : Type} {f : γ → KernelM ε BufferId} (g : γ → Buffer)
    (Q : γ → Prop) :
    ∀ {cs : List γ} {hs : List BufferId} {k k' : Kernel},
      (∀ c ∈ cs, ∀ {h k₁ k₂}, (f c).run k₁ = .ok (.ok h, k₂) →
        h = ⟨k₁.buffers.size⟩ ∧ k₂ = { k₁ with buffers := k₁.buffers.push (g c) } ∧ Q c) →
      (cs.mapM f).run k = .ok (.ok hs, k') →
      k' = { k with buffers := k.buffers ++ (cs.map g).toArray } ∧
        hs = (List.range' k.buffers.size cs.length).map (⟨·⟩) ∧ ∀ c ∈ cs, Q c
  | [], hs, k, k', _, h => by
    rw [List.mapM_nil] at h
    obtain ⟨hm, rfl⟩ := Prod.mk.inj (Except.ok.inj h)
    obtain rfl := Except.ok.inj hm
    simp
  | c :: cs, hs, k, k', step, h => by
    rw [List.mapM_cons] at h
    obtain ⟨x, k₁, h₁, h⟩ := KernelM.run_bind_eq_ok.1 h
    obtain ⟨xs, k₂, h₂, h⟩ := KernelM.run_bind_eq_ok.1 h
    obtain ⟨hm, rfl⟩ := Prod.mk.inj (Except.ok.inj h)
    obtain rfl := Except.ok.inj hm
    obtain ⟨rfl, rfl, hc⟩ := step c List.mem_cons_self h₁
    obtain ⟨rfl, rfl, hcs⟩ :=
      run_mapM_declares g Q (fun c' hc' => step c' (List.mem_cons_of_mem _ hc')) h₂
    refine ⟨by simp, by simp [List.range'_succ], fun c' hc' => ?_⟩
    rcases List.mem_cons.1 hc' with rfl | hc'
    exacts [hc, hcs c' hc']

/-- A ring of `depth` instances for `logical` declares the instances after the kernel's buffers,
under consecutive handles, and lists them after the buffer itself. With an instance to declare,
the buffer is one of the kernel's: an instance has its shape, and a declared shape is not empty. -/
theorem allocateRing_ok {logical : BufferId} {depth : Nat} {r : Ring}
    (h : (allocateRing logical depth).run k = .ok (.ok r, k')) :
    k' = { k with buffers := k.buffers ++ (k.ringInstances depth logical).toArray } ∧
      r = ⟨logical, logical :: (List.range' k.buffers.size (depth - 1)).map (⟨·⟩)⟩ ∧
      (1 < depth → logical.idx < k.buffers.size) := by
  unfold allocateRing at h
  rw [KernelM.run_get_bind] at h
  obtain ⟨rest, k₁, hrest, h⟩ := KernelM.run_bind_eq_ok.1 h
  obtain ⟨hm, rfl⟩ := Prod.mk.inj (Except.ok.inj h)
  obtain rfl := Except.ok.inj hm
  set B := k.buffer logical
  have declares := run_mapM_declares (B.ringInstance logical) (fun _ => B.shape ≠ []) ?step hrest
  · obtain ⟨rfl, rfl, shaped⟩ := declares
    exact ⟨rfl, by simp,
      fun hd => lt_of_shape_ne_nil (shaped 1 (List.mem_range'_1.2 ⟨Nat.le_refl _, by omega⟩))⟩
  intro j _ x k₂ k₃ hs
  obtain ⟨x, k₄, hadd, hs⟩ := KernelM.run_bind_eq_ok.1 hs
  have declared := KernelM.run_edit.1 hadd
  unfold Kernel.addBuffer at declared
  split_ifs at declared with hname hshape
  obtain ⟨hx, rfl⟩ := Prod.mk.inj (Except.ok.inj declared)
  subst hx
  have nonempty : B.shape ≠ [] := fun he => hshape (.inl (by simp [Buffer.renamed, he]))
  -- The instance ends with the buffer's layout and swizzle, whichever of them it has.
  dsimp only at hs
  split at hs
  · rename_i L hL
    obtain ⟨_, k₅, hlayout, hs⟩ := KernelM.run_bind_eq_ok.1 hs
    obtain ⟨-, rfl⟩ := attachLayout_ok (KernelM.run_update.1 hlayout)
    rw [modifyBuffer_push] at hs
    obtain ⟨rfl, rfl⟩ := swizzleTail_ok rfl hs
    exact ⟨rfl, by simp [Buffer.ringInstance, Buffer.renamed, Buffer.stageName, hL], nonempty⟩
  · rename_i hL
    have noLayout : B.layout = none := Option.eq_none_iff_forall_ne_some.2 hL
    obtain ⟨rfl, rfl⟩ := swizzleTail_ok rfl hs
    exact ⟨rfl, by simp [Buffer.ringInstance, Buffer.renamed, Buffer.stageName, noLayout],
      nonempty⟩

/-- A ring only adds buffers. -/
theorem allocateRing_retains {b : BufferId} {depth : Nat} {r : Ring}
    (h : (allocateRing b depth).run k = .ok (.ok r, k')) : k.Retains k' := by
  rw [(allocateRing_ok h).1]
  exact Kernel.retains_appendBuffers _

end Rings

/-! ### The blocks of an expansion as schedules -/

/-- Lists related pointwise by `g b = f a` flatten alike. -/
theorem flatten_map_of_forall₂ {α β γ : Type} {f : α → List γ} {g : β → List γ}
    {as : List α} {bs : List β} (h : List.Forall₂ (fun a b => g b = f a) as bs) :
    (bs.map g).flatten = as.flatMap f := by
  induction h with
  | nil => rfl
  | cons hab _ ih => rw [List.map_cons, List.flatten_cons, ih, hab, List.flatMap_cons]

/-- The entry at `j` of a list related to `range' s n` is related to `s + j`. -/
theorem forall₂_range'_getElem {β : Type} {R : Nat → β → Prop} {s n : Nat} {bs : List β}
    (h : List.Forall₂ R (List.range' s n) bs) {j : Nat} (hj : j < bs.length) :
    R (s + j) bs[j] := by
  have hn : j < (List.range' s n).length := h.length_eq ▸ hj
  have := h.get hn hj
  simpa using this

/-- The computations of the epilogue step for iteration `t`, when the steps, each a wait and its
clones, start with iteration `trips`. -/
def drainOf (k : Kernel) (trips : Nat) (steps : List (OpId × List (OpId × OpId))) (t : Nat) :
    List Event :=
  if trips ≤ t then ((steps[t - trips]?).map fun s => s.2.map fun x => k.event x.2 0).getD []
  else []

section Blocks

variable {k : Kernel} {loads computes : List (OpId × Stage)}

theorem prologue_events {ahead : Nat} {slots : List (List (OpId × OpId))}
    (h : List.Forall₂ (fun t made =>
      List.Forall₂ (ClonedAs k .prologue (.absolute t)) loads made) (List.range ahead) slots)
    (hl : ∀ e ∈ loads, e.2 = .load) :
    (slots.map (·.map (·.2))).flatten.map (k.event · 0) = prologue loads.length ahead := by
  rw [List.map_flatten, List.map_map]
  refine flatten_map_of_forall₂ (h.imp fun t made cloned => ?_)
  rw [Function.comp_apply, List.map_map]
  exact events_of_loadSlot cloned hl 0

theorem steady_events {ahead : Nat} {issued computed : List (OpId × OpId)} {wait sync : OpId}
    (hi : List.Forall₂ (ClonedAs k .steady (.relative ahead)) loads issued)
    (hl : ∀ e ∈ loads, e.2 = .load) (hw : BarrierAs k (.asyncWait ahead) .steady wait)
    (hs : BarrierAs k .sync .steady sync) (i : Nat) :
    (issued.map (·.2) ++ [wait] ++ computed.map (·.2) ++ [sync]).map (k.event · i) =
      steadyTrip loads.length ahead (computed.map fun x => k.event x.2 i) i := by
  have loaded := events_of_loadSlot hi hl i
  simp only [List.map_append, List.map_map, Function.comp_def, List.map_cons, List.map_nil, loaded,
    hw.event, hs.event, steadyTrip, List.append_assoc, List.cons_append, List.nil_append]
  rfl

theorem drain_events {n trips ahead : Nat} (hn : n = trips + ahead)
    {steps : List (OpId × List (OpId × OpId))}
    (h : List.Forall₂ (fun t s => BarrierAs k (.asyncWait (n - 1 - t)) .epilogue s.1 ∧
      List.Forall₂ (ClonedAs k .epilogue (.absolute t)) computes s.2)
      (List.range' trips ahead) steps) :
    (steps.flatMap fun s => s.1 :: s.2.map (·.2)).map (k.event · 0) =
      drainRounds ahead trips (drainOf k trips steps) ahead := by
  have len : steps.length = ahead := by simpa using h.length_eq.symm
  rw [List.map_flatMap, drainRounds, List.flatMap_def, List.flatMap_def]
  congr 1
  refine List.ext_getElem (by simp [len]) fun j hj _ => ?_
  have hj' : j < steps.length := by simpa using hj
  obtain ⟨wait, -⟩ := forall₂_range'_getElem h hj'
  have drained : drainOf k trips steps (trips + j) = steps[j].2.map fun x => k.event x.2 0 := by
    simp [drainOf, hj']
  simp only [List.getElem_map, List.getElem_range, List.map_cons, List.map_map, drainStep, drained,
    wait.event, hn]
  rfl

theorem drainOf_computesAt {n trips ahead : Nat} {steps : List (OpId × List (OpId × OpId))}
    (h : List.Forall₂ (fun t s => BarrierAs k (.asyncWait (n - 1 - t)) .epilogue s.1 ∧
      List.Forall₂ (ClonedAs k .epilogue (.absolute t)) computes s.2)
      (List.range' trips ahead) steps)
    (hc : ∀ e ∈ computes, e.2 = .compute) (t : Nat) :
    ∀ e ∈ drainOf k trips steps t, e.ComputesAt t := by
  unfold drainOf
  split_ifs with ht
  · rcases hs : steps[t - trips]? with _ | s
    · simp
    obtain ⟨hj, rfl⟩ := List.getElem?_eq_some_iff.1 hs
    obtain ⟨-, cloned⟩ := forall₂_range'_getElem h hj
    rw [Nat.add_sub_cancel' ht] at cloned
    exact events_of_computeSlot cloned hc 0
  · simp

end Blocks

/-! ### The steps of the rewrite -/

section Steps

variable {k k' : Kernel} {body : List OpId} {staged : List BufferId}

/-- The loop lookup as a step of a run: it reads the loop and leaves the kernel as it was. -/
theorem run_liftM_entry {ε : Type} {l : LoopId} {lp : LoopNest} {k₁ : Kernel}
    (h : (liftM (Checked.entry k.loops l.idx) : KernelM ε LoopNest).run k = .ok (.ok lp, k₁)) :
    lp = k.loop l ∧ k₁ = k ∧ l.idx < k.loops.size := by
  rw [KernelM.run_liftM] at h
  rcases he : Checked.entry k.loops l.idx with fault | lp'
  · rw [he] at h
    cases h
  · rw [he] at h
    obtain ⟨hm, rfl⟩ := Prod.mk.inj (Except.ok.inj h)
    obtain rfl := Except.ok.inj hm
    obtain ⟨found, inside⟩ := Kernel.entry_loops_ok he
    exact ⟨found.symm, rfl, inside⟩

theorem rings_retains {d : Nat} {rings : List Ring}
    (h : (staged.mapM fun b => allocateRing b d).run k = .ok (.ok rings, k')) : k.Retains k' :=
  (KernelM.run_mapM_ok Kernel.Retains (fun _ _ _ => True) .refl (fun h₁ h₂ => h₁.trans h₂)
    (fun _ _ => trivial) (fun _ _ _ _ _ hs => ⟨allocateRing_retains hs, trivial⟩) h).1

/-- Slots for a list of fixed iterations, one after the other. -/
theorem slots_spec {entries : List (OpId × Stage)} {phase : Phase} {ts : List Nat}
    {slots : List (List (OpId × OpId))}
    (h : (ts.mapM fun t => cloneSlot body staged entries phase (.absolute t) none).run k =
      .ok (.ok slots, k')) :
    k.Retains k' ∧
      List.Forall₂ (fun t made => List.Forall₂ (ClonedAs k' phase (.absolute t)) entries made)
        ts slots :=
  KernelM.run_mapM_ok Kernel.Retains
    (fun t made k => List.Forall₂ (ClonedAs k phase (.absolute t)) entries made) .refl
    (fun h₁ h₂ => h₁.trans h₂) (fun c r => c.imp fun _ _ x => x.retains r)
    (fun _ _ _ _ _ hs => cloneSlot_spec hs) h

/-- The drain: for each remaining iteration, a wait for its group, then its computations. -/
theorem drainSteps_spec {computes : List (OpId × Stage)} {n : Nat} {ts : List Nat}
    {steps : List (OpId × List (OpId × OpId))}
    (h : (ts.mapM fun t => do
      let w ← addBarrier (.asyncWait (n - 1 - t)) .epilogue []
      let made ← cloneSlot body staged computes .epilogue (.absolute t) (some w)
      pure (w, made)).run k = .ok (.ok steps, k')) :
    k.Retains k' ∧ List.Forall₂ (fun t s =>
      BarrierAs k' (.asyncWait (n - 1 - t)) .epilogue s.1 ∧
      List.Forall₂ (ClonedAs k' .epilogue (.absolute t)) computes s.2) ts steps := by
  refine KernelM.run_mapM_ok Kernel.Retains
    (fun (t : Nat) (s : OpId × List (OpId × OpId)) k =>
      BarrierAs k (.asyncWait (n - 1 - t)) .epilogue s.1 ∧
      List.Forall₂ (ClonedAs k .epilogue (.absolute t)) computes s.2) .refl
    (fun h₁ h₂ => h₁.trans h₂)
    (fun c r => c.imp (·.retains r) (·.imp fun _ _ x => x.retains r)) ?_ h
  intro t _ s k₁ k₂ hs
  obtain ⟨w, k₃, hw, hs⟩ := KernelM.run_bind_eq_ok.1 hs
  obtain ⟨made, k₄, hmade, hs⟩ := KernelM.run_bind_eq_ok.1 hs
  obtain ⟨hm, rfl⟩ := Prod.mk.inj (Except.ok.inj hs)
  obtain rfl := Except.ok.inj hm
  obtain ⟨waited, wait_ok⟩ := addBarrier_spec hw
  obtain ⟨cloned, made_ok⟩ := cloneSlot_spec hmade
  exact ⟨waited.trans cloned, wait_ok.retains cloned, made_ok⟩

/-- Moving the dependents of each original onto its last clone edits dependencies only. -/
theorem redirect_spec {pairs : List (OpId × OpId)} {originals : List OpId}
    (h : (originals.forM fun original => match lastClone pairs original with
      | some c => modify fun k => k.redirectDependents original c
      | none => pure () : KernelM KernelError Unit).run k = .ok (.ok (), k')) :
    k.Retains k' ∧ k'.loops = k.loops := by
  refine KernelM.run_forM_ok (fun _ k₁ => k.Retains k₁ ∧ k₁.loops = k.loops) [] ?_
    ⟨.refl _, rfl⟩ h
  rintro original - - k₁ k₂ ⟨keep, same⟩ hs
  split at hs
  · obtain ⟨-, rfl⟩ := Prod.mk.inj (Except.ok.inj hs)
    exact ⟨keep.trans Kernel.retains_redirectDependents,
      Kernel.redirectDependents_frame.2.1.trans same⟩
  · obtain ⟨-, rfl⟩ := Prod.mk.inj (Except.ok.inj hs)
    exact ⟨keep, same⟩

end Steps

/-! ### The pipelined loop -/

/-- The body ops of loop `l`, each with the pipeline stage it belongs to, in body order. -/
def Kernel.stageEntries (k : Kernel) (l : LoopId) : List (OpId × Stage) :=
  (k.loop l).body.map fun h => (h, classifyStage k (k.op h))

/-- What `pipelineLoop` at depth `d > 1` records for loop `l` of `k`, read in the kernel `k'` it
leaves: of the loop's `n` iterations, `d - 1` are loaded ahead, the steady block runs once for
each of the others, and the epilogue drains the iterations left. A slot holds a clone of every
body op of one stage, in body order, scheduled for one iteration. -/
structure Expansion.Scheduled (p : Expansion) (k k' : Kernel) (l : LoopId) (d : Nat) : Prop where
  depth : p.depth = d
  /-- One steady trip for each iteration not loaded ahead. -/
  trips : p.steadyTrips = (k.loop l).extent - (d - 1)
  /-- The load slot of each iteration `0, …, d - 2`. -/
  prologue : ∃ slots : List (List (OpId × OpId)),
    List.Forall₂ (fun t made => List.Forall₂ (ClonedAs k' .prologue (.absolute t))
      ((k.stageEntries l).filter (·.2 == .load)) made) (List.range (d - 1)) slots ∧
    p.prologue = (slots.map (·.map (·.2))).flatten
  /-- The load slot of iteration `i + d - 1`, a wait until at most `d - 1` load groups are in
  flight, the compute slot of iteration `i`, and a synchronization. -/
  steady : ∃ (issued computed : List (OpId × OpId)) (wait sync : OpId),
    List.Forall₂ (ClonedAs k' .steady (.relative (d - 1)))
      ((k.stageEntries l).filter (·.2 == .load)) issued ∧
    BarrierAs k' (.asyncWait (d - 1)) .steady wait ∧
    List.Forall₂ (ClonedAs k' .steady (.relative 0))
      ((k.stageEntries l).filter (·.2 == .compute)) computed ∧
    BarrierAs k' .sync .steady sync ∧
    p.steady = issued.map (·.2) ++ [wait] ++ computed.map (·.2) ++ [sync]
  /-- For each iteration `t` from `steadyTrips` to `n - 1`, a wait until at most `n - 1 - t` load
  groups are in flight, then the compute slot of `t`. -/
  epilogue : ∃ steps : List (OpId × List (OpId × OpId)),
    List.Forall₂ (fun t s => BarrierAs k' (.asyncWait ((k.loop l).extent - 1 - t)) .epilogue s.1 ∧
      List.Forall₂ (ClonedAs k' .epilogue (.absolute t))
        ((k.stageEntries l).filter (·.2 == .compute)) s.2)
      (List.range' p.steadyTrips ((k.loop l).extent - p.steadyTrips)) steps ∧
    p.epilogue = steps.flatMap fun s => s.1 :: s.2.map (·.2)

/-- **What pipelining at depth `d > 1` does.** The loop passes `checkPipelinable`, which answers
the staged buffers; their rings are allocated first, and nothing made after them touches a buffer;
the expansion recorded holds the rings and the scheduled blocks. -/
theorem pipelineLoop_deep {k k' : Kernel} {l : LoopId} {d : Nat} (hd : 1 < d)
    (h : (pipelineLoop l d).run k = .ok (.ok (), k')) :
    ∃ staged rings k₂, checkPipelinable k l d (k.stageEntries l) = .ok staged ∧
      (staged.mapM fun b => allocateRing b d).run k = .ok (.ok rings, k₂) ∧ k₂.Retains k' ∧
      ∃ p, (k'.loop l).expansion = some p ∧ p.rings = rings ∧ p.Scheduled k k' l d := by
  unfold pipelineLoop at h
  rw [KernelM.run_get_bind] at h
  obtain ⟨lp, k₁, hlp, h⟩ := KernelM.run_bind_eq_ok.1 h
  obtain ⟨rfl, rfl, inRange⟩ := run_liftM_entry hlp
  dsimp only at h
  -- Past the depth checks, the loop is pipelinable at depth `d > 1`.
  rw [if_neg (by omega), if_pos hd] at h
  split at h
  rotate_left
  · obtain ⟨_, _, hx, -⟩ := KernelM.run_bind_eq_ok.1 h
    cases hx
  rename_i staged hcheck
  obtain ⟨_, k₂, hs, h⟩ := KernelM.run_bind_eq_ok.1 h
  obtain ⟨hm, rfl⟩ := Prod.mk.inj (Except.ok.inj hs)
  obtain rfl := Except.ok.inj hm
  replace h := KernelM.run_lift_eq_ok.1 h
  obtain ⟨rings, k₂, hrings, h⟩ := KernelM.run_bind_eq_ok.1 h
  rw [if_neg (by omega)] at h
  obtain ⟨pro, k₃, hpro, h⟩ := KernelM.run_bind_eq_ok.1 h
  obtain ⟨issued, k₄, hissued, h⟩ := KernelM.run_bind_eq_ok.1 h
  obtain ⟨wait, k₅, hwait, h⟩ := KernelM.run_bind_eq_ok.1 h
  obtain ⟨computed, k₆, hcomputed, h⟩ := KernelM.run_bind_eq_ok.1 h
  obtain ⟨sync, k₇, hsync, h⟩ := KernelM.run_bind_eq_ok.1 h
  obtain ⟨epi, k₈, hepi, h⟩ := KernelM.run_bind_eq_ok.1 h
  obtain ⟨x, k₉, hx, h⟩ := KernelM.run_bind_eq_ok.1 h
  obtain ⟨hm, rfl⟩ := Prod.mk.inj (Except.ok.inj hx)
  obtain rfl := Except.ok.inj hm
  obtain ⟨_, k₁₀, hexp, hredirect⟩ := KernelM.run_bind_eq_ok.1 h
  have r₂ := rings_retains hrings
  obtain ⟨r₃, pro_ok⟩ := slots_spec hpro
  obtain ⟨r₄, issued_ok⟩ := cloneSlot_spec hissued
  obtain ⟨r₅, wait_ok⟩ := addBarrier_spec hwait
  obtain ⟨r₆, computed_ok⟩ := cloneSlot_spec hcomputed
  obtain ⟨r₇, sync_ok⟩ := addBarrier_spec hsync
  obtain ⟨r₈, epi_ok⟩ := drainSteps_spec hepi
  have into : k₁.Retains k₈ :=
    r₂.trans <| r₃.trans <| r₄.trans <| r₅.trans <| r₆.trans <| r₇.trans r₈
  obtain ⟨r₁₀, expanded⟩ := Kernel.setExpansion_ok (KernelM.run_update.1 hexp)
    (Nat.lt_of_lt_of_le inRange into.loops)
  obtain ⟨r', sameLoops⟩ := redirect_spec hredirect
  -- Every clone and barrier reads the same in the final kernel.
  have s₈ : k₈.Retains k' := r₁₀.trans r'
  have s₆ := r₇.trans (r₈.trans s₈)
  have s₄ := r₅.trans (r₆.trans s₆)
  have s₂ := r₃.trans (r₄.trans s₄)
  have final : k'.loop l = k₁₀.loop l := by simp only [Kernel.loop, Kernel.loop?, sameLoops]
  refine ⟨staged, rings, k₂, hcheck, hrings, s₂, _, final ▸ expanded, rfl, rfl, rfl,
    ⟨pro, pro_ok.imp fun _ _ c => c.imp fun _ _ x => x.retains (r₄.trans s₄), rfl⟩,
    ⟨issued, computed, wait, sync, issued_ok.imp fun _ _ x => x.retains s₄,
      wait_ok.retains (r₆.trans s₆), computed_ok.imp fun _ _ x => x.retains s₆,
      sync_ok.retains (r₈.trans s₈), rfl⟩,
    ⟨epi, epi_ok.imp fun _ _ c => c.imp (·.retains s₈) (·.imp fun _ _ x => x.retains s₈), rfl⟩⟩

/-- **The expansion runs the barrier schedule.** Pipelining loop `l` at depth `d > 1` records an
expansion whose events are the `schedule` with `d - 1` iterations loaded ahead and the loop's
remaining iterations as steady trips: each load slot loads one iteration `L > 0` times, and the
steady and drain computations compute their iteration. -/
theorem pipelineLoop_events {k k' : Kernel} {l : LoopId} {d : Nat} (hd : 1 < d)
    (h : (pipelineLoop l d).run k = .ok (.ok (), k')) :
    ∃ p, (k'.loop l).expansion = some p ∧ ∃ (L : Nat) (steady drain : Nat → List Event),
      0 < L ∧ (∀ i, ∀ e ∈ steady i, e.ComputesAt i) ∧
      (∀ t, ∀ e ∈ drain t, e.ComputesAt t) ∧ d - 1 ≤ (k.loop l).extent ∧
      p.events k' = schedule L (d - 1) ((k.loop l).extent - (d - 1)) steady drain := by
  obtain ⟨staged, -, -, hcheck, -, -, p, hp, -, sched⟩ := pipelineLoop_deep hd h
  obtain ⟨loadStage?, enough⟩ := checkPipelinable_ok hcheck
  obtain ⟨pro, pro_ok, hpro⟩ := sched.prologue
  obtain ⟨issued, computed, wait, sync, issued_ok, wait_ok, computed_ok, sync_ok, hsteady⟩ :=
    sched.steady
  obtain ⟨epi, epi_ok, hepi⟩ := sched.epilogue
  set loads := (k.stageEntries l).filter (·.2 == .load)
  set computes := (k.stageEntries l).filter (·.2 == .compute)
  set n := (k.loop l).extent
  have span : n - p.steadyTrips = d - 1 := by rw [sched.trips]; omega
  rw [span] at epi_ok
  -- The slots split the body by stage, and some op loads.
  have hl : ∀ e ∈ loads, e.2 = .load := fun e he => by
    simpa using (List.mem_filter.1 he).2
  have hc : ∀ e ∈ computes, e.2 = .compute := fun e he => by
    simpa using (List.mem_filter.1 he).2
  have hL : 0 < loads.length := by
    obtain ⟨e, he, hel⟩ := List.any_eq_true.1 loadStage?
    exact List.length_pos_of_mem (List.mem_filter.2 ⟨he, hel⟩)
  refine ⟨p, hp, loads.length, fun i => computed.map fun x => k'.event x.2 i,
    drainOf k' p.steadyTrips epi, hL, fun i => events_of_computeSlot computed_ok hc i,
    drainOf_computesAt epi_ok hc, enough, ?_⟩
  rw [← sched.trips]
  simp only [Expansion.events, schedule, steadyRounds, hpro, hsteady, hepi,
    prologue_events pro_ok hl, drain_events (by omega) epi_ok, steady_events issued_ok hl wait_ok sync_ok]

/-- **The barriers make the asynchronous loads safe.** Pipelining loop `l` at depth `d > 1`
records an expansion every run of which is safe: each computation of an iteration `t` of the
loop starts after the copy group of `t`, issued before it, has completed, and the loads of
iteration `t + d` on, which refill the ring instance of `t`, start only after every computation
of `t` has finished. -/
theorem pipelineLoop_barriers {k k' : Kernel} {l : LoopId} {d : Nat} (hd : 1 < d)
    (h : (pipelineLoop l d).run k = .ok (.ok (), k')) :
    ∃ p, (k'.loop l).expansion = some p ∧
      ∀ run : Run (p.events k'), run.Safe (k.loop l).extent d := by
  obtain ⟨p, hp, L, steady, drain, hL, hsteady, hdrain, enough, events⟩ :=
    pipelineLoop_events hd h
  refine ⟨p, hp, ?_⟩
  rw [events]
  intro run
  have safe := schedule_safe hL hsteady hdrain run
  rwa [Nat.sub_add_cancel enough, Nat.sub_add_cancel (Nat.one_le_of_lt hd)] at safe

/-- The handles in order, by insertion: the sort the kernel can evaluate. -/
theorem Kernel.sortedIds_eq_insertionSort (hs : List OpId) :
    Kernel.sortedIds hs =
      ((hs.map (·.idx)).insertionSort (· ≤ ·)).eraseDups.map (⟨·⟩) := by
  rw [Kernel.sortedIds, List.mergeSort_eq_insertionSort]

/-- A loop of two iterations that loads a tile of `a` into shared memory and casts it into `c`. -/
def stagedCast : Kernel where
  name := "staged"
  buffers := #[
    { name := "a", shape := [4, 2], dtype := Scalar.f32, scope := .global },
    { name := "s", shape := [2, 2], dtype := Scalar.f32, scope := .shared },
    { name := "c", shape := [4, 2], dtype := Scalar.f32, scope := .global }]
  ops := #[TileOp.copy "load" (.stepped ⟨0⟩ 0 2) (.whole ⟨1⟩),
    { name := "cast", kind := .cast, inputs := [.whole ⟨1⟩],
      outputs := [.stepped ⟨2⟩ 0 2] }]
  loops := #[{ name := "k", extent := 2, body := [⟨0⟩, ⟨1⟩] }]
  body := [.loop ⟨0⟩]

/-- Pipelining `stagedCast` two deep succeeds, and every run of its expansion is safe. -/
theorem stagedCast_pipelined_safe :
    ∃ k' p, (pipelineLoop ⟨0⟩ 2).run stagedCast = .ok (.ok (), k') ∧
    (k'.loop ⟨0⟩).expansion = some p ∧ ∀ run : Run (p.events k'), run.Safe 2 2 := by
  -- With the handle sort read as an insertion sort, the kernel evaluates the whole rewrite.
  have succeeds :
      (((pipelineLoop ⟨0⟩ 2).run stagedCast).toOption.bind (·.1.toOption)).isSome := by
    unfold pipelineLoop
    simp only [Kernel.sortedIds_eq_insertionSort]
    decide +kernel
  rcases run : (pipelineLoop ⟨0⟩ 2).run stagedCast with fault | ⟨_ | ⟨⟩, k'⟩
  · simp [run, Except.toOption] at succeeds
  · simp [run, Except.toOption] at succeeds
  · obtain ⟨p, hp, safe⟩ := pipelineLoop_barriers (by decide) run
    exact ⟨k', p, rfl, hp, safe⟩

end TileKernel
