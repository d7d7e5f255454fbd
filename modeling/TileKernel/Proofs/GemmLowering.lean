import TileKernel.Proofs.GemmLayouts
import TileKernel.Proofs.PassProgress
import TileKernel.Proofs.Materialize

/-!
# The reference product lowers at every depth its trip count admits

`gemm_lowers`: for every trip count `kTiles ≥ 1` whose width `32 * kTiles` fits a 32-bit word and
every depth `d ≥ 1`, the kernel `gemm kTiles d` builds, and lowering it for the sm80 target

* succeeds when `d ≤ kTiles + 1`, leaving every buffer laid out, both staging tiles swizzled, and
  the K loop expanded at depth `d` with `kTiles + 1 - d` steady trips and, above depth one, a ring
  of `d` instances for each staging tile;
* fails when `d > kTiles + 1`, with the dependency verdict that the loop has too few trips.

The stages are taken one after the other. `Proofs/GemmLayouts` gives the layouts and the swizzles
(`Catalog.gemm_assignLayouts`, `Catalog.gemm_swizzles`), so that everything before pipelining ends
on the laid-out, swizzled product (`Catalog.gemm_prepared`). Its K loop stages both tiles above
depth one, and the checks pass exactly when the loop has `d - 1` trips to run ahead
(`Catalog.gemm_checkPipelinable`, `Catalog.gemm_tripCount_refused`); a refused depth stops
lowering with the kernel as it was (`pipelineLoop_refused`). An accepted one pipelines
(`Catalog.gemm_pipelines`): the ring instances take fresh stage names, their tiles' layouts and
swizzles, and the clones read the buffers their originals read, so the kernel still converts
nothing (`Kernel.ConvertsNothing.pipelined`). From there lowering completes on any kernel
(`lower_of_pipelined`): the passes keep the buffers and the loops' headers, the second swizzle
stage finds no new buffer, and the final checks pass.
-/

set_option autoImplicit false

namespace TileKernel

/-- A pipelining its checks refuse fails with their verdict and leaves the kernel as it was. -/
theorem pipelineLoop_refused {k : Kernel} {l : LoopId} {d : Nat} {e : LowerError}
    (hl : l.idx < k.loops.size) (hd : 1 < d)
    (hcheck : checkPipelinable k l d
      ((k.loop l).body.map fun h => (h, classifyStage k (k.op h))) = .error e) :
    (pipelineLoop l d).run k = .ok (.error e, k) := by
  unfold pipelineLoop
  rw [KernelM.run_get_bind, KernelM.run_bind_of_ok (KernelM.run_loopEntry hl)]
  dsimp only
  rw [if_neg (by omega), if_pos hd, hcheck]
  rfl

/-! ### What pipelining keeps of a kernel -/

section Pipelined

variable {k k' : Kernel} {staged : List BufferId} {d : Nat}

theorem readType_cloneOn (op : TileOp) : readType k (op.cloneOn staged) = readType k op := by
  obtain ⟨name, kind, inputs, outputs, deps, sched⟩ := op
  cases kind <;> simp only [readType, TileOp.cloneOn, TileOp.detached]
  case elementwise | reduce | atomic =>
    cases outputs <;> simp
  case gemm =>
    rcases inputs with _ | ⟨a, _ | ⟨b, r⟩⟩ <;> simp

/-- A clone reads its inputs in the types its original reads them in. -/
theorem conversions_cloneOn {op : TileOp} (h : conversions k op = []) :
    conversions k (op.cloneOn staged) = [] := by
  rw [conversions_eq_nil_iff] at h ⊢
  intro t ht j o hj hm
  rw [readType_cloneOn] at ht
  simp only [TileOp.cloneOn, List.getElem?_map, Option.map_eq_some_iff] at hm
  obtain ⟨o', hm', rfl⟩ := hm
  rw [Operand.rotatingOn_buffer]
  exact h t ht j o' hj hm'

theorem keepsBuffers_of_append {xs : Array Buffer} (h : k'.buffers = k.buffers ++ xs) :
    k.KeepsBuffers k' :=
  ⟨by simp [h], fun b hb => by
    simp [Kernel.buffer, Kernel.buffer?, h, Array.getElem?_append_left hb]⟩

/-- **Pipelining keeps an arena that converts nothing.** The ops there were keep their operands
over the buffers there were, a clone reads the buffers its body op reads, and a barrier reads
nothing. -/
theorem Kernel.ConvertsNothing.pipelined (hF : k.Formed) (hc : k.ConvertsNothing) {l : LoopId}
    {xs : Array Buffer} (hbuf : k'.buffers = k.buffers ++ xs) (halike : k.OpsAlike k')
    (hmade : ∀ x, k.ops.size ≤ x.idx → x.idx < k'.ops.size → k.MadeBy l staged (k'.op x)) :
    k'.ConvertsNothing := by
  have keeps := keepsBuffers_of_append hbuf
  intro x hx
  by_cases hold : x.idx < k.ops.size
  · rw [keeps.conversions_op halike hold (hF.hasOperands hold)]
    exact hc x hold
  rcases hmade x (Nat.le_of_not_lt hold) hx with ⟨y, hy, hclone⟩ | ⟨name, kind, hbarrier⟩
  · have hy' := hF.bodiesExist l y hy
    rw [← conversions_detached, hclone, conversions_congr fun o ho => ?_]
    · exact conversions_cloneOn (hc y hy')
    -- The clone's operands rotate, but name the buffers of the body op's operands.
    simp only [TileOp.operands, TileOp.cloneOn, TileOp.detached, List.mem_append,
      List.mem_map] at ho
    obtain ⟨o', ho', rfl⟩ | ⟨o', ho', rfl⟩ := ho <;> rw [Operand.rotatingOn_buffer] <;>
      exact keeps.dtype (hF.hasOperands hy') o' (by simp [TileOp.operands, ho'])
  · rw [← conversions_detached, hbarrier]
    rfl

/-- A buffer once the rings are declared is a buffer there was or an instance of the ring of a
staged buffer. -/
theorem mem_append_rings {x : Buffer}
    (hbuf : k'.buffers = k.buffers ++ (staged.flatMap (k.ringInstances d)).toArray)
    (hx : x ∈ k'.buffers.toList) :
    x ∈ k.buffers.toList ∨ ∃ b ∈ staged, ∃ j, x = (k.buffer b).ringInstance b j := by
  simp only [hbuf, Array.toList_append, List.mem_append, List.mem_flatMap,
    Kernel.ringInstances, List.mem_map] at hx
  rcases hx with hx | ⟨b, hb, j, -, rfl⟩
  · exact .inl hx
  · exact .inr ⟨b, hb, j, rfl⟩

/-- Ring instances have their buffer's type. -/
theorem Kernel.Castable.append_rings (hc : k.Castable)
    (hbuf : k'.buffers = k.buffers ++ (staged.flatMap (k.ringInstances d)).toArray) :
    k'.Castable := by
  intro x hx
  rcases mem_append_rings hbuf hx with hx | ⟨b, -, j, rfl⟩
  · exact hc x hx
  · exact hc.buffer b

/-- Ring instances have their buffer's layout. -/
theorem layouts_append_rings (hres : ∀ x ∈ k.buffers.toList, x.layout.isSome)
    (hstaged : ∀ b ∈ staged, b.idx < k.buffers.size)
    (hbuf : k'.buffers = k.buffers ++ (staged.flatMap (k.ringInstances d)).toArray) :
    ∀ x ∈ k'.buffers.toList, x.layout.isSome := by
  intro x hx
  rcases mem_append_rings hbuf hx with hx | ⟨b, hb, j, rfl⟩
  · exact hres x hx
  · exact hres (k.buffer b) (Array.mem_toList_iff.2 (Kernel.buffer_mem (hstaged b hb)))

theorem Kernel.LoopsKept.loop_header (h : k.LoopsKept k') (l : LoopId) :
    (k'.loop l).header = (k.loop l).header := by
  have hl := congrArg (·[l.idx]?) h
  simp only [Array.getElem?_map] at hl
  unfold Kernel.loop Kernel.loop?
  rcases h' : k'.loops[l.idx]? with _ | n' <;> rcases h₁ : k.loops[l.idx]? with _ | n <;>
    simp_all

end Pipelined

/-! ### Stage names -/

theorem Buffer.stageName_injective (b : Buffer) : Function.Injective b.stageName :=
  append_repr_injective _

theorem Buffer.stageName_length (b : Buffer) (j : Nat) :
    b.name.length + 6 ≤ (b.stageName j).length := by
  show b.name.length + 6 ≤ (b.name ++ "_stage" ++ toString j).length
  simp only [String.length_append]
  have suffix : "_stage".length = 6 := rfl
  omega

/-- Buffers whose names differ but have one length share no stage name. -/
theorem Buffer.stageName_ne {b c : Buffer} (hlen : b.name.length = c.name.length)
    (hne : b.name ≠ c.name) (i j : Nat) : b.stageName i ≠ c.stageName j := by
  intro same
  have chars := congrArg String.toList same
  change (b.name ++ "_stage" ++ toString i).toList =
    (c.name ++ "_stage" ++ toString j).toList at chars
  simp only [String.toList_append, List.append_assoc] at chars
  have prefixes := List.append_inj chars (by rw [String.length_toList, String.length_toList, hlen])
  exact hne (String.toList_inj.1 prefixes.1)

/-! ### The stages after pipelining -/

section Completion

variable {o : CompileOptions} {k k₁ : Kernel}

/-- The second swizzle stage has nothing to treat when no buffer was declared past the count it is
given. -/
theorem optimizeNewSwizzles_of_declared {known : Nat} (h : k.buffers.size ≤ known) :
    (optimizeNewSwizzles o known).run k = .ok (.ok [], k) :=
  swizzleWhere_of_untreated fun b t => by
    have lt := t.lt
    have wanted := t.wanted
    simp only [decide_eq_true_eq] at wanted
    omega

theorem checkResolved_of_layouts (h : ∀ x ∈ k.buffers.toList, x.layout.isSome) :
    k.checkResolved = .ok () := by
  unfold Kernel.checkResolved
  rw [List.find?_eq_none.2 fun x hx => by simpa using Option.ne_none_iff_isSome.2 (h x hx)]

/-- **Lowering completes after its first stages** when they leave a sound kernel that converts
nothing, whose types can all be cast to and whose buffers all have a layout, for a target whose
budgets stay below `2 ^ 31` bytes: the passes keep the buffers and the loops' headers, the second
swizzle stage finds no new buffer, and the final checks pass. -/
theorem lower_of_pipelined (hv : o.target.vectorBytes < 2 ^ 31)
    (ha : o.target.atomicBytes < 2 ^ 31) (h : (layoutAndPipeline o).run k = .ok (.ok (), k₁))
    (hs : k₁.Sound) (hc : k₁.ConvertsNothing) (hcast : k₁.Castable)
    (hres : ∀ x ∈ k₁.buffers.toList, x.layout.isSome) :
    ∃ k', (lower o).run k = .ok (.ok (), k') ∧ k'.buffers = k₁.buffers ∧ k₁.LoopsKept k' := by
  obtain ⟨c, k', hpass, hs', hbuf, hkept⟩ := runPasses_standard_runs hv ha hs hc hcast
  refine ⟨k', ?_, hbuf, hkept⟩
  unfold lower
  rw [KernelM.run_bind_of_ok h, KernelM.run_get_bind]
  dsimp only
  rw [KernelM.run_bind_of_ok (KernelM.run_lift_eq_ok.2 hpass)]
  -- The final checks pass on the sound kernel the passes leave, over the buffers laid out before.
  have checks : (KernelM.lift (KernelM.check Kernel.validate) >>= fun _ =>
      KernelM.lift (KernelM.check Kernel.checkResolved) : KernelM LowerError Unit).run k' =
        .ok (.ok (), k') := by
    have valid := (Kernel.sound_iff hs'.toFormed).1 hs'
    have resolved := checkResolved_of_layouts (k := k') (by rw [hbuf]; exact hres)
    rw [KernelM.run_bind_of_ok
      (KernelM.run_lift_eq_ok.2 (KernelM.run_check_eq_ok.2 ⟨valid, rfl⟩))]
    exact KernelM.run_lift_eq_ok.2 (KernelM.run_check_eq_ok.2 ⟨resolved, rfl⟩)
  split
  · rw [KernelM.run_bind_of_ok
      (optimizeNewSwizzles_of_declared (Nat.le_of_eq (congrArg Array.size hbuf)))]
    exact checks
  · exact checks

end Completion

namespace Catalog

variable {kt d : Nat}

/-! ### The product up to pipelining -/

/-- The pipelined loops of the product are its one K loop, at its declared depth. -/
theorem gemm_pipelineLoops {sa sb : Option Swizzle} {β : Type}
    (f : List LoopId → KernelM LowerError β) :
    (pipelineLoops { target := Target.sm80 } >>= f).run (gemmLaidOut kt d sa sb) =
      (pipelineLoop ⟨0⟩ d >>= fun _ => f [⟨0⟩]).run (gemmLaidOut kt d sa sb) := by
  unfold pipelineLoops
  rw [bind_assoc, KernelM.run_get_bind]
  show (List.mapM _ [((⟨0⟩ : LoopId), d)] >>= f).run _ = _
  simp only [List.mapM_cons, List.mapM_nil, bind_assoc, pure_bind]

/-- Everything before pipelining ends on the laid-out product with both tiles swizzled, which is
sound. -/
theorem gemm_prepared (hk : 0 < kt) (hw : 32 * kt < 2 ^ 32) (hd : 0 < d) :
    ∃ sa ∈ stagedCandidates, ∃ sb ∈ stagedCandidates,
      (gemmLaidOut kt d (some sa) (some sb)).Sound ∧
      (layoutAndPipeline { target := Target.sm80 }).run (gemmKernel kt d) =
        (pipelineLoop ⟨0⟩ d).run (gemmLaidOut kt d (some sa) (some sb)) := by
  obtain ⟨-, hs₀⟩ := gemm_run hk hw hd
  obtain ⟨sa, hsa, sb, hsb, swizzled⟩ := @gemm_swizzles kt d
  have hs₂ := swizzleWhere_keeps_sound (assignLayouts_keeps_sound hs₀ gemm_assignLayouts) swizzled
  refine ⟨sa, hsa, sb, hsb, hs₂, ?_⟩
  have valid : (KernelM.lift (KernelM.check Kernel.validate) : KernelM LowerError Unit).run
      (gemmKernel kt d) = .ok (.ok (), gemmKernel kt d) :=
    KernelM.run_lift_eq_ok.2
      (KernelM.run_check_eq_ok.2 ⟨(Kernel.sound_iff hs₀.toFormed).1 hs₀, rfl⟩)
  unfold layoutAndPipeline
  rw [KernelM.run_bind_of_ok valid, KernelM.run_bind_of_ok gemm_assignLayouts]
  dsimp only
  rw [if_pos rfl, KernelM.run_bind_of_ok swizzled, gemm_pipelineLoops, bind_pure_unit]

/-! ### The checks of the K loop -/

/-- The K loop's body: the two staging loads, then the product. -/
def gemmEntries : List (OpId × Stage) := [(⟨1⟩, .load), (⟨2⟩, .load), (⟨3⟩, .compute)]

theorem gemm_entries {sa sb : Option Swizzle} :
    ((gemmLaidOut kt d sa sb).loop ⟨0⟩).body.map
      (fun h => (h, classifyStage (gemmLaidOut kt d sa sb) ((gemmLaidOut kt d sa sb).op h))) =
      gemmEntries := rfl

/-- Above depth one, the K loop passes its checks when it has the `d - 1` trips to run ahead,
and stages both tiles. -/
theorem gemm_checkPipelinable {sa sb : Option Swizzle} (hgt : 1 < d) (hle : d ≤ kt + 1) :
    checkPipelinable (gemmLaidOut kt d sa sb) ⟨0⟩ d gemmEntries = .ok [⟨2⟩, ⟨3⟩] := by
  unfold checkPipelinable
  have extent : ((gemmLaidOut kt d sa sb).loop ⟨0⟩).extent = kt := rfl
  simp only [extent, show ¬ kt < d - 1 by omega, if_false]
  cbv

/-- A depth past `kTiles + 1` would run ahead of the last trip. -/
theorem gemm_tripCount_refused {sa sb : Option Swizzle} (hgt : kt + 1 < d) :
    checkPipelinable (gemmLaidOut kt d sa sb) ⟨0⟩ d gemmEntries =
      .error (.pipelineDependency "k_loop" d none none .tripCountTooSmall) := by
  unfold checkPipelinable
  have extent : ((gemmLaidOut kt d sa sb).loop ⟨0⟩).extent = kt := rfl
  simp only [extent, show kt < d - 1 by omega, if_true]
  rfl

/-! ### Pipelining the K loop -/

/-- A staging tile of the product, row-major and swizzled by a listed candidate, can be declared
again as a ring instance. -/
theorem stagingTile_declared {name : String} {shape : List Nat} {s : Swizzle}
    (hs : s ∈ stagedCandidates) (hshape : shape = [64, 32] ∨ shape = [32, 64]) :
    ({ name := name, shape := shape, dtype := .f16, scope := .shared,
       layout := some (.rowMajor shape), swizzle := some s } : Buffer).Declared := by
  refine ⟨?_, (fun h => nomatch h), fun L hL => ?_, fun s' hs' => ?_⟩
  · rcases hshape with rfl | rfl <;> simp
  · cases hL
    exact ⟨rfl, by simp [Layout.rowMajor, Layout.isFragment, Layout.asFragment?]⟩
  · -- The tile has the 2048 elements the candidates were listed for.
    cases hs'
    have bijective := (SwizzleFamily.listed_listing.member s hs).2.2.2.2
    rcases hshape with rfl | rfl <;> exact ⟨rfl, ⟨_, rfl⟩, 2048, rfl, bijective⟩

/-- The stage names of the tiles' rings are new, at every depth. -/
theorem gemm_ringNames {sa sb : Option Swizzle} (n : Nat) :
    (((gemmLaidOut kt d sa sb).buffers.toList ++
      [⟨2⟩, ⟨3⟩].flatMap ((gemmLaidOut kt d sa sb).ringInstances n)).map (·.name)).Nodup := by
  set K := gemmLaidOut kt d sa sb
  have base : K.buffers.toList.map (·.name) = ["a", "b", "s_a", "s_b", "acc", "c"] := rfl
  have short : ∀ a ∈ ["a", "b", "s_a", "s_b", "acc", "c"], a.length ≤ 3 := by decide
  have stages : ∀ b : BufferId, (K.ringInstances n b).map (·.name) =
      (List.range' 1 (n - 1)).map (K.buffer b).stageName := fun b => by
    simp only [Kernel.ringInstances, List.map_map]
    rfl
  simp only [List.map_append, List.flatMap_cons, List.flatMap_nil, List.append_nil, base, stages]
  -- A stage name is longer than every name of the product, and those of `s_a` and `s_b` differ
  -- in the buffer's name.
  have longer : ∀ b : BufferId, (K.buffer b).name.length = 3 →
      ∀ a ∈ ["a", "b", "s_a", "s_b", "acc", "c"],
        ∀ y ∈ (List.range' 1 (n - 1)).map (K.buffer b).stageName, a ≠ y := by
    intro b hb a ha y hy same
    obtain ⟨j, -, rfl⟩ := List.mem_map.1 hy
    have := (K.buffer b).stageName_length j
    have := short a ha
    rw [same] at this
    omega
  have nameA : (K.buffer ⟨2⟩).name = "s_a" := rfl
  have nameB : (K.buffer ⟨3⟩).name = "s_b" := rfl
  have numbered : ∀ b : BufferId, ((List.range' 1 (n - 1)).map (K.buffer b).stageName).Nodup :=
    fun b => (List.nodup_range' 1).map (K.buffer b).stageName_injective
  refine List.nodup_append.2 ⟨by decide, List.nodup_append.2 ⟨numbered _, numbered _, ?_⟩, ?_⟩
  · intro y hy y' hy'
    obtain ⟨i, -, rfl⟩ := List.mem_map.1 hy
    obtain ⟨j, -, rfl⟩ := List.mem_map.1 hy'
    exact Buffer.stageName_ne (by rw [nameA, nameB]; decide) (by rw [nameA, nameB]; decide) i j
  · intro a ha y hy
    rcases List.mem_append.1 hy with hy | hy
    · exact longer ⟨2⟩ (by rw [nameA]; decide) a ha y hy
    · exact longer ⟨3⟩ (by rw [nameB]; decide) a ha y hy

/-- The product's factors are read in their own type. -/
theorem gemm_convertsNothing {sa sb : Option Swizzle} :
    (gemmLaidOut kt d sa sb).ConvertsNothing := by
  rintro ⟨_ | _ | _ | _ | _ | n⟩ - <;> rfl

theorem gemm_castable {sa sb : Option Swizzle} : (gemmLaidOut kt d sa sb).Castable := by
  intro x hx
  simp [gemmLaidOut] at hx
  rcases hx with rfl | rfl | rfl | rfl | rfl | rfl <;> intro h <;> cases h

theorem gemm_resolved {sa sb : Option Swizzle} :
    ∀ x ∈ (gemmLaidOut kt d sa sb).buffers.toList, x.layout.isSome := by
  intro x hx
  simp [gemmLaidOut] at hx
  rcases hx with rfl | rfl | rfl | rfl | rfl | rfl <;> rfl

/-- **The K loop pipelines at every depth its trip count admits.** On the laid-out, swizzled
product, pipelining the K loop at a depth `1 ≤ d ≤ kTiles + 1` succeeds into a sound kernel that
converts nothing, can be cast to and has every buffer laid out, with the product's buffers as
they were. The loop records an expansion of depth `d` with `kTiles - (d - 1)` steady trips and,
above depth one, a ring of `d` instances for each staging tile. -/
theorem gemm_pipelines {sa sb : Swizzle} (hs : (gemmLaidOut kt d (some sa) (some sb)).Sound)
    (hsa : sa ∈ stagedCandidates) (hsb : sb ∈ stagedCandidates) (hd : 0 < d) (hle : d ≤ kt + 1) :
    ∃ k' rings, (pipelineLoop ⟨0⟩ d).run (gemmLaidOut kt d (some sa) (some sb)) =
        .ok (.ok (), k') ∧
      k'.Sound ∧ k'.ConvertsNothing ∧ k'.Castable ∧ (∀ x ∈ k'.buffers.toList, x.layout.isSome) ∧
      (∀ b : BufferId, b.idx < 6 → k'.buffer b = (gemmLaidOut kt d (some sa) (some sb)).buffer b) ∧
      (k'.loop ⟨0⟩).header = ("k_loop", kt, some (d, kt - (d - 1), rings)) ∧
      (1 < d → List.Forall₂ (fun b r => r.logical = b ∧ r.instances.length = d)
        [⟨2⟩, ⟨3⟩] rings) := by
  set K := gemmLaidOut kt d (some sa) (some sb)
  -- Above depth one the checks stage both tiles; at depth one they stage nothing, and no ring
  -- would have an instance.
  obtain ⟨staged, hcheck, htiles, hflat, hboth⟩ : ∃ staged : List BufferId,
      (if 1 < d then checkPipelinable K ⟨0⟩ d
        ((K.loop ⟨0⟩).body.map fun h => (h, classifyStage K (K.op h))) else .ok []) =
          .ok staged ∧
      (∀ b ∈ staged, b = ⟨2⟩ ∨ b = ⟨3⟩) ∧
      staged.flatMap (K.ringInstances d) = [⟨2⟩, ⟨3⟩].flatMap (K.ringInstances d) ∧
      (1 < d → staged = [⟨2⟩, ⟨3⟩]) := by
    by_cases h1 : 1 < d
    · refine ⟨[⟨2⟩, ⟨3⟩], ?_, by simp, rfl, fun _ => rfl⟩
      rw [if_pos h1, gemm_entries, gemm_checkPipelinable h1 hle]
    · obtain rfl : d = 1 := by omega
      exact ⟨[], rfl, by simp, by simp [Kernel.ringInstances], fun h => absurd h h1⟩
  have hdecl : ∀ b ∈ staged, (K.buffer b).Declared := fun b hb => by
    rcases htiles b hb with rfl | rfl
    · exact stagingTile_declared hsa (.inl rfl)
    · exact stagingTile_declared hsb (.inr rfl)
  obtain ⟨k', run, hbuf, ⟨p, hloops, hdepth, htrips, hrings⟩, halike, hmade⟩ :=
    pipelineLoop_runs hs Nat.one_pos rfl hd hcheck hdecl (by rw [hflat]; exact gemm_ringNames d)
  have keeps := keepsBuffers_of_append hbuf
  have hstaged : ∀ b ∈ staged, b.idx < K.buffers.size := fun b hb => by
    rcases htiles b hb with rfl | rfl <;> show _ < 6 <;> decide
  refine ⟨k', p.rings, run, pipelineLoop_keeps_sound hs run,
    gemm_convertsNothing.pipelined hs.toFormed hbuf halike hmade, gemm_castable.append_rings hbuf,
    layouts_append_rings gemm_resolved hstaged hbuf, fun b hb => keeps.buffer b hb, ?_,
    fun h1 => by rw [← hboth h1]; exact hrings⟩
  have hloop : k'.loop ⟨0⟩ = { K.loop ⟨0⟩ with expansion := some p } := by
    rw [Kernel.loop, Kernel.loop?, hloops]
    rfl
  rw [hloop]
  show ("k_loop", kt, some (p.depth, p.steadyTrips, p.rings)) = _
  rw [hdepth, htrips]
  rfl

/-! ### Lowering the product -/

/-- **The reference product lowers at every depth its trip count admits.** For every trip count
whose width fits a 32-bit word and every positive depth, `gemm kTiles d` builds a kernel. At a
depth up to `kTiles + 1`, lowering it for the sm80 target succeeds: every buffer is laid out,
`s_a` and `s_b` carry swizzles, and `k_loop` is expanded at the depth with `kTiles + 1 - d`
steady trips and, above depth one, rings of `d` instances for `s_a` and `s_b`. At a deeper depth
lowering fails: the loop has too few trips. -/
theorem gemm_lowers (kTiles d : Nat) (hk : 0 < kTiles) (hw : 32 * kTiles < 2 ^ 32) (hd : 0 < d) :
    ∃ K, (gemm kTiles d).run = .ok (.ok K) ∧
      (d ≤ kTiles + 1 → ∃ K', (lower { target := Target.sm80 }).run K = .ok (.ok (), K') ∧
        (∀ x ∈ K'.buffers.toList, x.layout.isSome) ∧
        (K'.buffer ⟨2⟩).name = "s_a" ∧ (K'.buffer ⟨2⟩).swizzle.isSome ∧
        (K'.buffer ⟨3⟩).name = "s_b" ∧ (K'.buffer ⟨3⟩).swizzle.isSome ∧
        (K'.loop ⟨0⟩).name = "k_loop" ∧
        ∃ p, (K'.loop ⟨0⟩).expansion = some p ∧ p.depth = d ∧ p.steadyTrips = kTiles + 1 - d ∧
          (1 < d → List.Forall₂ (fun b r => r.logical = b ∧ r.instances.length = d)
            [⟨2⟩, ⟨3⟩] p.rings)) ∧
      (kTiles + 1 < d → ∃ K', (lower { target := Target.sm80 }).run K =
        .ok (.error (.pipelineDependency "k_loop" d none none .tripCountTooSmall), K')) := by
  obtain ⟨hrun, -⟩ := gemm_run hk hw hd
  obtain ⟨sa, hsa, sb, hsb, hs, prepared⟩ := gemm_prepared hk hw hd
  refine ⟨_, hrun, fun hle => ?_, fun hgt => ?_⟩
  · obtain ⟨K₃, rings, run, hs₃, hc₃, hcast₃, hres₃, hbuf₃, header₃, hrings⟩ :=
      gemm_pipelines hs hsa hsb hd hle
    obtain ⟨K', hlower, hbuf, hkept⟩ :=
      lower_of_pipelined (by decide) (by decide) (prepared.trans run) hs₃ hc₃ hcast₃ hres₃
    have hbuffer : ∀ b : BufferId, b.idx < 6 →
        K'.buffer b = (gemmLaidOut kTiles d (some sa) (some sb)).buffer b := fun b hb => by
      rw [← hbuf₃ b hb]
      simp only [Kernel.buffer, Kernel.buffer?, hbuf]
    -- The passes keep the K loop's header as pipelining left it.
    have header := (hkept.loop_header ⟨0⟩).trans header₃
    simp only [LoopNest.header, Prod.mk.injEq, Option.map_eq_some_iff] at header
    obtain ⟨hname, -, p, hp, hdepth, htrips, rfl⟩ := header
    refine ⟨K', hlower, by rw [hbuf]; exact hres₃, ?_, ?_, ?_, ?_, hname, p, hp, hdepth,
      by omega, hrings⟩ <;> rw [hbuffer _ (by decide)] <;> rfl
  · have refused := pipelineLoop_refused (k := gemmLaidOut kTiles d (some sa) (some sb))
      (l := ⟨0⟩) (d := d) Nat.one_pos (by omega)
      (by rw [gemm_entries]; exact gemm_tripCount_refused hgt)
    unfold lower
    exact ⟨_, KernelM.run_bind_eq_error.2 (.inl (prepared.trans refused))⟩

/-- The depths the product is tried at: four trips lower two deep, two trips are refused four
deep. -/
theorem gemm_four_two_lowers_two_four_refused :
    (0 < 4 ∧ 32 * 4 < 2 ^ 32 ∧ 0 < 2 ∧ 0 < 2 ∧ 32 * 2 < 2 ^ 32 ∧ 0 < 4) ∧
      (∃ K, (gemm 4 2).run = .ok (.ok K) ∧
        ∃ K', (lower { target := Target.sm80 }).run K = .ok (.ok (), K')) ∧
      ∃ K, (gemm 2 4).run = .ok (.ok K) ∧ ∃ K', (lower { target := Target.sm80 }).run K =
        .ok (.error (.pipelineDependency "k_loop" 4 none none .tripCountTooSmall), K') := by
  obtain ⟨K, hK, lowers, -⟩ := gemm_lowers 4 2 (by decide) (by decide) (by decide)
  obtain ⟨K', hK', -⟩ := lowers (by decide)
  obtain ⟨L, hL, -, refused⟩ := gemm_lowers 2 4 (by decide) (by decide) (by decide)
  exact ⟨by decide, ⟨K, hK, K', hK'⟩, L, hL, refused (by decide)⟩

end Catalog

end TileKernel
