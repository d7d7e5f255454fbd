import TileKernel.Catalog
import TileKernel.Proofs.PipelineProgress
import TileKernel.Proofs.ConflictFree
import TileKernel.Proofs.Layout.Dense

/-!
# The reference matrix product builds

The catalog builds its kernels in four kinds of step: declaring a buffer, opening a loop, and
appending an op to the body or to a loop's body after the ops it waits for. On a kernel built by
the building calls each step succeeds when its arguments pass the checks the calls make, and
leaves a kernel built by the calls again (`Catalog.run_declare`, `Catalog.run_pushLoop`,
`Catalog.run_append`, `Catalog.run_appendTo`).

Stepping through `Catalog.gemm kTiles depth` with them gives, for every positive trip count whose
`32 * kTiles` columns fit a 32-bit word and every positive depth, the kernel
`Catalog.gemmKernel kTiles depth` (`Catalog.gemm_run`): the operands `a` and `b`, their staging
tiles `s_a` and `s_b`, the accumulator and the output; the clear, the two staging loads and the
product in the K loop, and the store. Only the widths of the global operands and the loop's trip
count and depth depend on the parameters, and the checks read them only where a window must
divide its axis. The kernel is sound: its dependencies point back in program order, and the
loop's windows, one per iteration, cover the global operands exactly.
-/

set_option autoImplicit false

namespace TileKernel

namespace Kernel

variable {k : Kernel}

/-- The kernel in which `h` also waits for `on`, the outcome of a dependency the graph admits. -/
def withDependency (k : Kernel) (h on : OpId) : Kernel :=
  k.modifyOp h fun x => { x with deps := on.insertSorted x.deps }

theorem push_eq {h : OpId} (hc : k.checkUnplaced h = .ok ()) :
    k.push h = .ok { k with body := k.body ++ [.op h] } := by
  simp only [push, hc, bind, Except.bind]
  rfl

theorem pushLoop_eq {n : LoopNest} (he : n.extent ≠ 0) (hd : n.depth ≠ some 0) (hb : n.body = [])
    (hx : n.expansion = none) :
    k.pushLoop n = .ok (⟨k.loops.size⟩,
      { k with loops := k.loops.push n, body := k.body ++ [.loop ⟨k.loops.size⟩] }) := by
  simp [pushLoop, he, hd, hb, hx]
  rfl

theorem pushToLoop_eq {l : LoopId} {h : OpId} (hc : k.checkUnplaced h = .ok ())
    (hl : l.idx < k.loops.size) (hx : (k.loop l).expansion = none) :
    k.pushToLoop l h = .ok (k.modifyLoop l fun n => { n with body := n.body ++ [h] }) := by
  have hl' : k.tryLoop l = .ok (k.loop l) := by
    simp [tryLoop, loop, loop?, hl]
  simp [pushToLoop, hc, hl', hx, bind, Except.bind]
  rfl

/-- An op just added to a formed kernel is placed nowhere yet. -/
theorem checkUnplaced_push (hF : k.Formed) (o : TileOp) :
    ({ k with ops := k.ops.push o } : Kernel).checkUnplaced ⟨k.ops.size⟩ = .ok () := by
  refine checkUnplaced_eq (by simp) ?_ fun hr => Nat.lt_irrefl _ (hF.removedExist _ hr)
  cases hp : ({ k with ops := k.ops.push o } : Kernel).placement ⟨k.ops.size⟩ with
  | none => rfl
  | some b =>
    have placed := (placement_isSome_iff.1 (by rw [hp]; rfl)).1
    exact absurd (hF.placedExist _ placed) (Nat.lt_irrefl _)

/-- Nothing waits for an op just added that waits for nothing. -/
theorem fresh_unwaited (hd : k.DepsExist) {o : TileOp} (ho : o.deps = []) :
    ∀ x, (⟨k.ops.size⟩ : OpId) ∉ (({ k with ops := k.ops.push o } : Kernel).op x).deps := by
  intro x hx
  by_cases hlt : x.idx < k.ops.size
  · rw [op_push hlt] at hx
    exact Nat.lt_irrefl _ (hd x _ hx)
  · by_cases heq : x.idx = k.ops.size
    · obtain rfl : x = ⟨k.ops.size⟩ := by
        cases x
        simp_all
      rw [op_push_self, ho] at hx
      exact List.not_mem_nil hx
    · rw [deps_op_of_le (by simp; omega)] at hx
      exact List.not_mem_nil hx

/-- The window check passes when every operand names a buffer and every window is non-empty and
divides its axis. -/
theorem checkWindows_eq_ok {op : TileOp}
    (h : ∀ o ∈ op.operands, ∃ x, k.buffer? o.buffer = some x ∧
      ∀ s, o.step = some s → ∃ n, x.shape[s.axis]? = some n ∧ 0 < s.extent ∧ n % s.extent = 0) :
    k.checkWindows op = .ok () := by
  unfold checkWindows
  refine forM_except_of_ok fun o ho => ?_
  obtain ⟨x, hx, hs⟩ := h o ho
  simp only [tryBuffer, hx, bind, Except.bind]
  rcases hstep : o.step with _ | s
  · rfl
  · obtain ⟨n, hn, hpos, hmod⟩ := hs s hstep
    simp [hn, hpos, hmod]
    rfl

/-- The windows of a copy from one window of a buffer into the whole of another pass when the
window is non-empty and divides its axis. -/
theorem checkWindows_window_copy {name : String} {a b : BufferId} {axis extent m : Nat}
    {x y : Buffer} (ha : k.buffer? a = some x) (hb : k.buffer? b = some y)
    (hm : x.shape[axis]? = some m) (he : 0 < extent) (hdiv : m % extent = 0) :
    k.checkWindows (TileOp.copy name (.stepped a axis extent) (.whole b)) = .ok () := by
  refine checkWindows_eq_ok fun o ho => ?_
  simp only [TileOp.operands, TileOp.copy, List.mem_append, List.mem_singleton] at ho
  rcases ho with rfl | rfl
  · refine ⟨x, ha, fun s hs => ?_⟩
    cases hs
    exact ⟨m, hm, he, hdiv⟩
  · exact ⟨y, hb, fun s hs => by cases hs⟩

/-- The check of a copy: its windows, two distinct buffers of one element type, one tile. -/
theorem checkOperands_copy {name : String} {src dst : Operand}
    (hw : k.checkWindows (TileOp.copy name src dst) = .ok ()) (hb : src.buffer ≠ dst.buffer)
    (hd : (k.buffer src.buffer).dtype = (k.buffer dst.buffer).dtype)
    (hs : k.tileShapeOf src = k.tileShapeOf dst) :
    k.checkOperands (TileOp.copy name src dst) = .ok () := by
  unfold checkOperands
  simp only [TileOp.copy] at hw ⊢
  simp [OpKind.arity, hw, hb, hd, hs, bind, Except.bind]
  rfl

end Kernel

/-! ### The building steps -/

namespace Catalog

variable {k : Kernel}

/-- Declaring a buffer under a fresh name with a non-empty shape of non-zero extents (of rank 2
in registers) declares it after the others. -/
theorem run_declare (name : String) (shape : Shape) (dtype : Scalar) (scope : Scope) {i : Nat}
    (hk : k.Built) (hi : k.buffers.size = i) (hname : ∀ x ∈ k.buffers, x.name ≠ name)
    (hshape : shape ≠ [] ∧ 0 ∉ shape) (hrank : scope = .fragment → shape.length = 2) :
    (declare name shape dtype scope).run k =
        .ok (.ok ⟨i⟩, { k with buffers := k.buffers.push { name, shape, dtype, scope } }) ∧
      Kernel.Built { k with buffers := k.buffers.push { name, shape, dtype, scope } } := by
  subst hi
  have h := Kernel.addBuffer_eq (b := { name, shape, dtype, scope }) hname hshape hrank rfl
  exact ⟨KernelM.run_edit.2 h, hk.imp fun _ r => r.tail (.addBuffer h)⟩

/-- Opening a loop with a positive trip count and depth and an empty body appends it to the top
level. -/
theorem run_pushLoop (n : LoopNest) {i : Nat} (hk : k.Built) (hi : k.loops.size = i)
    (he : n.extent ≠ 0) (hd : n.depth ≠ some 0) (hb : n.body = []) (hx : n.expansion = none) :
    (KernelM.edit (·.pushLoop n)).run k =
        .ok (.ok ⟨i⟩, { k with loops := k.loops.push n, body := k.body ++ [.loop ⟨i⟩] }) ∧
      Kernel.Built { k with loops := k.loops.push n, body := k.body ++ [.loop ⟨i⟩] } := by
  subst hi
  have h := Kernel.pushLoop_eq (k := k) he hd hb hx
  exact ⟨KernelM.run_edit.2 h, hk.imp fun _ r => r.tail (.pushLoop h)⟩

/-- An op that nothing waits for may wait for any other ops of the arena: each dependency closes
no cycle. -/
theorem run_depend {h : OpId} : ∀ {after : List OpId} {k : Kernel}, k.Built → h.idx < k.ops.size →
    (∀ x, h ∉ (k.op x).deps) → (∀ a ∈ after, a.idx < k.ops.size ∧ a ≠ h) →
    (depend h after).run k = .ok (.ok (), after.foldl (Kernel.withDependency · h ·) k) ∧
      (after.foldl (Kernel.withDependency · h ·) k).Built
  | [], k, hk, _, _, _ => ⟨rfl, hk⟩
  | a :: rest, k, hk, hh, hfree, hafter => by
    obtain ⟨ha, hne⟩ := hafter a List.mem_cons_self
    have hd := Kernel.addDependency_eq hh ha (Kernel.dependsOn_fresh hk.formed.depsExist hfree hne)
    -- Still nothing waits for `h`: only `h` gained a dependency, and not on itself.
    have hfree' : ∀ x, h ∉ ((k.withDependency h a).op x).deps := fun x hx => by
      rw [Kernel.withDependency, Kernel.op_modifyOp hh] at hx
      split_ifs at hx
      · rcases Kernel.mem_insertSorted.1 hx with rfl | hx
        · exact hne rfl
        · exact hfree x hx
      · exact hfree x hx
    obtain ⟨hrun, hbuilt⟩ := run_depend (hk.imp fun _ r => r.tail (.addDependency hd))
      (by simpa [Kernel.withDependency, Kernel.modifyOp] using hh) hfree'
      (fun b hb => by
        simpa [Kernel.withDependency, Kernel.modifyOp] using hafter b (List.mem_cons_of_mem _ hb))
    refine ⟨?_, hbuilt⟩
    rw [depend, List.forM, KernelM.run_bind_of_ok (KernelM.run_update.2 hd)]
    exact hrun

/-- Appending an op that passes the operand checks and waits for nothing yet places it last in
the body, then makes it wait for `after`. -/
theorem run_append (op : TileOp) (after : List OpId) {i : Nat} (hk : k.Built) (hi : k.ops.size = i)
    (hc : k.checkOperands op = .ok ()) (ho : op.deps = []) (hafter : ∀ a ∈ after, a.idx < i) :
    (append op after).run k = .ok (.ok ⟨i⟩, after.foldl (Kernel.withDependency · ⟨i⟩ ·)
        { k with ops := k.ops.push op, body := k.body ++ [.op ⟨i⟩] }) ∧
      (after.foldl (Kernel.withDependency · ⟨i⟩ ·)
        { k with ops := k.ops.push op, body := k.body ++ [.op ⟨i⟩] }).Built := by
  subst hi
  have hadd := Kernel.addOp_eq hc (by simp [ho])
  have hk₁ : Kernel.Built { k with ops := k.ops.push op } := hk.imp fun _ r => r.tail (.addOp hadd)
  have hpush := Kernel.push_eq (Kernel.checkUnplaced_push hk.formed op)
  have hk₂ : Kernel.Built { k with ops := k.ops.push op, body := k.body ++ [.op ⟨k.ops.size⟩] } :=
    hk₁.imp fun _ r => r.tail (.push hpush)
  obtain ⟨hdep, hbuilt⟩ := run_depend hk₂ (by simp) (Kernel.fresh_unwaited hk.formed.depsExist ho)
    (fun a ha => ⟨by simpa using Nat.lt_succ_of_lt (hafter a ha),
      fun he => Nat.lt_irrefl _ (he ▸ hafter a ha)⟩)
  refine ⟨?_, hbuilt⟩
  rw [append, KernelM.run_bind_of_ok (KernelM.run_edit.2 hadd),
    KernelM.run_bind_of_ok (KernelM.run_update.2 hpush), KernelM.run_bind_of_ok hdep]
  rfl

/-- Appending such an op to the body of a loop not yet pipelined places it last there. -/
theorem run_appendTo (l : LoopId) (op : TileOp) (after : List OpId) {i : Nat} (hk : k.Built)
    (hi : k.ops.size = i) (hl : l.idx < k.loops.size) (hx : (k.loop l).expansion = none)
    (hc : k.checkOperands op = .ok ()) (ho : op.deps = []) (hafter : ∀ a ∈ after, a.idx < i) :
    (appendTo l op after).run k = .ok (.ok ⟨i⟩, after.foldl (Kernel.withDependency · ⟨i⟩ ·)
        (({ k with ops := k.ops.push op } : Kernel).modifyLoop l
          fun n => { n with body := n.body ++ [⟨i⟩] })) ∧
      (after.foldl (Kernel.withDependency · ⟨i⟩ ·)
        (({ k with ops := k.ops.push op } : Kernel).modifyLoop l
          fun n => { n with body := n.body ++ [⟨i⟩] })).Built := by
  subst hi
  have hadd := Kernel.addOp_eq hc (by simp [ho])
  have hk₁ : Kernel.Built { k with ops := k.ops.push op } := hk.imp fun _ r => r.tail (.addOp hadd)
  have hpush := Kernel.pushToLoop_eq (k := { k with ops := k.ops.push op })
    (Kernel.checkUnplaced_push hk.formed op) hl hx
  have hk₂ := hk₁.imp fun _ r => r.tail (.pushToLoop hpush)
  obtain ⟨hdep, hbuilt⟩ := run_depend hk₂ (by simp [Kernel.modifyLoop])
    (Kernel.fresh_unwaited hk.formed.depsExist ho)
    (fun a ha => ⟨by simpa [Kernel.modifyLoop] using Nat.lt_succ_of_lt (hafter a ha),
      fun he => Nat.lt_irrefl _ (he ▸ hafter a ha)⟩)
  refine ⟨?_, hbuilt⟩
  rw [appendTo, KernelM.run_bind_of_ok (KernelM.run_edit.2 hadd),
    KernelM.run_bind_of_ok (KernelM.run_update.2 hpush), KernelM.run_bind_of_ok hdep]
  rfl

/-- A builder whose steps end on a kernel that validates answers that kernel. -/
theorem run_build {name : String} {steps : KernelM KernelError Unit} {k : Kernel}
    (hs : steps.run { name } = .ok (.ok (), k)) (hv : k.validate = .ok ()) :
    (build name steps).run = .ok (.ok k) := by
  have hrun : (do steps; KernelM.check Kernel.validate).run { name } = .ok (.ok (), k) := by
    rw [KernelM.run_bind_of_ok hs]
    exact KernelM.run_check_eq_ok.2 ⟨hv, rfl⟩
  unfold build
  rw [hrun]
  rfl

/-! ### The reference product -/

/-- The kernel `gemm kTiles depth` builds: `c = a * b` for a 64 × 64 output, `a` and `b`
`32 * kTiles` deep and staged 32 at a time through shared memory in the K loop. -/
def gemmKernel (kTiles depth : Nat) : Kernel where
  name := "gemm"
  buffers := #[
    { name := "a", shape := [64, 32 * kTiles], dtype := .f16, scope := .global },
    { name := "b", shape := [32 * kTiles, 64], dtype := .f16, scope := .global },
    { name := "s_a", shape := [64, 32], dtype := .f16, scope := .shared },
    { name := "s_b", shape := [32, 64], dtype := .f16, scope := .shared },
    { name := "acc", shape := [64, 64], dtype := .f32, scope := .fragment },
    { name := "c", shape := [64, 64], dtype := .f32, scope := .global }]
  ops := #[
    .fill "clear" zero (.whole ⟨4⟩),
    .copy "load_a" (.stepped ⟨0⟩ 1 32) (.whole ⟨2⟩),
    .copy "load_b" (.stepped ⟨1⟩ 0 32) (.whole ⟨3⟩),
    { product "mma" (.whole ⟨2⟩) (.whole ⟨3⟩) (.whole ⟨4⟩) with deps := [⟨0⟩, ⟨1⟩, ⟨2⟩] },
    { TileOp.copy "store" (.whole ⟨4⟩) (.whole ⟨5⟩) with deps := [⟨3⟩] }]
  loops := #[{ name := "k_loop", extent := kTiles, depth := some depth, body := [⟨1⟩, ⟨2⟩, ⟨3⟩] }]
  body := [.op ⟨0⟩, .loop ⟨0⟩, .op ⟨4⟩]

variable {kTiles depth : Nat}

/-- The builder's steps run to `gemmKernel`, through kernels built by the calls. -/
theorem gemm_steps (hk : 0 < kTiles) (hw : 32 * kTiles < 2 ^ 32) (hd : 0 < depth) :
    (do
        let (acc, mma) ← gemmMainLoop kTiles depth
        let c ← declare "c" [64, 64] .f32 .global
        let _ ← append (.copy "store" (.whole acc) (.whole c)) [mma] :
        KernelM KernelError Unit).run { name := "gemm" } =
      .ok (.ok (), gemmKernel kTiles depth) ∧ (gemmKernel kTiles depth).Built := by
  have b₀ : Kernel.Built { name := "gemm" } := ⟨"gemm", .refl⟩
  unfold gemmMainLoop
  simp only [bind_assoc]
  rw [KernelM.run_bind_of_ok (KernelM.run_liftM_eq_ok.2 ⟨Word.mul_eq_ok hw, rfl⟩)]
  -- The buffers: only the widths of `a` and `b` are symbolic, and they are not zero.
  obtain ⟨r₁, b₁⟩ := run_declare "a" [64, 32 * kTiles] .f16 .global (i := 0) b₀ rfl (by simp)
    (by simp; omega) (by simp)
  rw [KernelM.run_bind_of_ok r₁]
  dsimp only at b₁ ⊢
  obtain ⟨r₂, b₂⟩ := run_declare "b" [32 * kTiles, 64] .f16 .global (i := 1) b₁ rfl (by simp)
    (by simp; omega) (by simp)
  rw [KernelM.run_bind_of_ok r₂]
  dsimp only at b₂ ⊢
  obtain ⟨r₃, b₃⟩ := run_declare "s_a" [64, 32] .f16 .shared (i := 2) b₂ rfl (by simp) (by simp)
    (by simp)
  rw [KernelM.run_bind_of_ok r₃]
  dsimp only at b₃ ⊢
  obtain ⟨r₄, b₄⟩ := run_declare "s_b" [32, 64] .f16 .shared (i := 3) b₃ rfl (by simp) (by simp)
    (by simp)
  rw [KernelM.run_bind_of_ok r₄]
  dsimp only at b₄ ⊢
  obtain ⟨r₅, b₅⟩ := run_declare "acc" [64, 64] .f32 .fragment (i := 4) b₄ rfl (by simp) (by simp)
    (by simp)
  rw [KernelM.run_bind_of_ok r₅]
  dsimp only at b₅ ⊢
  -- The ops: the staging loads' windows divide the width, a multiple of 32.
  obtain ⟨r₆, b₆⟩ := run_append (.fill "clear" zero (.whole ⟨4⟩)) [] (i := 0) b₅ rfl rfl rfl
    (by simp)
  rw [KernelM.run_bind_of_ok r₆]
  dsimp only [List.foldl_nil] at b₆ ⊢
  obtain ⟨r₇, b₇⟩ := run_pushLoop { name := "k_loop", extent := kTiles, depth := some depth }
    (i := 0) b₆ rfl (by simp; omega) (by simp; omega) rfl rfl
  rw [KernelM.run_bind_of_ok r₇]
  dsimp only [List.nil_append] at b₇ ⊢
  obtain ⟨r₈, b₈⟩ := run_appendTo ⟨0⟩ (.copy "load_a" (.stepped ⟨0⟩ 1 32) (.whole ⟨2⟩)) [] (i := 1)
    b₇ rfl (by simp) rfl
    (Kernel.checkOperands_copy (Kernel.checkWindows_window_copy rfl rfl rfl (by decide)
      (Nat.mul_mod_right 32 kTiles)) (by decide) rfl rfl) rfl (by simp)
  rw [KernelM.run_bind_of_ok r₈]
  dsimp only [List.foldl_nil] at b₈ ⊢
  obtain ⟨r₉, b₉⟩ := run_appendTo ⟨0⟩ (.copy "load_b" (.stepped ⟨1⟩ 0 32) (.whole ⟨3⟩)) [] (i := 2)
    b₈ rfl (by simp [Kernel.modifyLoop]) rfl
    (Kernel.checkOperands_copy (Kernel.checkWindows_window_copy rfl rfl rfl (by decide)
      (Nat.mul_mod_right 32 kTiles)) (by decide) rfl rfl) rfl (by simp)
  rw [KernelM.run_bind_of_ok r₉]
  dsimp only [List.foldl_nil] at b₉ ⊢
  obtain ⟨r₁₀, b₁₀⟩ := run_appendTo ⟨0⟩ (product "mma" (.whole ⟨2⟩) (.whole ⟨3⟩) (.whole ⟨4⟩))
    [⟨0⟩, ⟨1⟩, ⟨2⟩] (i := 3) b₉ rfl (by simp [Kernel.modifyLoop]) rfl rfl rfl (by simp)
  rw [KernelM.run_bind_of_ok r₁₀]
  dsimp only [List.foldl_cons, List.foldl_nil] at b₁₀ ⊢
  rw [KernelM.run_bind_of_ok KernelM.run_pure]
  obtain ⟨r₁₁, b₁₁⟩ := run_declare "c" [64, 64] .f32 .global (i := 5) b₁₀ rfl
    (by simp [Kernel.withDependency, Kernel.modifyOp, Kernel.modifyLoop]) (by simp) (by simp)
  rw [KernelM.run_bind_of_ok r₁₁]
  obtain ⟨r₁₂, b₁₂⟩ := run_append (.copy "store" (.whole ⟨4⟩) (.whole ⟨5⟩)) [⟨3⟩] (i := 4) b₁₁ rfl
    rfl rfl (by simp)
  rw [KernelM.run_bind_of_ok r₁₂]
  exact ⟨rfl, b₁₂⟩

/-- In `gemmKernel` only the product and the store wait: the product for the clear and the two
loads, the store for the product. -/
theorem gemmKernel_waits {y z : OpId} (h : (gemmKernel kTiles depth).Waits y z) :
    (y = ⟨3⟩ ∧ z ∈ [⟨0⟩, ⟨1⟩, ⟨2⟩]) ∨ (y = ⟨4⟩ ∧ z = ⟨3⟩) := by
  rcases y with ⟨_ | _ | _ | _ | _ | n⟩ <;>
    simp_all [Kernel.Waits, Kernel.op, Kernel.op?, gemmKernel, product, zero, TileOp.fill,
      TileOp.copy]

theorem gemmKernel_depsEarlier :
    DepsEarlier (gemmKernel kTiles depth).Waits (gemmKernel kTiles depth).bodyOps := by
  intro y z h _ _
  have hbody : (gemmKernel kTiles depth).bodyOps = [⟨0⟩, ⟨1⟩, ⟨2⟩, ⟨3⟩, ⟨4⟩] := rfl
  rw [hbody]
  rcases gemmKernel_waits h with ⟨rfl, hz⟩ | ⟨rfl, rfl⟩
  · simp only [List.mem_cons, List.not_mem_nil, or_false] at hz
    rcases hz with rfl | rfl | rfl <;> decide
  · decide

/-- Each trip of the K loop takes 32 of the `32 * kTiles` columns of `a` and rows of `b`. -/
theorem gemmKernel_windowsFit : ∀ l, l.idx < (gemmKernel kTiles depth).loops.size →
    ∀ h ∈ ((gemmKernel kTiles depth).loop l).body,
      (gemmKernel kTiles depth).WindowsFit ((gemmKernel kTiles depth).loop l).extent
        ((gemmKernel kTiles depth).op h) := by
  rintro ⟨_ | l⟩ hl h hh
  · have hbody : ((gemmKernel kTiles depth).loop ⟨0⟩).body = [⟨1⟩, ⟨2⟩, ⟨3⟩] := rfl
    rw [hbody] at hh
    simp only [List.mem_cons, List.not_mem_nil, or_false] at hh
    intro o ho s hs
    -- The loads read one window each; the product reads and writes whole tiles.
    rcases hh with rfl | rfl | rfl <;>
      simp [Kernel.op, Kernel.op?, gemmKernel, TileOp.operands, TileOp.copy, product] at ho
    · rcases ho with rfl | rfl
      · cases hs
        exact Nat.le_refl _
      · cases hs
    · rcases ho with rfl | rfl
      · cases hs
        exact Nat.le_refl _
      · cases hs
    · rcases ho with rfl | rfl | rfl <;> cases hs
  · simp [gemmKernel] at hl

/-- The kernel the calls build is sound. -/
theorem gemmKernel_sound (hF : (gemmKernel kTiles depth).Formed) : (gemmKernel kTiles depth).Sound :=
  hF.sound gemmKernel_depsEarlier gemmKernel_windowsFit

/-- **The reference product builds**: for every positive trip count whose width fits a 32-bit
word and every positive depth, `gemm kTiles depth` answers the sound kernel `gemmKernel`. -/
theorem gemm_run (hk : 0 < kTiles) (hw : 32 * kTiles < 2 ^ 32) (hd : 0 < depth) :
    (gemm kTiles depth).run = .ok (.ok (gemmKernel kTiles depth)) ∧
      (gemmKernel kTiles depth).Sound := by
  obtain ⟨hsteps, hbuilt⟩ := gemm_steps hk hw hd
  have hsound := gemmKernel_sound hbuilt.formed
  exact ⟨run_build hsteps ((Kernel.sound_iff hbuilt.formed).1 hsound), hsound⟩

end Catalog

end TileKernel
