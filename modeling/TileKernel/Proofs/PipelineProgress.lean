import TileKernel.Proofs.AssignmentFailure
import TileKernel.Proofs.DepthOne

/-!
# Pipelining succeeds

`pipelineLoop` fails only where its checks say so. On a sound kernel, a loop in range that is not
yet pipelined is pipelined at every positive depth whose checks pass, provided the staged buffers
can be declared again under their stage names: every clone passes the operand checks its
original passed, every dependency it gets names an older op (so no cycle closes), every barrier
waits for older ops, and the expansion lists ops that are new and so unplaced
(`pipelineLoop_runs`).

The kernel gains exactly the ring instances, the loop records an expansion of the asked depth
with `extent - (d - 1)` steady trips and one ring of `d` instances for each staged buffer, and
every op the pipelining adds is, up to its dependencies and schedule, a clone of a body op with
its staged operands rotating, or a barrier (`Kernel.MadeBy`).

The steps are those of `Validity/Lowering`, read forwards: each `…_runs` lemma shows a step
succeeds from a kernel that `Kernel.Expanding` describes, and hands back the stretch it makes
(`Kernel.Clones`), so that the next step can start.
-/

set_option autoImplicit false

namespace TileKernel

/-! ### Clones -/

/-- The one handle between `n` and `n + 1`. -/
theorem OpId.eq_of_idx {x : OpId} {n : Nat} (h₁ : n ≤ x.idx) (h₂ : x.idx < n + 1) : x = ⟨n⟩ := by
  obtain ⟨i⟩ := x
  dsimp only at h₁ h₂
  obtain rfl : i = n := by omega
  rfl

/-- An operand as a clone reads it: rotating when it is on a staged buffer. -/
def Operand.rotatingOn (staged : List BufferId) (o : Operand) : Operand :=
  if staged.contains o.buffer then { o with rotating := true } else o

/-- The op a pipelining clones from `op`: its name, kind and operands, those on staged buffers
rotating, without dependencies or schedule. -/
def TileOp.cloneOn (staged : List BufferId) (op : TileOp) : TileOp :=
  { op.detached with
    inputs := op.inputs.map (Operand.rotatingOn staged)
    outputs := op.outputs.map (Operand.rotatingOn staged) }

@[simp] theorem Operand.rotatingOn_buffer (staged : List BufferId) (o : Operand) :
    (o.rotatingOn staged).buffer = o.buffer := by
  unfold Operand.rotatingOn
  split <;> rfl

@[simp] theorem Operand.rotatingOn_step (staged : List BufferId) (o : Operand) :
    (o.rotatingOn staged).step = o.step := by
  unfold Operand.rotatingOn
  split <;> rfl

namespace Kernel

variable {k k₁ k₂ k₃ : Kernel}

/-- A clone passes the operand checks its original passes: marking an operand rotating keeps
its buffer and its window. -/
theorem checkOperands_cloneOn {op : TileOp} (staged : List BufferId)
    (h : k.checkOperands op = .ok ()) : k.checkOperands (op.cloneOn staged) = .ok () := by
  rw [← checkOperands_detached] at h
  refine checkOperands_map (Operand.rotatingOn staged)
    (checkWindows_map _ (fun o _ => by simp) (fun o _ x hx => ⟨x, by simpa using hx, rfl⟩)
      (checkWindows_of_checkOperands h)) (fun o _ => by simp [tileShapeOf, Operand.tileShape])
    (fun o _ => by simp) (fun o _ => by simp) (fun a _ b _ => by simp) h

/-- What pipelining loop `l` of `k`, staging `staged`, may add: a clone of a body op, or a
barrier. Only the op as the checks see it counts, not its dependencies or schedule. -/
def MadeBy (k : Kernel) (l : LoopId) (staged : List BufferId) (o : TileOp) : Prop :=
  (∃ y ∈ (k.loop l).body, o.detached = (k.op y).cloneOn staged) ∨
    ∃ name kind, o.detached = TileOp.barrier name kind

theorem MadeBy.congr {l : LoopId} {staged : List BufferId} {o o' : TileOp}
    (h : k.MadeBy l staged o) (he : o'.detached = o.detached) : k.MadeBy l staged o' := by
  unfold MadeBy
  rw [he]
  exact h

/-- A stretch of a pipelining of loop `l` of `k` from `kx` to `ky`: it makes the ops `made`,
keeps the ops of `kx` as the checks see them and the buffers as they are, and every op it makes
is a clone of a body op or a barrier. -/
structure Clones (k : Kernel) (l : LoopId) (staged : List BufferId) (kx ky : Kernel)
    (made : List OpId) : Prop extends Makes k l kx ky made where
  alike : kx.OpsAlike ky
  origin : ∀ x, kx.ops.size ≤ x.idx → x.idx < ky.ops.size → k.MadeBy l staged (ky.op x)
  buffers : ky.buffers = kx.buffers

namespace Clones

variable {l : LoopId} {staged : List BufferId} {m₁ m₂ : List OpId}

theorem refl (h : Expanding k l k₁) : Clones k l staged k₁ k₁ [] :=
  ⟨Makes.refl h, .refl _, fun _ h₁ h₂ => absurd h₂ (Nat.not_lt_of_le h₁), rfl⟩

theorem trans (h₁ : Clones k l staged k₁ k₂ m₁) (h₂ : Clones k l staged k₂ k₃ m₂) :
    Clones k l staged k₁ k₃ (m₁ ++ m₂) where
  toMakes := h₁.toMakes.trans h₂.toMakes
  alike := h₁.alike.trans h₂.alike
  origin x hx hlt := by
    by_cases hold : x.idx < k₂.ops.size
    · exact (h₁.origin x hx hold).congr (h₂.alike.detached x hold)
    · exact h₂.origin x (Nat.le_of_not_lt hold) hlt
  buffers := h₂.buffers.trans h₁.buffers

end Clones

/-- A barrier reads and writes nothing, so it passes the operand checks. -/
theorem checkOperands_barrier (name : String) (kind : BarrierKind) :
    k.checkOperands (TileOp.barrier name kind) = .ok () := rfl

end Kernel

/-! ### One edit of the expansion at a time -/

namespace Kernel.Expanding

variable {k kx : Kernel} {l : LoopId}

/-- Nothing waits for the newest op while a pipelining makes it: the ops of `k` wait for ops of
`k`, and every new op for an older one. -/
theorem newest_free (h : Expanding k l kx) {y : OpId} (hy : k.ops.size ≤ y.idx)
    (hsize : kx.ops.size = y.idx + 1) : ∀ x, y ∉ (kx.op x).deps := by
  intro x hx
  have hw : kx.Waits x y := hx
  have hxlt : x.idx < kx.ops.size := lt_of_waits hw
  by_cases hold : x.idx < k.ops.size
  · rw [h.old x hold] at hx
    exact absurd (h.origin.depsExist x y hx) (by omega)
  · exact absurd (h.deps x y (by omega) hw).1 (by omega)

/-- A new op with no dependencies that passes the operand checks is added. -/
theorem addOp_runs (h : Expanding k l kx) {o : TileOp} (hc : kx.checkOperands o = .ok ())
    (hnd : o.deps = []) :
    ∃ ky, kx.addOp o = .ok (⟨kx.ops.size⟩, ky) ∧ Expanding k l ky ∧
      ky.ops.size = kx.ops.size + 1 ∧ ky.op ⟨kx.ops.size⟩ = o ∧ kx.OpsAlike ky ∧
      ky.buffers = kx.buffers := by
  have hadd := addOp_eq hc (by simp [hnd])
  exact ⟨_, hadd, (h.addOp hadd hnd).1, by simp, op_push_self, opsAlike_push, rfl⟩

/-- A new op without a schedule is given one. -/
theorem setSched_runs (h : Expanding k l kx) {x : OpId} (hx : k.ops.size ≤ x.idx)
    (hlt : x.idx < kx.ops.size) (hs : (kx.op x).sched = none) (info : SchedInfo) :
    ∃ ky, kx.setSched x info = .ok ky ∧ Expanding k l ky ∧ ky.ops.size = kx.ops.size ∧
      kx.OpsAlike ky ∧ ky.buffers = kx.buffers := by
  have hset : kx.setSched x info = _ := setSched_eq hlt hs
  obtain ⟨e, size⟩ := h.setSched hx hset
  exact ⟨_, hset, e, size, opsAlike_modifyOp fun _ => rfl, rfl⟩

/-- The newest op may wait for any older op, new or outside the loop: nothing waits for it, so
no cycle closes. -/
theorem addDependency_runs (h : Expanding k l kx) {y z : OpId} (hy : k.ops.size ≤ y.idx)
    (hsize : kx.ops.size = y.idx + 1) (hz : z.idx < y.idx)
    (hout : z.idx < k.ops.size → k.Outside l z) :
    ∃ ky, kx.addDependency y z = .ok ky ∧ Expanding k l ky ∧ ky.ops.size = kx.ops.size ∧
      kx.OpsAlike ky ∧ ky.buffers = kx.buffers := by
  have hne : z ≠ y := fun e => Nat.lt_irrefl _ (e ▸ hz)
  have hd := addDependency_eq (by omega) (by omega)
    (dependsOn_fresh h.sound.depsExist (h.newest_free hy hsize) hne)
  obtain ⟨e, size⟩ := h.addDependency hd hy hz hout
  exact ⟨_, hd, e, size, opsAlike_modifyOp fun _ => rfl, rfl⟩

/-- A new op is neither placed nor removed, so an expansion may list it. -/
theorem checkUnplaced_new (h : Expanding k l kx) {x : OpId} (hx : k.ops.size ≤ x.idx)
    (hlt : x.idx < kx.ops.size) : kx.checkUnplaced x = .ok () := by
  refine checkUnplaced_eq hlt ?_ fun hr => ?_
  · rw [placement_congr h.body h.loops h.removed]
    cases hp : k.placement x with
    | none => rfl
    | some _ =>
      have placed := (placement_isSome_iff.1 (by rw [hp]; rfl)).1
      exact absurd (h.origin.placedExist x placed) (by omega)
  · exact absurd (h.origin.removedExist x (h.removed ▸ hr)) (by omega)

end Kernel.Expanding

/-! ### Runs that succeed -/

namespace KernelM

variable {ε : Type} {k : Kernel}

/-- A step that succeeds into a state satisfying `P`, followed by a computation that succeeds from
every such state, succeeds. -/
theorem run_bind_progress {α β : Type} {x : KernelM ε α} {f : α → KernelM ε β}
    {P : α → Kernel → Prop} {Q : β → Kernel → Prop}
    (hx : ∃ a k₁, x.run k = .ok (.ok a, k₁) ∧ P a k₁)
    (hf : ∀ a k₁, P a k₁ → ∃ b k₂, (f a).run k₁ = .ok (.ok b, k₂) ∧ Q b k₂) :
    ∃ b k₂, (x >>= f).run k = .ok (.ok b, k₂) ∧ Q b k₂ := by
  obtain ⟨a, k₁, h₁, p₁⟩ := hx
  rw [run_bind_of_ok h₁]
  exact hf a k₁ p₁

/-- `run_bind_progress` for a first step that answers nothing. -/
theorem run_seq_progress {β : Type} {x : KernelM ε PUnit} {y : KernelM ε β} {P : Kernel → Prop}
    {Q : β → Kernel → Prop} (hx : ∃ k₁, x.run k = .ok (.ok (), k₁) ∧ P k₁)
    (hy : ∀ k₁, P k₁ → ∃ b k₂, y.run k₁ = .ok (.ok b, k₂) ∧ Q b k₂) :
    ∃ b k₂, (x >>= fun _ => y).run k = .ok (.ok b, k₂) ∧ Q b k₂ := by
  obtain ⟨k₁, h₁, p₁⟩ := hx
  exact run_bind_progress ⟨(), k₁, h₁, p₁⟩ fun _ k₁ p₁ => hy k₁ p₁

/-- A map each of whose steps succeeds from every kernel the invariant allows after the elements
before it, into one it allows after the element too, succeeds. -/
theorem run_mapM_progress {γ β : Type} {f : γ → KernelM ε β} (I : List γ → Kernel → Prop)
    (R : γ → β → Prop) : ∀ (done : List γ) {l : List γ} {k : Kernel},
      (∀ pre c post, l = pre ++ c :: post → ∀ k₁, I (done ++ pre) k₁ →
        ∃ b k₂, (f c).run k₁ = .ok (.ok b, k₂) ∧ I (done ++ pre ++ [c]) k₂ ∧ R c b) →
      I done k → ∃ bs k', (l.mapM f).run k = .ok (.ok bs, k') ∧ I (done ++ l) k' ∧
        List.Forall₂ R l bs
  | done, [], k, _, hk => ⟨[], k, rfl, by simpa using hk, .nil⟩
  | done, c :: l, k, step, hk => by
    obtain ⟨b, k₁, h₁, hk₁, hr⟩ := step [] c l rfl k (by simpa using hk)
    obtain ⟨bs, k', h', hk', hrs⟩ := run_mapM_progress I R (done ++ [c])
      (fun pre c' post (he : l = pre ++ c' :: post) k₂ hI => by
        simpa using step (c :: pre) c' post (by rw [he, List.cons_append]) k₂ (by simpa using hI))
      (by simpa using hk₁)
    refine ⟨b :: bs, k', ?_, by simpa using hk', .cons hr hrs⟩
    rw [List.mapM_cons, run_bind_of_ok h₁, run_bind_of_ok h']
    rfl

/-- Reading a loop in range answers it and changes nothing. -/
theorem run_loopEntry {l : LoopId} (hl : l.idx < k.loops.size) :
    (liftM (Checked.entry k.loops l.idx) : KernelM ε LoopNest).run k = .ok (.ok (k.loop l), k) := by
  simp [KernelM.run_liftM, Checked.entry, Kernel.loop, Kernel.loop?, hl]

end KernelM

/-! ### Rings -/

/-- What declaring a buffer and attaching its layout and swizzle check of it: a copy of it under
a fresh name passes the same checks. -/
structure Buffer.Declared (b : Buffer) : Prop where
  shape : b.shape ≠ [] ∧ 0 ∉ b.shape
  rank : b.scope = .fragment → b.shape.length = 2
  layout : ∀ L, b.layout = some L → L.Fits b
  swizzle : ∀ s, b.swizzle = some s → b.scope = .shared ∧ (∃ d, b.layout = some (.dense d)) ∧
    ∃ n, b.elements = .ok n ∧ s.isBijectiveOn n = true

namespace Kernel

variable {k : Kernel}

/-- A buffer with a fresh name, a shape with no zero extent, rank two if it is a fragment, and no
layout hint is declared as the next handle. -/
theorem addBuffer_eq {b : Buffer} (hname : ∀ x ∈ k.buffers, x.name ≠ b.name)
    (hshape : b.shape ≠ [] ∧ 0 ∉ b.shape) (hrank : b.scope = .fragment → b.shape.length = 2)
    (hhint : b.hint = none) :
    k.addBuffer b = .ok (⟨k.buffers.size⟩, { k with buffers := k.buffers.push b }) := by
  have hrank' : ¬ (b.scope = .fragment ∧ b.shape.length ≠ 2) := fun hfl => hfl.2 (hrank hfl.1)
  unfold addBuffer
  simp [findBuffer?_eq_none.2 hname, hshape.1, hshape.2, hrank', hhint]

/-- A swizzle that permutes the allocation is attached to a shared buffer with a dense layout
and no swizzle. -/
theorem attachSwizzle_eq {h : BufferId} {b : Buffer} {s : Swizzle} {d : DenseLayout} {n : Nat}
    (hb : k.buffer? h = some b) (hshared : b.scope = .shared) (hnone : b.swizzle = none)
    (hlayout : b.layout = some (.dense d)) (hn : b.elements = .ok n)
    (hbij : s.isBijectiveOn n = true) :
    (k.attachSwizzle h s).run = .ok (.ok (k.modifyBuffer h ({ · with swizzle := some s }))) := by
  unfold attachSwizzle
  simp [tryBuffer, hb, hshared, hnone, hlayout, hn, ExceptT.run_bind, ExceptT.run_mk, liftM,
    monadLift, MonadLift.monadLift, ExceptT.lift]
  simp [bind, Except.bind, hbij]
  rfl

/-- A buffer behind a handle out of range is no declared buffer: it has no extents. -/
theorem lt_of_declared {b : BufferId} (h : (k.buffer b).Declared) : b.idx < k.buffers.size := by
  by_contra hge
  have hnone : k.buffer? b = none := by simp [Kernel.buffer?]; omega
  exact h.shape.1 (by simp [Kernel.buffer, hnone]; rfl)

/-- Extending the buffers keeps the buffer behind every handle already in range. -/
theorem buffer_append {b : BufferId} (xs : Array Buffer) (hb : b.idx < k.buffers.size) :
    ({ k with buffers := k.buffers ++ xs } : Kernel).buffer b = k.buffer b := by
  simp [Kernel.buffer, Kernel.buffer?, Array.getElem?_append_left hb]

end Kernel

section Rings

variable {kx : Kernel}

/-- A ring's instances are declared under fresh names, each with the layout and swizzle of the
buffer: the kernel gains exactly the instances. -/
theorem allocateRing_runs {logical : BufferId} (d : Nat) (hdecl : (kx.buffer logical).Declared)
    (hfresh : ((kx.buffers.toList ++ kx.ringInstances d logical).map (·.name)).Nodup) :
    ∃ r ky, (allocateRing logical d).run kx = .ok (.ok r, ky) ∧
      (ky = { kx with buffers := kx.buffers ++ (kx.ringInstances d logical).toArray } ∧
        r.logical = logical ∧ r.instances.length = d - 1 + 1) := by
  unfold allocateRing
  rw [KernelM.run_get_bind]
  refine KernelM.run_bind_progress (KernelM.run_mapM_progress (fun pre k₁ => k₁ =
    { kx with buffers := kx.buffers ++ (pre.map ((kx.buffer logical).ringInstance logical)).toArray })
    (fun _ _ => True) [] ?_ (by simp)) ?_
  · intro pre j post hjs k₁ hk₁
    set B := kx.buffer logical with hB
    set inst : Buffer := { B.renamed (B.stageName j) with instanceOf := some (logical, j) }
    -- The stage name is new: it follows the names of the kernel and of the earlier instances.
    have hname : inst.name ∉ k₁.buffers.toList.map (·.name) := by
      have hsub : ((kx.buffers.toList ++ (pre ++ [j]).map (B.ringInstance logical)).map
          (·.name)).Nodup := by
        refine hfresh.sublist (List.Sublist.map _ (List.Sublist.append_left ?_ _))
        rw [Kernel.ringInstances, hjs, List.map_append, ← hB]
        simp
      subst hk₁
      simp only [List.map_append, List.map_map, List.nodup_append] at hsub
      simp [inst, Buffer.ringInstance, Buffer.renamed, Function.comp_def] at hsub ⊢
      exact ⟨fun x hx => hsub.2.2 x hx _ (.inr rfl), hsub.2.1.2⟩
    have hadd := Kernel.addBuffer_eq (b := inst)
      (fun x hx he => hname (List.mem_map.2 ⟨x, Array.mem_toList_iff.2 hx, he⟩)) hdecl.shape
      hdecl.rank rfl
    refine KernelM.run_bind_progress (P := fun h k₂ => h = ⟨k₁.buffers.size⟩ ∧
      k₂ = { k₁ with buffers := k₁.buffers.push inst }) ⟨_, _, KernelM.run_edit.2 hadd, rfl, rfl⟩ ?_
    rintro _ _ ⟨rfl, rfl⟩
    dsimp only
    have hpush : ∀ c : Buffer, ({ k₁ with buffers := k₁.buffers.push c } : Kernel).buffer?
        ⟨k₁.buffers.size⟩ = some c := fun c => by simp [Kernel.buffer?]
    -- Whatever is attached, the new buffer ends as the ring instance.
    have finish : ∀ c, c = B.ringInstance logical j → ({ k₁ with buffers := k₁.buffers.push c } :
        Kernel) = { kx with buffers := kx.buffers ++
          (([] ++ pre ++ [j]).map (B.ringInstance logical)).toArray } := by
      rintro c rfl
      subst hk₁
      simp
    split
    · rename_i L hL
      have hlay := attachLayout_of_fits (hpush inst) rfl (hdecl.layout L hL)
      rw [modifyBuffer_push] at hlay
      rw [KernelM.run_bind_of_ok (KernelM.run_update.2 hlay)]
      split
      · rename_i s hs
        obtain ⟨hshared, ⟨dl, hdl⟩, n, hn, hbij⟩ := hdecl.swizzle s hs
        have hsw := Kernel.attachSwizzle_eq (s := s) (d := dl) (hpush { inst with layout := some L })
          hshared rfl (by rw [← hL, hdl]) hn hbij
        rw [modifyBuffer_push] at hsw
        rw [KernelM.run_bind_of_ok (KernelM.run_updateChecked.2 hsw)]
        exact ⟨_, _, rfl, finish _ (by simp [Buffer.ringInstance, Buffer.renamed, inst, hL, hs]),
          trivial⟩
      · rename_i hs
        have hnone : B.swizzle = none := Option.eq_none_iff_forall_ne_some.2 hs
        exact ⟨_, _, rfl, finish _ (by simp [Buffer.ringInstance, Buffer.renamed, inst, hL, hnone]),
          trivial⟩
    · rename_i hL
      have hlnone : B.layout = none := Option.eq_none_iff_forall_ne_some.2 hL
      split
      · rename_i s hs
        obtain ⟨-, ⟨dl, hdl⟩, -⟩ := hdecl.swizzle s hs
        exact absurd hdl (hL _)
      · rename_i hs
        have hnone : B.swizzle = none := Option.eq_none_iff_forall_ne_some.2 hs
        exact ⟨_, _, rfl, finish _ (by
          simp [Buffer.ringInstance, Buffer.renamed, inst, hlnone, hnone]), trivial⟩
  · rintro rest ky ⟨rfl, hlen⟩
    exact ⟨_, _, rfl, rfl, rfl, by simp [← hlen.length_eq]⟩

/-- The rings of the staged buffers are allocated one after another, each adding its instances. -/
theorem rings_runs {staged : List BufferId} (d : Nat) (hdecl : ∀ b ∈ staged, (kx.buffer b).Declared)
    (hfresh : ((kx.buffers.toList ++ staged.flatMap (kx.ringInstances d)).map (·.name)).Nodup) :
    ∃ rings ky, (staged.mapM fun b => allocateRing b d).run kx = .ok (.ok rings, ky) ∧
      ky = { kx with buffers := kx.buffers ++ (staged.flatMap (kx.ringInstances d)).toArray } ∧
      List.Forall₂ (fun b r => r.logical = b ∧ r.instances.length = d - 1 + 1) staged rings := by
  refine KernelM.run_mapM_progress
    (fun pre k₁ => k₁ = { kx with buffers := kx.buffers ++ (pre.flatMap (kx.ringInstances d)).toArray })
    (fun (b : BufferId) (r : Ring) => r.logical = b ∧ r.instances.length = d - 1 + 1) []
    (l := staged) (k := kx) ?_ (by simp)
  intro pre b post hs k₁ hk₁
  have hb : b ∈ staged := by rw [hs]; simp
  have hlt := Kernel.lt_of_declared (hdecl b hb)
  -- The buffer is the one the rings before it left alone.
  have same : k₁.buffer b = kx.buffer b := by rw [hk₁]; exact Kernel.buffer_append _ hlt
  have hsame : k₁.ringInstances d b = kx.ringInstances d b := by
    simp only [Kernel.ringInstances, same]
  obtain ⟨r, k₂, hrun, hk₂, hr⟩ := allocateRing_runs d
    (show (k₁.buffer b).Declared from same ▸ hdecl b hb) (by
      rw [hsame, hk₁]
      refine hfresh.sublist (List.Sublist.map _ ?_)
      rw [hs]
      simp)
  refine ⟨r, k₂, hrun, ?_, hr⟩
  rw [hk₂, hsame, hk₁]
  simp

end Rings

section Expansion

variable {k kx : Kernel} {l : LoopId}

open Kernel

/-- A slot clones every entry: each clone passes the operand checks its original passed, with its
staged operands marked rotating, and waits for older ops only. -/
theorem cloneSlot_runs (staged : List BufferId) {entries : List (OpId × Stage)} (phase : Phase)
    (iteration : IterRef) (after : Option OpId) (h : Expanding k l kx)
    (hentries : ∀ e ∈ entries, e.1 ∈ (k.loop l).body)
    (hafter : ∀ a ∈ after, k.ops.size ≤ a.idx ∧ a.idx < kx.ops.size) :
    ∃ made ky, (cloneSlot (k.loop l).body staged entries phase iteration after).run kx =
      .ok (.ok made, ky) ∧ Clones k l staged kx ky (made.map (·.2)) ∧
        ∀ x ∈ made, x.1 ∈ (k.loop l).body := by
  obtain ⟨made, ky, hrun, halike, horigin, hbuf⟩ : ∃ made ky,
      (cloneSlot (k.loop l).body staged entries phase iteration after).run kx =
        .ok (.ok made, ky) ∧ kx.OpsAlike ky ∧
        (∀ x, kx.ops.size ≤ x.idx → x.idx < ky.ops.size → k.MadeBy l staged (ky.op x)) ∧
        ky.buffers = kx.buffers := by
    unfold cloneSlot
    refine (KernelM.run_foldlM_progress (fun _ made k₁ => Expanding k l k₁ ∧
      (∀ c ∈ (made : List (OpId × OpId)), k.ops.size ≤ c.2.idx ∧ c.2.idx < k₁.ops.size) ∧
      kx.OpsAlike k₁ ∧
      (∀ x, kx.ops.size ≤ x.idx → x.idx < k₁.ops.size → k.MadeBy l staged (k₁.op x)) ∧
      k₁.buffers = kx.buffers) [] ?_
      ⟨h, fun _ hc => absurd hc List.not_mem_nil, .refl _,
        fun _ h₁ h₂ => absurd h₂ (Nat.not_lt_of_le h₁), rfl⟩).imp fun _ hrun => by
      obtain ⟨ky, hrun, -, -, hk⟩ := hrun
      exact ⟨ky, hrun, hk⟩
    rintro ⟨original, stage⟩ he done made k₁ ⟨h₁, hmade, alike₁, origin₁, buf₁⟩
    have horig : original ∈ (k.loop l).body := hentries _ he
    have hold : original.idx < k.ops.size := h.origin.bodiesExist l original horig
    have hN : k.ops.size ≤ k₁.ops.size := h₁.size
    have size₁ : kx.ops.size ≤ k₁.ops.size := alike₁.size
    dsimp only
    rw [KernelM.run_get_bind, KernelM.run_get_bind]
    -- The clone checks as its original does.
    obtain ⟨k₂, hadd, h₂, size₂, op₂, alike₂, buf₂⟩ := h₁.addOp_runs
      (o := { (k₁.op original).detached with
        inputs := (k₁.op original).detached.inputs.map fun o =>
          if staged.contains o.buffer then { o with rotating := true } else o,
        outputs := (k₁.op original).detached.outputs.map fun o =>
          if staged.contains o.buffer then { o with rotating := true } else o })
      (checkOperands_cloneOn staged
        (h₁.sound.operandsChecked original (Nat.lt_of_lt_of_le hold hN))) rfl
    have clone₂ : (k₂.op ⟨k₁.ops.size⟩).detached = (k.op original).cloneOn staged := by
      rw [op₂, ← h₁.old original hold]
      rfl
    obtain ⟨k₃, hsched, h₃, size₃, alike₃, buf₃⟩ := h₂.setSched_runs (x := ⟨k₁.ops.size⟩) hN
      (by simp [size₂]) (by rw [op₂]; rfl) ⟨stage.number, phase, iteration, original⟩
    rw [KernelM.run_bind_of_ok (KernelM.run_edit.2 hadd),
      KernelM.run_bind_of_ok (KernelM.run_update.2 hsched)]
    have hsize₃ : k₃.ops.size = k₁.ops.size + 1 := size₃.trans size₂
    -- What the step has made so far: the ops before it, and the clone as the checks see it.
    have made₃ : ∀ k₄ : Kernel, k₃.OpsAlike k₄ → k₄.ops.size = k₁.ops.size + 1 →
        kx.OpsAlike k₄ ∧
          ∀ x, kx.ops.size ≤ x.idx → x.idx < k₄.ops.size → k.MadeBy l staged (k₄.op x) := by
      intro k₄ alike₄ size₄
      have alike : k₁.OpsAlike k₄ := (alike₂.trans alike₃).trans alike₄
      refine ⟨alike₁.trans alike, fun x hx hlt => ?_⟩
      by_cases hprev : x.idx < k₁.ops.size
      · exact (origin₁ x hx hprev).congr (alike.detached x hprev)
      · obtain rfl := OpId.eq_of_idx (Nat.le_of_not_lt hprev) (size₄ ▸ hlt)
        refine .inl ⟨original, horig, ?_⟩
        rw [← clone₂, ← (alike₃.trans alike₄).detached _ (by simp [size₂])]
    -- Each dependency of the clone names an older op: one outside the loop, or a clone made
    -- earlier in this slot.
    refine KernelM.run_seq_progress (KernelM.run_forM_progress (fun k₄ => Expanding k l k₄ ∧
      k₄.ops.size = k₁.ops.size + 1 ∧ k₃.OpsAlike k₄ ∧ k₄.buffers = kx.buffers) ?_
        ⟨h₃, hsize₃, .refl _, buf₃.trans (buf₂.trans buf₁)⟩) ?_
    · rintro dep hdep k₄ ⟨h₄, size₄, alike₄, buf₄⟩
      have hdk : dep ∈ (k.op original).deps := h₁.old original hold ▸ hdep
      have hlt : dep.idx < k.ops.size := h.origin.depsExist original dep hdk
      split
      · rename_i hout
        obtain ⟨k₅, hd, h₅, size₅, alike₅, buf₅⟩ := h₄.addDependency_runs hN size₄
          (Nat.lt_of_lt_of_le hlt hN) fun _ => ⟨by simpa using hout, original, horig, hdk⟩
        exact ⟨k₅, KernelM.run_update.2 hd, h₅, size₅.trans size₄, alike₄.trans alike₅,
          buf₅.trans buf₄⟩
      · split
        · rename_i c hc
          obtain ⟨hc₁, hc₂⟩ := hmade _ (mem_of_lookup hc)
          obtain ⟨k₅, hd, h₅, size₅, alike₅, buf₅⟩ := h₄.addDependency_runs hN size₄ hc₂
            fun hc₃ => absurd hc₃ (by omega)
          exact ⟨k₅, KernelM.run_update.2 hd, h₅, size₅.trans size₄, alike₄.trans alike₅,
            buf₅.trans buf₄⟩
        · exact ⟨k₄, rfl, h₄, size₄, alike₄, buf₄⟩
    -- Then, if any, on the op to wait for, and the pair joins the slot.
    rintro k₄ ⟨h₄, size₄, alike₄, buf₄⟩
    have hnew : ∀ c ∈ made ++ [(original, (⟨k₁.ops.size⟩ : OpId))], k.ops.size ≤ c.2.idx ∧
        c.2.idx < k₄.ops.size := by
      intro c hc
      rcases List.mem_append.1 hc with hc | hc
      · obtain ⟨hc₁, hc₂⟩ := hmade c hc
        exact ⟨hc₁, by omega⟩
      · rw [List.mem_singleton.1 hc]
        exact ⟨hN, by simp only; omega⟩
    split
    · rename_i b
      obtain ⟨hb₁, hb₂⟩ := hafter b rfl
      obtain ⟨k₅, hd, h₅, size₅, alike₅, buf₅⟩ := h₄.addDependency_runs hN size₄
        (Nat.lt_of_lt_of_le hb₂ size₁) fun hb₃ => absurd hb₃ (by omega)
      refine ⟨made ++ [(original, ⟨k₁.ops.size⟩)], k₅, ?_, h₅, fun c hc => ?_,
        made₃ k₅ (alike₄.trans alike₅) (size₅.trans size₄) |>.1,
        made₃ k₅ (alike₄.trans alike₅) (size₅.trans size₄) |>.2, buf₅.trans buf₄⟩
      · rw [KernelM.run_bind_of_ok (KernelM.run_update.2 hd)]
        rfl
      · obtain ⟨hc₁, hc₂⟩ := hnew c hc
        exact ⟨hc₁, by omega⟩
    · exact ⟨_, k₄, rfl, h₄, hnew, (made₃ k₄ alike₄ size₄).1, (made₃ k₄ alike₄ size₄).2, buf₄⟩
  obtain ⟨m, q⟩ := cloneSlot_makes h hentries hafter hrun
  exact ⟨made, ky, hrun, ⟨m, halike, horigin, hbuf⟩, q⟩

/-- A barrier is added, scheduled, and made to wait for older new ops. -/
theorem addBarrier_runs (staged : List BufferId) (kind : BarrierKind) (phase : Phase)
    (after : List OpId) (h : Expanding k l kx)
    (hafter : ∀ a ∈ after, k.ops.size ≤ a.idx ∧ a.idx < kx.ops.size) :
    ∃ x ky, (addBarrier kind phase after).run kx = .ok (.ok x, ky) ∧
      Clones k l staged kx ky [x] := by
  obtain ⟨x, ky, hrun, halike, hsize, hbarrier, hbuf⟩ : ∃ x ky,
      (addBarrier kind phase after).run kx = .ok (.ok x, ky) ∧ kx.OpsAlike ky ∧
        ky.ops.size = kx.ops.size + 1 ∧
        (∃ name, (ky.op ⟨kx.ops.size⟩).detached = TileOp.barrier name kind) ∧
        ky.buffers = kx.buffers := by
    unfold addBarrier
    obtain ⟨k₁, hadd, h₁, size₁, op₁, alike₁, buf₁⟩ := h.addOp_runs (checkOperands_barrier _ kind) rfl
    obtain ⟨k₂, hsched, h₂, size₂, alike₂, buf₂⟩ := h₁.setSched_runs (x := ⟨kx.ops.size⟩) h.size
      (by simp [size₁]) (by rw [op₁]; rfl) ⟨computeStage, phase, .relative 0, ⟨kx.ops.size⟩⟩
    rw [KernelM.run_bind_of_ok (KernelM.run_edit.2 hadd),
      KernelM.run_bind_of_ok (KernelM.run_update.2 hsched)]
    obtain ⟨k₃, hdeps, -, size₃, alike₃, buf₃⟩ := KernelM.run_forM_progress (l := after)
      (f := fun a => KernelM.update (·.addDependency ⟨kx.ops.size⟩ a))
      (fun k₃ => Expanding k l k₃ ∧ k₃.ops.size = kx.ops.size + 1 ∧ k₂.OpsAlike k₃ ∧
        k₃.buffers = kx.buffers)
      (fun a ha k₃ hk₃ => by
        obtain ⟨h₃, size₃, alike₃, buf₃⟩ := hk₃
        obtain ⟨ha₁, ha₂⟩ := hafter a ha
        obtain ⟨k₄, hd, h₄, size₄, alike₄, buf₄⟩ := h₃.addDependency_runs h.size size₃ ha₂
          fun ha₃ => absurd ha₃ (by omega)
        exact ⟨k₄, KernelM.run_update.2 hd, h₄, size₄.trans size₃, alike₃.trans alike₄,
          buf₄.trans buf₃⟩)
      ⟨h₂, size₂.trans size₁, .refl _, buf₂.trans buf₁⟩
    refine ⟨_, k₃, by rw [KernelM.run_bind_of_ok hdeps]; rfl, (alike₁.trans alike₂).trans alike₃,
      size₃, ⟨(k₁.op ⟨kx.ops.size⟩).name, ?_⟩, buf₃⟩
    rw [(alike₂.trans alike₃).detached _ (by simp [size₁]), op₁]
    rfl
  refine ⟨x, ky, hrun, ⟨addBarrier_makes h hafter hrun, halike, fun y hy hlt => ?_, hbuf⟩⟩
  -- The one op the barrier step makes is the barrier.
  obtain rfl := OpId.eq_of_idx hy (hsize ▸ hlt)
  obtain ⟨name, hname⟩ := hbarrier
  exact .inr ⟨name, kind, hname⟩

/-- A map each of whose steps succeeds as a stretch of the pipelining succeeds, and makes in order
what its steps make. -/
theorem run_mapM_runs {γ β : Type} {f : γ → KernelM KernelError β} (staged : List BufferId)
    (out : β → List OpId) : ∀ (cs : List γ) {kx : Kernel},
      (∀ c ∈ cs, ∀ k₁, Expanding k l k₁ → ∃ b k₂, (f c).run k₁ = .ok (.ok b, k₂) ∧
        Clones k l staged k₁ k₂ (out b)) →
      Expanding k l kx → ∃ bs ky, (cs.mapM f).run kx = .ok (.ok bs, ky) ∧
        Clones k l staged kx ky (bs.flatMap out)
  | [], kx, _, h => ⟨[], kx, rfl, Clones.refl h⟩
  | c :: cs, kx, step, h => by
    obtain ⟨b, k₁, h₁, m₁⟩ := step c List.mem_cons_self kx h
    obtain ⟨bs, ky, h', m₂⟩ :=
      run_mapM_runs staged out cs (fun c' hc' => step c' (List.mem_cons_of_mem _ hc')) m₁.expanding
    refine ⟨b :: bs, ky, ?_, by simpa using m₁.trans m₂⟩
    rw [List.mapM_cons, KernelM.run_bind_of_ok h₁, KernelM.run_bind_of_ok h']
    rfl

/-- Recording the new ops as the expansion of a loop not yet pipelined, then moving the dependents
of each body op onto its last clone, succeeds, and edits the loop's record and dependencies
only. -/
theorem expand_runs {kz : Kernel} {p : Expansion} (pairs : List (OpId × OpId))
    (h : Expanding k l kz) (hexp : (k.loop l).expansion = none) (hd : p.depth ≠ 0)
    (hnew : ∀ x ∈ p.prologue ++ p.steady ++ p.epilogue, k.ops.size ≤ x.idx ∧ x.idx < kz.ops.size) :
    ∃ k', (KernelM.update (·.setExpansion l p) >>= fun _ =>
      (sortedIds (pairs.map (·.1))).forM fun original => match lastClone pairs original with
        | some c => modify fun k => k.redirectDependents original c
        | none => pure () : KernelM KernelError Unit).run kz = .ok (.ok (), k') ∧
      k'.buffers = kz.buffers ∧ k'.loops = k.loops.modify l.idx ({ · with expansion := some p }) ∧
      kz.OpsAlike k' ∧ k'.ops.size = kz.ops.size := by
  have loop : kz.loop l = k.loop l := by simp only [Kernel.loop, Kernel.loop?, h.loops]
  have hset := setExpansion_eq (p := p) (by rw [loop]; exact hexp) hd fun x hx =>
    h.checkUnplaced_new (hnew x hx).1 (hnew x hx).2
  set K₀ := ({ kz with removed := kz.removed ++
    ((kz.loop l).body.filter fun h => !kz.removed.contains h) } : Kernel).modifyLoop l
      ({ · with expansion := some p }) with hK₀
  obtain ⟨k', hred, -, alike, loops', buffers'⟩ := redirect_ok pairs (sortedIds (pairs.map (·.1)))
    (k := K₀)
  -- The redirection edits dependencies only, so it keeps every op as the checks see it.
  have size' : k'.ops.size = kz.ops.size := by
    refine KernelM.run_forM_ok (fun _ kx => kx.ops.size = kz.ops.size) []
      (fun original _ _ k₁ k₂ hk step => ?_) ?_ hred
    · split at step
      · rw [KernelM.run_modify] at step
        obtain ⟨-, rfl⟩ := Prod.mk.inj (Except.ok.inj step)
        exact (redirectDependents_alike _ _).2.1.trans hk
      · obtain ⟨-, rfl⟩ := Prod.mk.inj (Except.ok.inj step)
        exact hk
    · rfl
  have alike₀ : kz.OpsAlike K₀ := opsAlike_of_eq rfl
  refine ⟨k', ?_, buffers', ?_, alike₀.trans alike, size'⟩
  · rw [KernelM.run_bind_of_ok (KernelM.run_update.2 hset)]
    exact hred
  · rw [loops']
    simp [K₀, modifyLoop, h.loops]

/-- **Pipelining succeeds where its checks pass.** On a sound kernel, a loop in range that is not
yet pipelined is pipelined at every positive depth whose checks answer the staged buffers, when
those buffers can be declared again under fresh stage names. The kernel gains exactly the ring
instances; the loop records an expansion of the depth with `extent - (d - 1)` steady trips and a
ring of `d` instances for each staged buffer, in order; the ops there were stay as the checks see
them, and every op added is a clone of a body op or a barrier. -/
theorem pipelineLoop_runs {k : Kernel} {l : LoopId} {d : Nat} {staged : List BufferId}
    (hs : k.Sound) (hl : l.idx < k.loops.size) (hexp : (k.loop l).expansion = none) (hd : 0 < d)
    (hcheck : (if 1 < d then checkPipelinable k l d
      ((k.loop l).body.map fun h => (h, classifyStage k (k.op h))) else .ok []) = .ok staged)
    (hdecl : ∀ b ∈ staged, (k.buffer b).Declared)
    (hfresh : ((k.buffers.toList ++ staged.flatMap (k.ringInstances d)).map (·.name)).Nodup) :
    ∃ k', (pipelineLoop l d).run k = .ok (.ok (), k') ∧
      k'.buffers = k.buffers ++ (staged.flatMap (k.ringInstances d)).toArray ∧
      (∃ p, k'.loops = k.loops.modify l.idx ({ · with expansion := some p }) ∧ p.depth = d ∧
        p.steadyTrips = (k.loop l).extent - (d - 1) ∧
        List.Forall₂ (fun b r => r.logical = b ∧ r.instances.length = d) staged p.rings) ∧
      k.OpsAlike k' ∧ ∀ x, k.ops.size ≤ x.idx → x.idx < k'.ops.size → k.MadeBy l staged (k'.op x) := by
  unfold pipelineLoop
  rw [KernelM.run_get_bind, KernelM.run_bind_of_ok (KernelM.run_loopEntry hl)]
  dsimp only
  rw [if_neg (Nat.pos_iff_ne_zero.1 hd)]
  set entries := (k.loop l).body.map fun h => (h, classifyStage k (k.op h)) with hentries_def
  have hentries : ∀ e ∈ entries, e.1 ∈ (k.loop l).body := by simp [entries]
  have hfilter : ∀ (q : OpId × Stage → Bool), ∀ e ∈ entries.filter q, e.1 ∈ (k.loop l).body :=
    fun q e he => hentries e (List.mem_filter.1 he).1
  obtain ⟨rings, kr, hrings, hkr, hringsR⟩ := rings_runs d hdecl hfresh
  have m₂ := rings_makes (Expanding.refl (l := l) hs) hrings
  have e₂ := m₂.expanding
  have ops₂ : k.OpsAlike kr := opsAlike_of_eq (by rw [hkr])
  have hR : List.Forall₂ (fun b r => r.logical = b ∧ r.instances.length = d) staged rings :=
    hringsR.imp fun _ _ hr => ⟨hr.1, by omega⟩
  -- What the whole run ends with, from the stretch the clones and barriers make and the final
  -- recording of the expansion.
  have finish : ∀ {made : List OpId} {kz k' : Kernel} (p : Expansion), Clones k l staged kr kz made →
      k'.buffers = kz.buffers → k'.loops = k.loops.modify l.idx ({ · with expansion := some p }) →
      kz.OpsAlike k' → k'.ops.size = kz.ops.size →
      k'.buffers = k.buffers ++ (staged.flatMap (k.ringInstances d)).toArray ∧
        k.OpsAlike k' ∧ ∀ x, k.ops.size ≤ x.idx → x.idx < k'.ops.size →
          k.MadeBy l staged (k'.op x) := by
    intro made kz k' p m buf' _ alike' size'
    refine ⟨by rw [buf', m.buffers, hkr], ops₂.trans (m.alike.trans alike'), fun x hx hlt => ?_⟩
    have hz : x.idx < kz.ops.size := size' ▸ hlt
    exact (m.origin x (by rw [hkr]; exact hx) hz).congr (alike'.detached x hz)
  by_cases hgt : 1 < d
  · -- Depth above one: the checks answer the staged buffers, then rings, prologue, steady block
    -- and drain.
    rw [if_pos hgt] at hcheck ⊢
    rw [hcheck]
    dsimp only
    rw [pure_bind]
    -- The prologue: the load slot of each of the first `d - 1` iterations.
    obtain ⟨pro, k₃, hpro, m₃⟩ := run_mapM_runs staged
      (f := fun t => cloneSlot (k.loop l).body staged (entries.filter (·.2 == .load)) .prologue
        (.absolute t) none)
      (fun made => made.map (·.2)) (List.range (d - 1))
      (fun t _ k₁ h₁ => by
        obtain ⟨made, ky, hr, m, -⟩ := cloneSlot_runs staged .prologue (.absolute t) none h₁
          (hfilter _) (by rintro _ ⟨⟩)
        exact ⟨made, ky, hr, m⟩) e₂
    -- The steady block: the load slot `d - 1` iterations ahead, a wait, the compute slot and a
    -- synchronization.
    obtain ⟨issued, k₄, hissued, m₄, -⟩ := cloneSlot_runs staged .steady (.relative (d - 1))
      none m₃.expanding (hfilter _) (by rintro _ ⟨⟩)
    obtain ⟨wait, k₅, hwait, m₅⟩ := addBarrier_runs staged (.asyncWait (d - 1)) .steady
      (issued.map (·.2)) m₄.expanding (m₄.after m₃.expanding)
    have hw := m₅.after m₄.expanding wait List.mem_cons_self
    obtain ⟨computed, k₆, hcomputed, m₆, -⟩ := cloneSlot_runs staged .steady (.relative 0)
      (some wait) m₅.expanding (hfilter _) (fun a ha => by
        simp only [Option.mem_def, Option.some.injEq] at ha
        exact ha ▸ hw)
    obtain ⟨sync, k₇, hsync, m₇⟩ := addBarrier_runs staged .sync .steady (computed.map (·.2))
      m₆.expanding (m₆.after m₅.expanding)
    -- The drain: for each remaining iteration, a wait for its group and its compute slot.
    obtain ⟨epi, k₈, hepi, m₈⟩ := run_mapM_runs staged
      (f := fun t => do
        let w ← addBarrier (.asyncWait ((k.loop l).extent - 1 - t)) .epilogue []
        let made ← cloneSlot (k.loop l).body staged (entries.filter (·.2 == .compute)) .epilogue
          (.absolute t) (some w)
        pure (w, made))
      (fun s => s.1 :: s.2.map (·.2))
      (List.range' ((k.loop l).extent - (d - 1))
        ((k.loop l).extent - ((k.loop l).extent - (d - 1))))
      (fun t _ k₁ h₁ => by
        obtain ⟨w, k₂, hw₂, mw⟩ := addBarrier_runs staged (.asyncWait ((k.loop l).extent - 1 - t))
          .epilogue [] h₁ (by rintro _ ⟨⟩)
        have hwn := mw.after h₁ w List.mem_cons_self
        obtain ⟨made, k₃, hm, mm, -⟩ := cloneSlot_runs staged .epilogue (.absolute t)
          (some w) mw.expanding (hfilter _) (fun a ha => by
            simp only [Option.mem_def, Option.some.injEq] at ha
            exact ha ▸ hwn)
        refine ⟨(w, made), k₃, ?_, by simpa using mw.trans mm⟩
        rw [KernelM.run_bind_of_ok hw₂, KernelM.run_bind_of_ok hm]
        rfl) m₇.expanding
    let p : Expansion := ⟨d, (k.loop l).extent - (d - 1), (pro.map (·.map (·.2))).flatten,
      issued.map (·.2) ++ [wait] ++ computed.map (·.2) ++ [sync],
      epi.flatMap fun s => s.1 :: s.2.map (·.2), rings⟩
    have made := m₃.trans (m₄.trans (m₅.trans (m₆.trans (m₇.trans m₈))))
    obtain ⟨k', hexpand, buf', loops', alike', size'⟩ := expand_runs
      (pro.flatten ++ issued ++ computed ++ (epi.map (·.2)).flatten) m₈.expanding hexp
      (p := p) (show d ≠ 0 by omega) fun x hx => made.after e₂ x (by simpa [p] using hx)
    obtain ⟨hbuf, halike, horigin⟩ := finish p made buf' loops' alike' size'
    refine ⟨k', KernelM.run_lift_eq_ok.2 ?_, hbuf, ⟨p, loops', rfl, rfl, hR⟩, halike, horigin⟩
    rw [KernelM.run_bind_of_ok hrings, if_neg (by omega), KernelM.run_bind_of_ok hpro,
      KernelM.run_bind_of_ok hissued, KernelM.run_bind_of_ok hwait,
      KernelM.run_bind_of_ok hcomputed, KernelM.run_bind_of_ok hsync, KernelM.run_bind_of_ok hepi,
      pure_bind]
    exact hexpand
  · -- Depth one: one steady block of clones of the whole body.
    rw [if_neg hgt] at hcheck ⊢
    obtain rfl : d = 1 := by omega
    obtain rfl : staged = [] := (Except.ok.inj hcheck).symm
    rw [pure_bind]
    obtain rfl : rings = [] := by cases hR; rfl
    obtain ⟨made, k₃, hslot, m₃, -⟩ := cloneSlot_runs [] .steady (.relative 0) none e₂ hentries
      (by rintro _ ⟨⟩)
    obtain ⟨k', hexpand, buf', loops', alike', size'⟩ := expand_runs made m₃.expanding hexp
      one_ne_zero (p := ⟨1, (k.loop l).extent, [], made.map (·.2), [], []⟩)
      fun x hx => m₃.after e₂ x (by simpa using hx)
    obtain ⟨hbuf, halike, horigin⟩ := finish _ m₃ buf' loops' alike' size'
    refine ⟨k', KernelM.run_lift_eq_ok.2 ?_, hbuf, ⟨_, loops', rfl, by simp, hR⟩, halike, horigin⟩
    rw [KernelM.run_bind_of_ok hrings, if_pos rfl, KernelM.run_bind_of_ok hslot, pure_bind]
    exact hexpand

end Expansion

end TileKernel
