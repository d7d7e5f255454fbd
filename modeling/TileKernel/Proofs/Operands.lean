import TileKernel.Proofs.Construction
import Mathlib.Data.List.Find

/-!
# Operand checks along a build

`Kernel.checkOperands` reads an op's name, kind and operands, and of each operand's buffer its
name, shape, element type and scope. The calls that build a kernel declare buffers and attach
layouts and swizzles, which changes none of that, and they edit only the dependencies, schedules
and places of the ops they keep. So an op whose operands passed the check when it was added
passes it in every kernel built on from there.

`Kernel.Consistent` adds that fact, and that every removed handle names an op of the arena, to
the invariant `Kernel.Arena`; every call of the building interface keeps it.
-/

set_option autoImplicit false

namespace TileKernel

/-- Two buffers the operand checks cannot tell apart: the same name, shape, element type and
scope. Layouts and swizzles may differ. -/
def Buffer.Alike (x y : Buffer) : Prop :=
  y.name = x.name ∧ y.shape = x.shape ∧ y.dtype = x.dtype ∧ y.scope = x.scope

namespace Kernel

variable {k k' k'' : Kernel}

/-! ### What the check reads -/

/-- The check reads an op's name, kind and operands only. -/
theorem checkOperands_detached (op : TileOp) : k.checkOperands op.detached = k.checkOperands op :=
  rfl

/-- The window check reads, of each operand's buffer, whether it exists, its name and its shape. -/
theorem checkWindows_congr {op : TileOp} (hb : ∀ o ∈ op.operands, ∃ x y,
    k.buffer? o.buffer = some x ∧ k'.buffer? o.buffer = some y ∧ x.Alike y) :
    k'.checkWindows op = k.checkWindows op := by
  unfold checkWindows
  generalize op.operands = os at hb
  induction os with
  | nil => rfl
  | cons o os ih =>
    obtain ⟨x, y, hx, hy, hn, hs, -⟩ := hb o (List.mem_cons_self ..)
    rw [List.forM, List.forM, ih fun o' h => hb o' (List.mem_cons_of_mem _ h)]
    simp only [tryBuffer, hx, hy, bind, Except.bind, hn, hs]

/-- The check reads, of each operand's buffer, whether it exists, its name, shape, element type
and scope. -/
theorem checkOperands_congr {op : TileOp} (hb : ∀ o ∈ op.operands, ∃ x y,
    k.buffer? o.buffer = some x ∧ k'.buffer? o.buffer = some y ∧ x.Alike y) :
    k'.checkOperands op = k.checkOperands op := by
  have field : ∀ o ∈ op.operands, (k'.buffer o.buffer).Alike (k.buffer o.buffer) := fun o ho => by
    obtain ⟨x, y, hx, hy, hn, hs, hd, hc⟩ := hb o ho
    simp only [Buffer.Alike, buffer, hx, hy, Option.getD_some, hn, hs, hd, hc, and_self]
  have hw := checkWindows_congr hb
  obtain ⟨name, kind, inputs, outputs, deps, sched⟩ := op
  simp only [TileOp.operands, List.mem_append] at field
  have tile : ∀ o, o ∈ inputs ∨ o ∈ outputs → k'.tileShapeOf o = k.tileShapeOf o := fun o ho => by
    rw [tileShapeOf, tileShapeOf, (field o ho).2.1]
  have hd : ∀ o, o ∈ inputs ∨ o ∈ outputs → (k'.buffer o.buffer).dtype = (k.buffer o.buffer).dtype :=
    fun o ho => (field o ho).2.2.1.symm
  have hc : ∀ o, o ∈ inputs ∨ o ∈ outputs → (k'.buffer o.buffer).scope = (k.buffer o.buffer).scope :=
    fun o ho => (field o ho).2.2.2.symm
  unfold checkOperands
  rw [hw]
  dsimp only
  split
  · rfl
  · split
    case h_4 dst _ =>
      have hany : ∀ t, (inputs.any fun x => decide (k'.tileShapeOf x ≠ t)) =
          inputs.any fun x => decide (k.tileShapeOf x ≠ t) := fun t => by
        rw [Bool.eq_iff_iff, List.any_eq_true, List.any_eq_true]
        exact exists_congr fun x => and_congr_right fun hx => by rw [tile x (.inl hx)]
      rw [hany, tile dst (.inr (List.mem_singleton_self dst))]
    case h_6 a b c _ =>
      -- The operand a product names in its error is found among its two inputs.
      have hfind : [a, b].find? (fun i => decide ((k'.buffer i.buffer).scope ≠ .shared ∧
          (k'.buffer i.buffer).scope ≠ .fragment)) = [a, b].find? (fun i =>
          decide ((k.buffer i.buffer).scope ≠ .shared ∧ (k.buffer i.buffer).scope ≠ .fragment)) :=
        List.find?_congr (by simp +contextual [hc])
      rw [hfind]
      rcases hf : List.find? (fun i => decide ((k.buffer i.buffer).scope ≠ .shared ∧
          (k.buffer i.buffer).scope ≠ .fragment)) [a, b] with _ | i
      · simp only [hf, tile, hc, List.mem_cons, List.not_mem_nil, or_true, true_or]
      · have hi : i ∈ [a, b] ∨ i ∈ [c] := .inl (List.mem_of_find?_eq_some hf)
        simp only [hf, tile, hc, (field i hi).1.symm, List.mem_cons, List.not_mem_nil, or_true,
          true_or]
    all_goals simp only [tile, hd, hc, List.mem_cons, List.not_mem_nil, or_true, true_or]

/-- An op that passes the check names buffers of the arena only. -/
theorem buffer?_of_checkOperands {op : TileOp} (h : k.checkOperands op = .ok ()) :
    ∀ o ∈ op.operands, ∃ x, k.buffer? o.buffer = some x := by
  have hw : k.checkWindows op = .ok () := by
    unfold checkOperands at h
    dsimp only at h
    split at h
    · cases h
    · rcases hw : k.checkWindows op with e | u
      · rw [hw] at h
        cases h
      · rfl
  intro o ho
  have := forM_except_ok hw o ho
  rcases hx : k.buffer? o.buffer with _ | x
  · simp [tryBuffer, hx, bind, Except.bind] at this
  · exact ⟨x, rfl⟩

/-! ### Edits that keep what the check reads -/

/-- `k'` shows every buffer of `k` to the operand checks as `k` does. -/
def BuffersAlike (k k' : Kernel) : Prop :=
  ∀ (b : BufferId) (x : Buffer), k.buffer? b = some x → ∃ y, k'.buffer? b = some y ∧ x.Alike y

/-- An op that passes the check passes it wherever its buffers look alike. -/
theorem checkOperands_of_alike (hb : k.BuffersAlike k') {op : TileOp}
    (h : k.checkOperands op = .ok ()) : k'.checkOperands op = .ok () := by
  rw [checkOperands_congr fun o ho => ?_]
  · exact h
  obtain ⟨x, hx⟩ := buffer?_of_checkOperands h o ho
  obtain ⟨y, hy, hxy⟩ := hb _ x hx
  exact ⟨x, y, hx, hy, hxy⟩

theorem buffersAlike_of_eq (h : k'.buffers = k.buffers) : k.BuffersAlike k' := fun b x hx =>
  ⟨x, by rw [buffer?, h]; exact hx, rfl, rfl, rfl, rfl⟩

theorem buffersAlike_push {b : Buffer} : k.BuffersAlike { k with buffers := k.buffers.push b } :=
  fun h x hx => ⟨x, by
    rw [buffer?, Array.getElem?_push, if_neg (Nat.ne_of_lt (Array.getElem?_eq_some_iff.1 hx).1)]
    exact hx, rfl, rfl, rfl, rfl⟩

theorem buffersAlike_modifyBuffer {h : BufferId} {f : Buffer → Buffer} (hf : ∀ x : Buffer, x.Alike (f x)) :
    k.BuffersAlike (k.modifyBuffer h f) := fun b x hx => by
  unfold buffer? at hx ⊢
  simp only [modifyBuffer, Array.getElem?_modify, hx]
  split_ifs
  · exact ⟨f x, rfl, hf x⟩
  · exact ⟨x, rfl, rfl, rfl, rfl, rfl⟩

/-- `k'` keeps every op of `k` as the operand checks see it, and may add ops. -/
structure OpsAlike (k k' : Kernel) : Prop where
  size : k.ops.size ≤ k'.ops.size
  detached : ∀ x, x.idx < k.ops.size → (k'.op x).detached = (k.op x).detached

theorem OpsAlike.refl (k : Kernel) : k.OpsAlike k := ⟨Nat.le_refl _, fun _ _ => rfl⟩

theorem OpsAlike.trans (h₁ : k.OpsAlike k') (h₂ : k'.OpsAlike k'') : k.OpsAlike k'' :=
  ⟨Nat.le_trans h₁.size h₂.size, fun x hx =>
    (h₂.detached x (Nat.lt_of_lt_of_le hx h₁.size)).trans (h₁.detached x hx)⟩

theorem opsAlike_of_eq (h : k'.ops = k.ops) : k.OpsAlike k' :=
  ⟨by rw [h], fun x _ => by simp only [Kernel.op, op?, h]⟩

theorem opsAlike_push {o : TileOp} : k.OpsAlike { k with ops := k.ops.push o } :=
  ⟨by simp, fun _ hx => by rw [op_push hx]⟩

theorem opsAlike_modifyOp {h : OpId} {f : TileOp → TileOp} (hf : ∀ o, (f o).detached = o.detached) :
    k.OpsAlike (k.modifyOp h f) := by
  refine ⟨by simp [modifyOp], fun x hx => ?_⟩
  by_cases hhx : h = x
  · subst hhx
    rw [op_modifyOp hx, if_pos rfl, hf]
  · rw [op_modifyOp_of_ne hhx]

/-- Moving dependents edits dependencies only. -/
theorem redirectDependents_alike (src dst : OpId) :
    (k.redirectDependents src dst).buffers = k.buffers ∧
      (k.redirectDependents src dst).ops.size = k.ops.size ∧
      k.OpsAlike (k.redirectDependents src dst) := by
  unfold redirectDependents
  induction k.dependents src generalizing k with
  | nil => exact ⟨rfl, rfl, .refl k⟩
  | cons d ds ih =>
    rw [List.foldl_cons]
    split_ifs
    · exact ih
    · obtain ⟨hb, hs, ho⟩ := ih (k := k.modifyOp d fun o =>
        { o with deps := dst.insertSorted (o.deps.erase src) })
      refine ⟨hb, hs.trans (Array.size_modify ..), OpsAlike.trans ?_ ho⟩
      exact opsAlike_modifyOp fun _ => rfl

/-- Bypassing an op edits dependencies only. -/
theorem bypass_alike {h : OpId} : (k.bypass h).buffers = k.buffers ∧ k.OpsAlike (k.bypass h) := by
  unfold bypass
  generalize k.op h = o₀
  induction k.dependents h generalizing k with
  | nil => exact ⟨rfl, .refl k⟩
  | cons d ds ih =>
    obtain ⟨hb, ho⟩ := ih (k := k.modifyOp d _)
    refine ⟨hb, OpsAlike.trans ?_ ho⟩
    exact opsAlike_modifyOp fun _ => rfl

theorem buffers_modifyBlock {b : Block} {f : List OpId → List OpId} {g : List Stmt → List Stmt} :
    (k.modifyBlock b f g).buffers = k.buffers := by
  cases b <;> rfl

/-! ### The invariant -/

/-- The invariant of a kernel under construction, with two facts about its ops: every removed
handle names an op of the arena, and every op passes the operand checks. -/
structure Consistent (k : Kernel) : Prop extends Arena k where
  removedExist : k.RemovedExist
  operandsChecked : ∀ x, x.idx < k.ops.size → k.checkOperands (k.op x) = .ok ()

namespace Consistent

/-- The kernel a build starts from. -/
theorem empty (name : String) : Consistent { name } where
  toArena := Arena.empty name
  removedExist _ h := by cases h
  operandsChecked _ h := absurd h (Nat.not_lt_zero _)

/-- An edit keeps the invariant when it keeps the arena invariant and the removed handles, shows
the buffers alike, keeps the ops alike, and adds at most one op, which passes the check. -/
theorem of_alike (hC : k.Consistent) (hA : k'.Arena) (hr : k'.RemovedExist)
    (hb : k.BuffersAlike k') (ho : k.OpsAlike k') (hs : k'.ops.size ≤ k.ops.size + 1)
    (hnew : k.ops.size < k'.ops.size → k.checkOperands (k'.op ⟨k.ops.size⟩) = .ok ()) :
    k'.Consistent where
  toArena := hA
  removedExist := hr
  operandsChecked x hx := by
    by_cases hlt : x.idx < k.ops.size
    · rw [← checkOperands_detached, ho.detached x hlt, checkOperands_detached]
      exact checkOperands_of_alike hb (hC.operandsChecked x hlt)
    · obtain ⟨i⟩ := x
      obtain rfl : i = k.ops.size := by simp only at hlt hx; omega
      exact checkOperands_of_alike hb (hnew hx)

/-- An edit that adds no op and keeps the removed ops keeps the invariant when it keeps the arena
invariant and shows the buffers and ops alike. -/
theorem of_ops_eq' (hC : k.Consistent) (hA : k'.Arena) (hs : k'.ops.size = k.ops.size)
    (hr : k'.removed = k.removed) (hb : k.BuffersAlike k') (ho : k.OpsAlike k') : k'.Consistent :=
  hC.of_alike hA (fun x hx => hs ▸ hC.removedExist x (hr ▸ hx)) hb ho
    (by rw [hs]; exact Nat.le_succ _) fun h => absurd h (by rw [hs]; exact Nat.lt_irrefl _)

/-- An edit that leaves the op arena and the removed ops alone keeps the invariant when it keeps
the arena invariant and shows the buffers alike. -/
theorem of_ops_eq (hC : k.Consistent) (hA : k'.Arena) (ho : k'.ops = k.ops)
    (hr : k'.removed = k.removed) (hb : k.BuffersAlike k') : k'.Consistent :=
  hC.of_ops_eq' hA (by rw [ho]) hr hb (opsAlike_of_eq ho)

/-- Changing one op without changing what the check reads keeps the invariant. -/
theorem of_modifyOp (hC : k.Consistent) {x : OpId} {f : TileOp → TileOp}
    (hf : ∀ o, (f o).detached = o.detached) (hA : (k.modifyOp x f).Arena) :
    (k.modifyOp x f).Consistent :=
  hC.of_ops_eq' hA (by simp [modifyOp]) rfl (buffersAlike_of_eq rfl) (opsAlike_modifyOp hf)

/-- Pushing an op that passes the check keeps the invariant. -/
theorem of_push (hC : k.Consistent) {o : TileOp} (hc : k.checkOperands o = .ok ())
    (hA : Arena { k with ops := k.ops.push o }) : Consistent { k with ops := k.ops.push o } :=
  hC.of_alike hA (keeps_push.removedExist hC.removedExist) (buffersAlike_of_eq rfl) opsAlike_push
    (by simp) fun _ => by rw [op_push_self]; exact hc

/-! ### Each call keeps the invariant -/

theorem addBuffer (hC : k.Consistent) {b : Buffer} {x : BufferId} (h : k.addBuffer b = .ok (x, k')) :
    k'.Consistent := by
  have hA := hC.toArena.addBuffer h
  unfold Kernel.addBuffer at h
  split_ifs at h
  obtain ⟨-, rfl⟩ := Prod.mk.inj (Except.ok.inj h)
  exact hC.of_ops_eq hA rfl rfl buffersAlike_push

theorem attachLayout (hC : k.Consistent) {b : BufferId} {l : Layout}
    (h : k.attachLayout b l = .ok k') : k'.Consistent := by
  have hA := hC.toArena.attachLayout h
  obtain ⟨-, rfl⟩ := attachLayout_ok h
  exact hC.of_ops_eq hA rfl rfl (buffersAlike_modifyBuffer fun _ => ⟨rfl, rfl, rfl, rfl⟩)

theorem attachSwizzle (hC : k.Consistent) {b : BufferId} {s : Swizzle}
    (h : (k.attachSwizzle b s).run = .ok (.ok k')) : k'.Consistent := by
  have hA := hC.toArena.attachSwizzle h
  obtain rfl := attachSwizzle_ok h
  exact hC.of_ops_eq hA rfl rfl (buffersAlike_modifyBuffer fun _ => ⟨rfl, rfl, rfl, rfl⟩)

theorem push (hC : k.Consistent) {h : OpId} (hp : k.push h = .ok k') : k'.Consistent := by
  have hA := hC.toArena.push hp
  obtain ⟨-, rfl⟩ := push_ok hp
  exact hC.of_ops_eq hA rfl rfl (buffersAlike_of_eq rfl)

theorem pushLoop (hC : k.Consistent) {n : LoopNest} {l : LoopId} (hp : k.pushLoop n = .ok (l, k')) :
    k'.Consistent := by
  have hA := hC.toArena.pushLoop hp
  obtain ⟨-, -, rfl⟩ := pushLoop_ok hp
  exact hC.of_ops_eq hA rfl rfl (buffersAlike_of_eq rfl)

theorem pushToLoop (hC : k.Consistent) {l : LoopId} {h : OpId} (hp : k.pushToLoop l h = .ok k') :
    k'.Consistent := by
  have hA := hC.toArena.pushToLoop hp
  obtain ⟨-, -, -, rfl⟩ := pushToLoop_ok hp
  exact hC.of_ops_eq hA rfl rfl (buffersAlike_of_eq rfl)

theorem setSched (hC : k.Consistent) {x : OpId} {info : SchedInfo} (h : k.setSched x info = .ok k') :
    k'.Consistent := by
  have hA := hC.toArena.setSched h
  obtain ⟨-, rfl⟩ := setSched_ok h
  exact hC.of_modifyOp (fun _ => rfl) hA

theorem addDependency (hC : k.Consistent) {h on : OpId} (hd : k.addDependency h on = .ok k') :
    k'.Consistent := by
  have hA := hC.toArena.addDependency hd
  obtain ⟨-, -, rfl⟩ := addDependency_ok hd
  exact hC.of_modifyOp (fun _ => rfl) hA

theorem addOp (hC : k.Consistent) {o : TileOp} {x : OpId} (h : k.addOp o = .ok (x, k')) :
    k'.Consistent := by
  have hA := hC.toArena.addOp h
  have hc := (addOp_checks h).1
  obtain ⟨-, rfl⟩ := addOp_ok h
  exact hC.of_push hc hA

theorem insertBefore (hC : k.Consistent) {a x : OpId} {o : TileOp}
    (h : k.insertBefore a o = .ok (x, k')) : k'.Consistent := by
  have hA := hC.toArena.insertBefore h
  obtain ⟨b, -, rfl, hd, hc, rfl⟩ := insertBefore_eq h
  have pushed := hC.of_push (o := o.scheduledAs (k.op a).sched)
    (by rw [checkOperands_scheduledAs]; exact hc) (hC.toArena.pushOp (by simpa using hd))
  exact pushed.of_ops_eq hA ops_modifyBlock removed_modifyBlock (buffersAlike_of_eq buffers_modifyBlock)

theorem insertAfter (hC : k.Consistent) {a x : OpId} {o : TileOp}
    (h : k.insertAfter a o = .ok (x, k')) : k'.Consistent := by
  have hA := hC.toArena.insertAfter h
  obtain ⟨b, -, rfl, hd, hc, rfl⟩ := insertAfter_eq h
  have pushed := hC.of_push (o := o.scheduledAs (k.op a).sched)
    (by rw [checkOperands_scheduledAs]; exact hc) (hC.toArena.pushOp (by simpa using hd))
  exact pushed.of_ops_eq hA ops_modifyBlock removed_modifyBlock (buffersAlike_of_eq buffers_modifyBlock)

theorem replaceOp (hC : k.Consistent) {old x : OpId} {o : TileOp}
    (h : k.replaceOp old o = .ok (x, k')) : k'.Consistent := by
  have hA := hC.toArena.replaceOp h
  obtain ⟨b, -, hold, rfl, hc, hk'⟩ := replaceOp_eq h
  let o' : TileOp := { o with deps := (k.op old).deps, sched := (k.op old).sched }
  obtain ⟨hb, hs, ho⟩ := redirectDependents_alike (k := { k with ops := k.ops.push o' }) old
    ⟨k.ops.size⟩
  -- The new op is pushed, then only dependencies and places change.
  have pushed : OpsAlike { k with ops := k.ops.push o' } k' := by
    rw [hk']
    exact ho.trans (opsAlike_of_eq ops_modifyBlock)
  have size : k'.ops.size = k.ops.size + 1 := by
    rw [hk']
    exact (congrArg Array.size ops_modifyBlock).trans (hs.trans (Array.size_push ..))
  refine hC.of_alike hA (fun y hy => ?_) (buffersAlike_of_eq ?_) (opsAlike_push.trans pushed)
    size.le fun _ => ?_
  · rw [size]
    rw [hk'] at hy
    rcases List.mem_append.1 hy with hy | hy
    · exact Nat.lt_succ_of_lt (hC.removedExist y hy)
    · rw [List.mem_singleton.1 hy]
      exact Nat.lt_succ_of_lt hold
  · rw [hk']
    exact buffers_modifyBlock.trans hb
  · rw [← checkOperands_detached, pushed.detached _ (by simp), op_push_self]
    exact hc

theorem removeOp (hC : k.Consistent) {h : OpId} (hr : k.removeOp h = .ok k') : k'.Consistent := by
  have hA := hC.toArena.removeOp hr
  obtain ⟨b, -, hlt, rfl⟩ := removeOp_eq hr
  obtain ⟨hb, ho⟩ := bypass_alike (k := k) (h := h)
  obtain ⟨-, -, hrm, hs⟩ := bypass_frame (k := k) (h := h)
  refine hC.of_alike hA (fun y hy => ?_) (buffersAlike_of_eq (buffers_modifyBlock.trans hb))
    (ho.trans (opsAlike_of_eq ops_modifyBlock))
    (by simp only [ops_modifyBlock, hs, Nat.le_succ]) fun hgt => ?_
  · simp only [ops_modifyBlock, hs]
    rcases List.mem_append.1 hy with hy | hy
    · exact hC.removedExist y (hrm ▸ hy)
    · rw [List.mem_singleton.1 hy]
      exact hlt
  · simp only [ops_modifyBlock, hs, Nat.lt_irrefl] at hgt

/-- Every successful call keeps the invariant. -/
theorem call (hC : k.Consistent) (hc : Call k k') : k'.Consistent := by
  cases hc with
  | addBuffer h => exact hC.addBuffer h
  | addOp h => exact hC.addOp h
  | push h => exact hC.push h
  | pushLoop h => exact hC.pushLoop h
  | pushToLoop h => exact hC.pushToLoop h
  | addDependency h => exact hC.addDependency h
  | insertBefore h => exact hC.insertBefore h
  | insertAfter h => exact hC.insertAfter h
  | replaceOp h => exact hC.replaceOp h
  | removeOp h => exact hC.removeOp h
  | setSched h => exact hC.setSched h
  | attachLayout h => exact hC.attachLayout h
  | attachSwizzle h => exact hC.attachSwizzle h

theorem run (hC : k.Consistent) (h : Relation.ReflTransGen Call k k') : k'.Consistent := by
  induction h with
  | refl => exact hC
  | tail _ hc ih => exact ih.call hc

end Consistent

theorem Built.consistent (hk : k.Built) : k.Consistent := by
  obtain ⟨name, hrun⟩ := hk
  exact (Consistent.empty name).run hrun

end Kernel
end TileKernel
