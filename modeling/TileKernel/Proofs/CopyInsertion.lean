import TileKernel.Proofs.Materialize
import TileKernel.Proofs.Simplification

/-!
# Materializing copies go through

A layout round that meets a conflict inserts a materializing copy (`materialize`): it declares a
fresh buffer, places a relayout copy next to the op it separates from the buffer, rewrites that op
onto the fresh buffer and orders the two. Each of these edits checks its arguments and may refuse
them, which would leave the kernel half edited. On a kernel that is formed, acyclic and whose
buffers could all be declared again (`Kernel.Assignable`) none of them does: the fresh buffer has
a new name and the shape of the one it copies, the copy and the rewritten op pass the operand
checks, and no dependency added closes a cycle. The kernel left is assignable again, so the next
round may copy again.

* `checkOperands_retarget`: moving an op's operands from a buffer to a fresh one alike to it keeps
  the operand checks passing;
* `materialize_ok`: a materialization at a copy site of a live op succeeds and keeps the kernel
  assignable;
* `Built.assignable`: every kernel the building interface makes is assignable.
-/

set_option autoImplicit false

namespace TileKernel
namespace Kernel

variable {k k' : Kernel}

/-! ### Moving operands to another buffer -/

/-- The window checks read, of each operand, its window and the shape of its buffer. -/
theorem checkWindows_map {op : TileOp} (f : Operand → Operand)
    (step : ∀ o ∈ op.operands, (f o).step = o.step)
    (shape : ∀ o ∈ op.operands, ∀ x, k.buffer? o.buffer = some x →
      ∃ y, k.buffer? (f o).buffer = some y ∧ y.shape = x.shape)
    (h : k.checkWindows op = .ok ()) :
    k.checkWindows { op with inputs := op.inputs.map f, outputs := op.outputs.map f } = .ok () := by
  unfold checkWindows at h ⊢
  rw [forM_except_eq_ok_iff] at h ⊢
  intro o' ho'
  obtain ⟨o, ho, rfl⟩ : ∃ o ∈ op.operands, f o = o' := by
    simpa [TileOp.operands, or_and_right, exists_or] using ho'
  have ho' := h o ho
  rcases hx : k.buffer? o.buffer with _ | x
  · simp [tryBuffer, hx, bind, Except.bind] at ho'
  obtain ⟨y, hy, hyx⟩ := shape o ho x hx
  simp only [tryBuffer, hx, hy, bind, Except.bind, step o ho, hyx] at ho' ⊢
  -- The window tiles the axis of the new buffer as it tiled the old one's.
  split
  · rfl
  · rename_i s hs
    simp only [hs] at ho'
    split_ifs at ho' ⊢
    rfl

/-- The operand checks pass for an op whose operands are mapped to ones with the same tiles,
element types and scopes, and which share a buffer exactly when the originals did. -/
theorem checkOperands_map {op : TileOp} (f : Operand → Operand)
    (hw : k.checkWindows { op with inputs := op.inputs.map f, outputs := op.outputs.map f } = .ok ())
    (tile : ∀ o ∈ op.operands, k.tileShapeOf (f o) = k.tileShapeOf o)
    (dtype : ∀ o ∈ op.operands, (k.buffer (f o).buffer).dtype = (k.buffer o.buffer).dtype)
    (scope : ∀ o ∈ op.operands, (k.buffer (f o).buffer).scope = (k.buffer o.buffer).scope)
    (same : ∀ a ∈ op.operands, ∀ b ∈ op.operands, (f a).buffer = (f b).buffer ↔ a.buffer = b.buffer)
    (h : k.checkOperands op = .ok ()) :
    k.checkOperands { op with inputs := op.inputs.map f, outputs := op.outputs.map f } = .ok () := by
  have hw₀ := checkWindows_of_checkOperands h
  obtain ⟨hin, hout⟩ := arity_of_checkOperands h
  obtain ⟨name, kind, inputs, outputs, deps, sched⟩ := op
  simp only [TileOp.operands, List.mem_append] at tile dtype scope same
  dsimp only at hin hout hw hw₀
  -- The arity fixes the operand lists; the kind's rules then read, of each operand, what `f`
  -- keeps.
  cases kind <;> simp only [OpKind.arity] at hin hout
  case barrier =>
    obtain rfl := List.eq_nil_of_length_eq_zero hin
    obtain rfl := List.eq_nil_of_length_eq_zero hout
    exact h
  all_goals
    obtain ⟨d, rfl⟩ := List.length_eq_one_iff.1 hout
    first
      | obtain rfl := List.eq_nil_of_length_eq_zero hin
      | obtain ⟨a, rfl⟩ := List.length_eq_one_iff.1 hin
      | obtain ⟨a, b, rfl⟩ := List.length_eq_two.1 hin
    simp only [List.map] at hw
    simp only [checkOperands, List.map, hw, hw₀, OpKind.arity, List.length_cons, List.length_nil,
      Nat.zero_add, ne_eq, not_true_eq_false, or_self, if_false, beq_iff_eq, List.any_cons,
      List.any_nil, List.find?_cons, List.find?_nil, tile, dtype, scope, same, List.mem_cons,
      List.not_mem_nil, or_true, true_or, or_false] at h ⊢
  case gemm =>
    -- A product names the operand that is neither shared nor a fragment, and that name changes.
    by_cases sa : ¬(k.buffer a.buffer).scope = .shared ∧ ¬(k.buffer a.buffer).scope = .fragment
    · simp only [sa] at h
      split_ifs at h <;> cases h
    by_cases sb : ¬(k.buffer b.buffer).scope = .shared ∧ ¬(k.buffer b.buffer).scope = .fragment
    · simp only [sa, sb, decide_false] at h
      split_ifs at h <;> cases h
    simp only [sa, sb, decide_false] at h ⊢
    exact h
  all_goals exact h

/-- Moving every operand on `src` of an op to a buffer `dst` the op does not touch, alike to `src`
but for its name, keeps the operand checks passing. -/
theorem checkOperands_retarget {op : TileOp} {src dst : BufferId} {x y : Buffer}
    (hx : k.buffer? src = some x) (hy : k.buffer? dst = some y)
    (alike : y.shape = x.shape ∧ y.dtype = x.dtype ∧ y.scope = x.scope)
    (hfree : ∀ o ∈ op.operands, o.buffer ≠ dst) (h : k.checkOperands op = .ok ()) :
    k.checkOperands (retarget op src dst) = .ok () := by
  set move := fun (o : Operand) => if o.buffer == src then { o with buffer := dst } else o
  have moved : ∀ o : Operand, (move o).buffer = (if o.buffer = src then dst else o.buffer) ∧
      (move o).step = o.step := fun o => by
    by_cases ho : o.buffer = src <;> simp [move, ho]
  -- A moved operand reads `y` where it read `x`.
  have seen : ∀ o : Operand, (k.buffer (move o).buffer).shape = (k.buffer o.buffer).shape ∧
      (k.buffer (move o).buffer).dtype = (k.buffer o.buffer).dtype ∧
      (k.buffer (move o).buffer).scope = (k.buffer o.buffer).scope := fun o => by
    by_cases ho : o.buffer = src
    · simp [move, ho, buffer, hx, hy, alike]
    · simp [move, ho]
  have same : ∀ a ∈ op.operands, ∀ b ∈ op.operands,
      (move a).buffer = (move b).buffer ↔ a.buffer = b.buffer := fun a ha b hb => by
    have := hfree a ha
    have := hfree b hb
    rw [(moved a).1, (moved b).1]
    split_ifs <;> grind
  have windows : k.checkWindows
      { op with inputs := op.inputs.map move, outputs := op.outputs.map move } = .ok () := by
    refine checkWindows_map move (fun o _ => (moved o).2) (fun o _ x' hx' => ?_)
      (checkWindows_of_checkOperands h)
    by_cases ho : o.buffer = src
    · rw [ho, hx] at hx'
      cases hx'
      exact ⟨y, by simp [(moved o).1, ho, hy], alike.1⟩
    · exact ⟨x', by simpa [(moved o).1, ho] using hx', rfl⟩
  exact checkOperands_map move windows
    (fun o _ => by simp only [tileShapeOf, Operand.tileShape, (moved o).2, (seen o).1])
    (fun o _ => (seen o).2.1) (fun o _ => (seen o).2.2) same h

/-- A relayout copy between two buffers of one shape and element type passes the checks. -/
theorem checkOperands_relayoutOp {name : String} {src dst : BufferId} {x y : Buffer}
    (hx : k.buffer? src = some x) (hy : k.buffer? dst = some y) (hne : src ≠ dst)
    (alike : y.shape = x.shape ∧ y.dtype = x.dtype) :
    k.checkOperands (relayoutOp name src dst) = .ok () := by
  simp [checkOperands, relayoutOp, checkWindows, tryBuffer, Operand.whole, tileShapeOf,
    Operand.tileShape, buffer, hx, hy, hne, alike, OpKind.arity, TileOp.operands, bind, Except.bind,
    pure, Except.pure]

/-! ### Kernels a round may copy in -/

/-- Every buffer of the kernel could be declared again under a new name. -/
def BuffersDeclarable (k : Kernel) : Prop := ∀ x ∈ k.buffers, x.Declarable

theorem buffersDeclarable_of_eq (h : k'.buffers = k.buffers) (hk : k.BuffersDeclarable) :
    k'.BuffersDeclarable := fun x hx => hk x (h ▸ hx)

theorem buffersDeclarable_push {x : Buffer} (hk : k.BuffersDeclarable) (hx : x.Declarable) :
    BuffersDeclarable { k with buffers := k.buffers.push x } := fun y hy => by
  rcases Array.mem_push.1 hy with hy | rfl
  · exact hk y hy
  · exact hx

theorem buffersDeclarable_modifyBuffer {b : BufferId} {g : Buffer → Buffer}
    (hg : ∀ x : Buffer, x.Declarable → (g x).Declarable) (hk : k.BuffersDeclarable) :
    (k.modifyBuffer b g).BuffersDeclarable := fun y hy => by
  obtain ⟨i, hi, rfl⟩ := Array.mem_iff_getElem.1 hy
  have hi' : i < k.buffers.size := by simpa [modifyBuffer] using hi
  simp only [modifyBuffer, Array.getElem_modify]
  split_ifs
  · exact hg _ (hk _ (Array.getElem_mem hi'))
  · exact hk _ (Array.getElem_mem hi')

/-- The building interface declares buffers through `addBuffer` alone, and attaching a layout or
a swizzle changes none of what a declaration checks. -/
theorem Call.buffersDeclarable (hc : Call k k') (hk : k.BuffersDeclarable) : k'.BuffersDeclarable := by
  cases hc with
  | addBuffer h =>
    obtain ⟨-, hx, -, rfl⟩ := addBuffer_eq_ok.1 h
    exact buffersDeclarable_push hk hx
  | addOp h => obtain ⟨-, rfl⟩ := addOp_ok h; exact hk
  | push h => obtain ⟨-, rfl⟩ := push_ok h; exact hk
  | pushLoop h => obtain ⟨-, -, rfl⟩ := pushLoop_ok h; exact hk
  | pushToLoop h => obtain ⟨-, -, -, rfl⟩ := pushToLoop_ok h; exact hk
  | addDependency h => obtain ⟨-, -, rfl⟩ := addDependency_ok h; exact hk
  | insertBefore h => exact buffersDeclarable_of_eq (insertBefore_frame h).1 hk
  | insertAfter h => exact buffersDeclarable_of_eq (insertAfter_frame h).1 hk
  | replaceOp h => exact buffersDeclarable_of_eq (replaceOp_frame h).1 hk
  | removeOp h =>
    obtain ⟨b, -, -, rfl⟩ := removeOp_eq h
    exact buffersDeclarable_of_eq (buffers_modifyBlock.trans bypass_alike.1) hk
  | setSched h => obtain ⟨-, rfl⟩ := setSched_ok h; exact hk
  | attachLayout h =>
    obtain ⟨-, rfl⟩ := attachLayout_ok h
    exact buffersDeclarable_modifyBuffer (fun _ hx => hx) hk
  | attachSwizzle h =>
    obtain rfl := attachSwizzle_ok h
    exact buffersDeclarable_modifyBuffer (fun _ hx => hx) hk

theorem Built.buffersDeclarable (hk : k.Built) : k.BuffersDeclarable := by
  obtain ⟨name, hrun⟩ := hk
  induction hrun with
  | refl => exact fun x hx => absurd hx (by simp)
  | tail _ hc ih => exact hc.buffersDeclarable ih

/-- What a layout round needs of a kernel to insert a materializing copy, and what inserting one
keeps: the kernel is formed, no op waits for itself through a chain of dependencies, and every
buffer could be declared again. -/
structure Assignable (k : Kernel) : Prop extends Formed k where
  acyclic : ∀ a, ¬ Relation.TransGen k.Waits a a
  declarable : k.BuffersDeclarable

theorem Built.assignable (hk : k.Built) : k.Assignable :=
  ⟨hk.formed, hk.arena.acyclic, hk.buffersDeclarable⟩

namespace Assignable

theorem arena (hA : k.Assignable) : k.Arena :=
  ⟨hA.depsExist, hA.acyclic, hA.placedExist, hA.placedOnce, hA.loopsOnce⟩

theorem addBuffer (hA : k.Assignable) {x : Buffer} {f : BufferId} (h : k.addBuffer x = .ok (f, k')) :
    k'.Assignable := by
  have hF := hA.toFormed.addBuffer h
  have hA' := hA.arena.addBuffer h
  obtain ⟨-, hx, -, rfl⟩ := addBuffer_eq_ok.1 h
  exact ⟨hF, hA'.acyclic, buffersDeclarable_push hA.declarable hx⟩

theorem insertBefore (hA : k.Assignable) {a x : OpId} {o : TileOp}
    (h : k.insertBefore a o = .ok (x, k')) : k'.Assignable :=
  ⟨hA.toFormed.insertBefore h, (hA.arena.insertBefore h).acyclic,
    buffersDeclarable_of_eq (insertBefore_frame h).1 hA.declarable⟩

theorem insertAfter (hA : k.Assignable) {a x : OpId} {o : TileOp}
    (h : k.insertAfter a o = .ok (x, k')) : k'.Assignable :=
  ⟨hA.toFormed.insertAfter h, (hA.arena.insertAfter h).acyclic,
    buffersDeclarable_of_eq (insertAfter_frame h).1 hA.declarable⟩

theorem replaceOp (hA : k.Assignable) {old x : OpId} {o : TileOp}
    (h : k.replaceOp old o = .ok (x, k')) : k'.Assignable :=
  ⟨hA.toFormed.replaceOp h, (hA.arena.replaceOp h).acyclic,
    buffersDeclarable_of_eq (replaceOp_frame h).1 hA.declarable⟩

theorem addDependency (hA : k.Assignable) {h on : OpId} (hd : k.addDependency h on = .ok k') :
    k'.Assignable :=
  ⟨hA.toFormed.addDependency hd, (hA.arena.addDependency hd).acyclic,
    buffersDeclarable_of_eq (addDependency_frame hd).1 hA.declarable⟩

end Assignable

/-! ### The edges the edits leave -/

/-- An op pushed without dependencies has no edge: it waits for nothing, and nothing waits for
it. -/
theorem isolated_push (hd : k.DepsExist) {o : TileOp} (ho : o.deps = []) (y : OpId) :
    ¬ Waits { k with ops := k.ops.push o } ⟨k.ops.size⟩ y ∧
      ¬ Waits { k with ops := k.ops.push o } y ⟨k.ops.size⟩ := by
  constructor <;> intro hw <;> rcases waits_push hw with ⟨hy, hw⟩ | ⟨-, hw⟩
  · exact Nat.lt_irrefl _ hy
  · simp [ho] at hw
  · exact Nat.lt_irrefl _ (hd y _ hw)
  · simp [ho] at hw

theorem isolated_insertBefore (hd : k.DepsExist) {a x : OpId} {o : TileOp} (ho : o.deps = [])
    (h : k.insertBefore a o = .ok (x, k')) (y : OpId) : ¬ k'.Waits x y ∧ ¬ k'.Waits y x := by
  obtain ⟨b, -, rfl, -, -, rfl⟩ := insertBefore_eq h
  rw [waits_modifyBlock]
  exact isolated_push hd (by simpa using ho) y

theorem isolated_insertAfter (hd : k.DepsExist) {a x : OpId} {o : TileOp} (ho : o.deps = [])
    (h : k.insertAfter a o = .ok (x, k')) (y : OpId) : ¬ k'.Waits x y ∧ ¬ k'.Waits y x := by
  obtain ⟨b, -, rfl, -, -, rfl⟩ := insertAfter_eq h
  rw [waits_modifyBlock]
  exact isolated_push hd (by simpa using ho) y

theorem waits_withRemoved (r : List OpId) {y z : OpId} :
    ({ k with removed := r } : Kernel).Waits y z ↔ k.Waits y z :=
  Iff.rfl

/-- Taken for the op it replaces, the new op of a replacement has only the edges the old one had:
every edge after the replacement is an edge before it. -/
theorem waits_replaceOp {old x : OpId} {o : TileOp} (h : k.replaceOp old o = .ok (x, k'))
    (hd : k.DepsExist) {y z : OpId} (hw : k'.Waits y z) :
    k.Waits (if y = x then old else y) (if z = x then old else z) := by
  obtain ⟨b, -, -, hx, -, hk⟩ := replaceOp_eq h
  subst hx hk
  rw [waits_withRemoved, waits_modifyBlock] at hw
  -- A moved dependent waits for the new op where it waited for the old; the new op waits for
  -- what the old one did.
  rcases waits_redirectDependents hw with hw | ⟨hz, hw⟩
  · rcases waits_push hw with ⟨hy, hw⟩ | ⟨hy, hw⟩
    · rw [if_neg (ne_fresh hy), if_neg (ne_fresh (hd y z hw))]
      exact hw
    · rw [if_pos hy, if_neg (ne_fresh (hd old z hw))]
      exact hw
  · rcases waits_push hw with ⟨hy, hw⟩ | ⟨hy, hw⟩
    · rw [if_neg (ne_fresh hy), if_pos hz]
      exact hw
    · rw [if_pos hy, if_pos hz]
      exact hw

/-- Moving the dependents of `src` onto an op without edges adds only edges that, with the op
taken for `src`, were there. -/
theorem waits_redirectDependents_isolated {src dst : OpId}
    (hdst : ∀ y, ¬ k.Waits dst y ∧ ¬ k.Waits y dst) {y z : OpId}
    (hw : (k.redirectDependents src dst).Waits y z) :
    k.Waits (if y = dst then src else y) (if z = dst then src else z) := by
  rcases waits_redirectDependents hw with hw | ⟨hz, hw⟩
  · rw [if_neg fun (e : y = dst) => (hdst z).1 (e ▸ hw),
      if_neg fun (e : z = dst) => (hdst y).2 (e ▸ hw)]
    exact hw
  · rw [if_neg fun (e : y = dst) => (hdst src).1 (e ▸ hw), if_pos hz]
    exact hw

/-! ### The edits go through -/

theorem insertBefore_live (hF : k.Formed) {a : OpId} (ha : a ∈ k.liveOps) {o : TileOp}
    (hc : k.checkOperands o = .ok ()) (hd : ∀ d ∈ o.deps, d.idx < k.ops.size) :
    ∃ k', k.insertBefore a o = .ok (⟨k.ops.size⟩, k') := by
  obtain ⟨b, hb⟩ := placed_of_live hF ha
  have hadd := addOp_eq (k := k) (o := o.scheduledAs (k.op a).sched)
    (by rw [checkOperands_scheduledAs]; exact hc) (by simpa using hd)
  simp only [insertBefore, hb, bind, Except.bind]
  rw [show (if o.sched.isNone = true then { o with sched := (k.op a).sched } else o) =
    o.scheduledAs (k.op a).sched from rfl, hadd]
  exact ⟨_, rfl⟩

theorem insertAfter_live (hF : k.Formed) {a : OpId} (ha : a ∈ k.liveOps) {o : TileOp}
    (hc : k.checkOperands o = .ok ()) (hd : ∀ d ∈ o.deps, d.idx < k.ops.size) :
    ∃ k', k.insertAfter a o = .ok (⟨k.ops.size⟩, k') := by
  obtain ⟨b, hb⟩ := placed_of_live hF ha
  have hadd := addOp_eq (k := k) (o := o.scheduledAs (k.op a).sched)
    (by rw [checkOperands_scheduledAs]; exact hc) (by simpa using hd)
  simp only [insertAfter, hb, bind, Except.bind]
  rw [show (if o.sched.isNone = true then { o with sched := (k.op a).sched } else o) =
    o.scheduledAs (k.op a).sched from rfl, hadd]
  exact ⟨_, rfl⟩

theorem buffer_mem {b : BufferId} (hb : b.idx < k.buffers.size) : k.buffer b ∈ k.buffers := by
  rw [buffer, buffer?, Array.getElem?_eq_getElem hb, Option.getD_some]
  exact Array.getElem_mem hb

/-- A buffer of an assignable kernel can be declared again under a name no buffer has. -/
theorem addBuffer_renamed (hA : k.Assignable) {b : BufferId} (hb : b.idx < k.buffers.size)
    {name : String} (fresh : ∀ x ∈ k.buffers, x.name ≠ name) :
    k.addBuffer ((k.buffer b).renamed name) =
      .ok (⟨k.buffers.size⟩, { k with buffers := k.buffers.push ((k.buffer b).renamed name) }) := by
  have decl := hA.declarable _ (buffer_mem hb)
  refine addBuffer_eq_ok.2 ⟨fresh, ⟨decl.1, decl.2.1, decl.2.2.1, ?_⟩, rfl, rfl⟩
  simp [Buffer.renamed]

end Kernel

open Kernel

/-! ### Materializations go through -/

/-- The operands of a checked op name buffers of the kernel, so never the one declared next. -/
theorem Kernel.operand_ne_fresh {k : Kernel} {op : TileOp} (hc : k.checkOperands op = .ok ()) :
    ∀ o ∈ op.operands, o.buffer ≠ ⟨k.buffers.size⟩ := fun o ho he => by
  obtain ⟨x, hx⟩ := buffer?_of_checkOperands hc o ho
  exact Nat.lt_irrefl _ (he ▸ lt_of_buffer? hx)

/-- Declaring a buffer again under a name no buffer has keeps an assignable kernel assignable,
and a live op moved from the buffer onto the new one passes the checks there. -/
theorem addBuffer_renamed_retarget {k : Kernel} (hA : k.Assignable) {h : OpId} (hh : h ∈ k.liveOps)
    {b : BufferId} (hb : b.idx < k.buffers.size) {name : String}
    (fresh : ∀ x ∈ k.buffers, x.name ≠ name) :
    let k₁ : Kernel := { k with buffers := k.buffers.push ((k.buffer b).renamed name) }
    k.addBuffer ((k.buffer b).renamed name) = .ok (⟨k.buffers.size⟩, k₁) ∧ k₁.Assignable ∧
      k₁.buffer? b = some (k.buffer b) ∧
      k₁.buffer? ⟨k.buffers.size⟩ = some ((k.buffer b).renamed name) ∧
      k₁.checkOperands (retarget (k₁.op h) b ⟨k.buffers.size⟩) = .ok () := by
  intro k₁
  have h₁ := addBuffer_renamed hA hb fresh
  have hA₁ := hA.addBuffer h₁
  have hb₁ : k₁.buffer? b = some (k.buffer b) := by
    simp [k₁, buffer?, Array.getElem?_push, Nat.ne_of_lt hb, buffer, Array.getElem?_eq_getElem hb]
  have hf₁ : k₁.buffer? ⟨k.buffers.size⟩ = some ((k.buffer b).renamed name) := by simp [k₁, buffer?]
  have hh₁ : h.idx < k.ops.size := hA.placedExist h (hA.liveOps_eq ▸ hh)
  exact ⟨h₁, hA₁, hb₁, hf₁, checkOperands_retarget hb₁ hf₁ ⟨rfl, rfl, rfl⟩
    (operand_ne_fresh (hA.operandsChecked h hh₁)) (hA₁.operandsChecked h hh₁)⟩

/-- At a reader site of a live op and a declared buffer, a materialization goes through and
leaves the kernel assignable. -/
theorem materialize_reader_ok {k : Kernel} (hA : k.Assignable) {h : OpId} {b : BufferId}
    (hh : h ∈ k.liveOps) (hb : b.idx < k.buffers.size) :
    ∃ copy k', (materialize (.reader h b)).run k = .ok (.ok copy, k') ∧ k'.Assignable := by
  obtain ⟨h₁, hA₁, hb₁, hf₁, hc₁⟩ :=
    addBuffer_renamed_retarget hA hh hb (freshCopyName_fresh k (k.buffer b).name)
  set name := freshCopyName k (k.buffer b).name
  set f : BufferId := ⟨k.buffers.size⟩
  set k₁ : Kernel := { k with buffers := k.buffers.push ((k.buffer b).renamed name) }
  have hbf : b ≠ f := fun e => Nat.lt_irrefl _ (e ▸ hb)
  have hh₁ : h.idx < k₁.ops.size := hA.placedExist h (hA.liveOps_eq ▸ hh)
  -- The copy goes right before the reader, with no edge yet.
  obtain ⟨k₂, h₂⟩ := insertBefore_live hA₁.toFormed hh (o := relayoutOp s!"relayout_{name}" b f)
    (checkOperands_relayoutOp hb₁ hf₁ hbf ⟨rfl, rfl⟩) (by simp [relayoutOp])
  set copy : OpId := ⟨k₁.ops.size⟩
  have hA₂ := hA₁.insertBefore h₂
  have iso₂ := isolated_insertBefore hA₁.depsExist rfl h₂
  have size₂ : k₂.ops.size = k.ops.size + 1 := (insertBefore_frame h₂).2.2.1
  have hop₂ : k₂.op h = k.op h := (insertBefore_op h₂ hh₁).trans rfl
  have hne : h ≠ copy := ne_fresh hh₁
  -- It takes the reader's dependencies.
  have hds : ∀ d ∈ (k₂.op h).deps, d.idx < k₂.ops.size ∧ d ≠ copy := fun d hd =>
    ⟨hA₂.depsExist h d hd, fun e => (iso₂ h).2 (e ▸ hd)⟩
  have hcopy₂ : copy.idx < k₂.ops.size := by simp [copy, k₁, size₂]
  have h₃ := run_forM_addDependency hA₂.depsExist hcopy₂ (fun y hy => (iso₂ y).2 hy) hds
  set k₃ := k₂.modifyOp copy fun o =>
    { o with deps := (k₂.op h).deps.foldl (fun acc d => d.insertSorted acc) o.deps }
  have hA₃ : k₃.Assignable := KernelM.run_forM_ok (fun _ k => k.Assignable) []
    (fun _ _ _ _ _ hA hstep => hA.addDependency (KernelM.run_update.1 hstep)) hA₂ h₃
  have hop₃ : k₃.op h = k₂.op h := op_modifyOp_of_ne (Ne.symm hne)
  have live₃ : h ∈ k₃.liveOps := by
    rw [show k₃.liveOps = k₂.liveOps from liveOps_congr rfl rfl rfl, mem_liveOps_iff_placement,
      (placement_insertBefore h₂ hA₁.toFormed).2 h hne, ← mem_liveOps_iff_placement]
    exact hh
  -- The reader, rewritten onto the fresh buffer.
  have hc₃ : k₃.checkOperands (retarget (k₁.op h) b f) = .ok () :=
    checkOperands_of_alike (buffersAlike_of_eq (insertBefore_frame h₂).1) hc₁
  obtain ⟨new, k₄, h₄⟩ := replaceOp_live hA₃.toFormed live₃ hc₃
  have hA₄ := hA₃.replaceOp h₄
  obtain ⟨-, -, size₄, -, -⟩ := replaceOp_frame h₄
  obtain ⟨-, -, -, hnew, -, -⟩ := replaceOp_eq h₄
  have size₃ : k₃.ops.size = k₂.ops.size := Array.size_modify ..
  have hcopy₃ : copy.idx < k₃.ops.size := size₃ ▸ hcopy₂
  have hcn : copy ≠ new := by
    rw [hnew]
    exact ne_fresh hcopy₃
  -- The copy waits only for what the reader waits for; so were the rewritten reader, taken for the
  -- reader, to reach its copy, the reader would reach itself.
  have free : k₄.dependsOn copy new = false := by
    rcases hdep : k₄.dependsOn copy new with _ | _
    · rfl
    exfalso
    rcases Relation.reflTransGen_iff_eq_or_transGen.1 ((dependsOn_iff hA₄.depsExist).1 hdep) with
      e | path
    · exact hcn e.symm
    have lifted : Relation.TransGen k₃.Waits copy h := by
      simpa only [Function.onFun, if_neg hcn, if_true] using
        path.lift (fun y => if y = new then h else y) fun y z hw => waits_replaceOp h₄ hA₃.depsExist hw
    obtain ⟨d, hcd, hdh⟩ := Relation.TransGen.head'_iff.1 lifted
    have hd : d ∈ (k₂.op h).deps := by
      have hcd' : d ∈ (k₃.op copy).deps := hcd
      rw [op_modifyOp hcopy₂, if_pos rfl] at hcd'
      rcases mem_foldl_insertSorted.1 hcd' with hd | hd
      · exact hd
      · exact absurd hd ((iso₂ d).1)
    have hhd : k₃.Waits h d := by
      rw [Waits, hop₃]
      exact hd
    exact hA₃.acyclic h (Relation.TransGen.head' hhd hdh)
  have h₅ := addDependency_eq (size₄ ▸ hnew ▸ Nat.lt_succ_self _)
    (Nat.lt_of_lt_of_le hcopy₃ (size₄ ▸ Nat.le_succ _)) free
  exact ⟨copy, _, materialize_reader_eq_ok.2 ⟨f, k₁, k₂, k₃, new, k₄, h₁, h₂, h₃, h₄, h₅⟩,
    hA₄.addDependency h₅⟩

/-- At a writer site of a live op and a declared buffer, a materialization goes through and
leaves the kernel assignable. -/
theorem materialize_writer_ok {k : Kernel} (hA : k.Assignable) {h : OpId} {b : BufferId}
    (hh : h ∈ k.liveOps) (hb : b.idx < k.buffers.size) :
    ∃ copy k', (materialize (.writer h b)).run k = .ok (.ok copy, k') ∧ k'.Assignable := by
  obtain ⟨h₁, hA₁, hb₁, hf₁, hc₁⟩ :=
    addBuffer_renamed_retarget hA hh hb (freshCopyName_fresh k (k.buffer b).name)
  set name := freshCopyName k (k.buffer b).name
  set f : BufferId := ⟨k.buffers.size⟩
  set k₁ : Kernel := { k with buffers := k.buffers.push ((k.buffer b).renamed name) }
  have hbf : b ≠ f := fun e => Nat.lt_irrefl _ (e ▸ hb)
  have hh₁ : h.idx < k₁.ops.size := hA.placedExist h (hA.liveOps_eq ▸ hh)
  -- The writer, rewritten onto the fresh buffer, in its place.
  obtain ⟨new, k₂, h₂⟩ := replaceOp_live hA₁.toFormed hh hc₁
  have hA₂ := hA₁.replaceOp h₂
  obtain ⟨buf₂, -, size₂, -, -⟩ := replaceOp_frame h₂
  obtain ⟨-, -, -, hnew, -, -⟩ := replaceOp_eq h₂
  have live₂ : new ∈ k₂.liveOps := by
    rw [mem_liveOps_iff_placement, (placement_replaceOp h₂ hA₁.toFormed).1,
      ← mem_liveOps_iff_placement]
    exact hh
  -- The copy back into the buffer goes right after it, with no edge yet.
  have hb₂ : k₂.buffer? b = some (k.buffer b) := by rw [buffer?, buf₂]; exact hb₁
  have hf₂ : k₂.buffer? f = some ((k.buffer b).renamed name) := by rw [buffer?, buf₂]; exact hf₁
  obtain ⟨k₃, h₃⟩ := insertAfter_live hA₂.toFormed live₂ (o := relayoutOp s!"relayout_{name}" f b)
    (checkOperands_relayoutOp hf₂ hb₂ (Ne.symm hbf) ⟨rfl, rfl⟩) (by simp [relayoutOp])
  set copy : OpId := ⟨k₂.ops.size⟩
  have hA₃ := hA₂.insertAfter h₃
  have iso₃ := isolated_insertAfter hA₂.depsExist rfl h₃
  have size₃ : k₃.ops.size = k₂.ops.size + 1 := (insertAfter_frame h₃).2.2.1
  have hcopy₃ : copy.idx < k₃.ops.size := by rw [size₃]; exact Nat.lt_succ_self _
  have hnew₂ : new.idx < k₂.ops.size := by rw [hnew, size₂]; exact Nat.lt_succ_self _
  have hnew₃ : new.idx < k₃.ops.size := by rw [size₃]; exact Nat.lt_succ_of_lt hnew₂
  have hnc : new ≠ copy := ne_fresh hnew₂
  -- The writer's dependents move to the copy. Taken for the writer, the copy has only the edges
  -- the writer had; so the writer cannot reach its copy, or it would reach itself.
  set K₄ := k₃.redirectDependents new copy
  have merge : ∀ y z, K₄.Waits y z →
      k₃.Waits (if y = copy then new else y) (if z = copy then new else z) :=
    fun _ _ hw => waits_redirectDependents_isolated iso₃ hw
  obtain ⟨buf₄, size₄, -⟩ := redirectDependents_alike (k := k₃) new copy
  have hA₄ : K₄.Assignable := ⟨hA₃.toFormed.redirectDependents hcopy₃,
    fun a hc => hA₃.acyclic _ (by simpa only [Function.onFun] using hc.lift _ merge),
    buffersDeclarable_of_eq buf₄ hA₃.declarable⟩
  have free : K₄.dependsOn new copy = false := by
    rcases hdep : K₄.dependsOn new copy with _ | _
    · rfl
    exfalso
    rcases Relation.reflTransGen_iff_eq_or_transGen.1 ((dependsOn_iff hA₄.depsExist).1 hdep) with
      e | path
    · exact hnc e.symm
    have lifted : Relation.TransGen k₃.Waits new new := by
      simpa only [Function.onFun, if_neg hnc, if_true] using path.lift _ merge
    exact hA₃.acyclic new lifted
  have h₅ := addDependency_eq (size₄ ▸ hcopy₃) (size₄ ▸ hnew₃) free
  exact ⟨copy, _, materialize_writer_eq_ok.2 ⟨f, k₁, new, k₂, k₃, h₁, h₂, h₃, h₅⟩,
    hA₄.addDependency h₅⟩

/-- A copy site separates an op from a buffer it reads or writes. -/
theorem copySite_touches {k : Kernel} {h : OpId} {b : BufferId} {s : CopySite}
    (hs : copySite k h b = some s) : ∃ o ∈ (k.op h).operands, o.buffer = b := by
  have reads : ∀ o ∈ (k.op h).reads, o ∈ (k.op h).operands := fun o ho => by
    unfold TileOp.reads at ho
    split_ifs at ho
    · exact ho
    · exact List.mem_append_left _ ho
  unfold copySite at hs
  dsimp only at hs
  split_ifs at hs with hg hr hw
  · simp only [Bool.and_eq_true, List.any_eq_true, beq_iff_eq] at hr
    obtain ⟨o, ho, hob⟩ := hr.1.1
    exact ⟨o, reads o ho, hob⟩
  · simp only [Bool.and_eq_true, List.any_eq_true, beq_iff_eq] at hw
    obtain ⟨o, ho, hob⟩ := hw.1.1
    exact ⟨o, List.mem_append_right _ ho, hob⟩

/-- A materialization at a copy site of a live op goes through and leaves the kernel
assignable. -/
theorem materialize_ok {k : Kernel} (hA : k.Assignable) {h : OpId} {b : BufferId} {site : CopySite}
    (hs : copySite k h b = some site) (hh : h ∈ k.liveOps) :
    ∃ copy k', (materialize site).run k = .ok (.ok copy, k') ∧ k'.Assignable := by
  -- The buffer is one the op touches, so one of the kernel's.
  have hb : b.idx < k.buffers.size := by
    obtain ⟨o, ho, rfl⟩ := copySite_touches hs
    obtain ⟨x, hx⟩ := buffer?_of_checkOperands
      (hA.operandsChecked h (hA.placedExist h (hA.liveOps_eq ▸ hh))) o ho
    exact lt_of_buffer? hx
  rcases (copySite_whole hs).1 with rfl | rfl
  · exact materialize_reader_ok hA hh hb
  · exact materialize_writer_ok hA hh hb

end TileKernel
