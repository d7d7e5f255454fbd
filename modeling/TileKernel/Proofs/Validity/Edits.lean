import TileKernel.Proofs.Validity.Basic

/-!
# Edits that keep a kernel sound

Every edit a lowering stage makes keeps a formed kernel formed, and so does every call that builds
kernels: every kernel built by calls is formed (`Kernel.Built.formed`).

An edit keeps a sound kernel valid when what it adds points back: a dependency on an op placed
earlier, an op placed next to its anchor that waits only for ops placed before it, dependents
moved onto an op placed before each of them. Replacing and removing an op keep validity outright:
the replacement takes the old op's spot and dependencies, and the dependents of a removed op
inherit its dependencies, which were placed before it.
-/

set_option autoImplicit false

namespace TileKernel

/-- Windows are read off the operands, which a detached copy keeps. -/
theorem TileOp.WindowsOf.of_detached {op op' a : TileOp} (h : op.detached = op'.detached)
    (w : op'.WindowsOf a) : op.WindowsOf a := fun o ho hs => by
  have same : op.detached.operands = op'.detached.operands := by rw [h]
  exact w o (same ▸ ho) hs

@[simp] theorem TileOp.operands_scheduledAs (o : TileOp) (sched : Option SchedInfo) :
    (o.scheduledAs sched).operands = o.operands := by
  unfold TileOp.scheduledAs
  split_ifs <;> rfl

namespace Kernel

variable {k k' : Kernel}

/-! ### Loop bodies under block edits -/

/-- An op placed in a loop's body block is in the loop's body. -/
theorem mem_body_of_placement {a : OpId} {l : LoopId} (h : k.placement a = some (.loop l)) :
    a ∈ (k.loop l).body := by
  unfold placement at h
  split_ifs at h
  obtain ⟨s, -, hs⟩ := List.exists_of_findSome?_eq_some h
  cases s with
  | op o =>
    simp only [blockIn] at hs
    split_ifs at hs
    cases hs
  | loop l' =>
    simp only [blockIn] at hs
    rcases hexp : (k.loop l').expansion with _ | p <;> simp only [hexp] at hs
    · split_ifs at hs with ha
      cases hs
      simpa using ha
    · split_ifs at hs <;> cases hs

theorem loops_size_modifyBlock {b : Block} {f : List OpId → List OpId} {g : List Stmt → List Stmt} :
    (k.modifyBlock b f g).loops.size = k.loops.size := by
  cases b <;> simp [modifyBlock, modifyLoop]

theorem extent_modifyBlock {b : Block} {f : List OpId → List OpId} {g : List Stmt → List Stmt}
    {l : LoopId} : ((k.modifyBlock b f g).loop l).extent = (k.loop l).extent := by
  cases b with
  | body => rfl
  | loop l' | prologue l' | steady l' | epilogue l' =>
    simp only [modifyBlock, Kernel.loop, loop?_modifyLoop]
    split_ifs <;> cases k.loop? l <;> rfl

/-- A block edit changes a loop's body only where it edits that body. -/
theorem mem_body_modifyBlock {b : Block} {f : List OpId → List OpId} {g : List Stmt → List Stmt}
    {l : LoopId} {x : OpId} (hx : x ∈ ((k.modifyBlock b f g).loop l).body) :
    (b = .loop l ∧ x ∈ f (k.loop l).body) ∨ x ∈ (k.loop l).body := by
  cases b with
  | body => exact .inr hx
  | loop l' =>
    simp only [modifyBlock, Kernel.loop, loop?_modifyLoop] at hx ⊢
    split_ifs at hx with hl
    · subst hl
      cases hn : k.loop? l' <;>
        simp only [hn, Option.map_none, Option.map_some, Option.getD_none, Option.getD_some] at hx
      · simp at hx
      · exact .inl ⟨rfl, hx⟩
    · exact .inr hx
  | prologue l' | steady l' | epilogue l' =>
    simp only [modifyBlock, Kernel.loop, loop?_modifyLoop] at hx ⊢
    split_ifs at hx
    · cases hn : k.loop? l <;>
        simp only [hn, Option.map_none, Option.map_some, Option.getD_none, Option.getD_some] at hx
      · simp at hx
      · exact .inr hx
    · exact .inr hx

theorem mem_map_replace {old x y : OpId} {xs : List OpId}
    (hy : y ∈ xs.map fun z => if z == old then x else z) : y = x ∨ y ∈ xs := by
  obtain ⟨z, hz, rfl⟩ := List.mem_map.1 hy
  by_cases hzo : z = old
  · simp [hzo]
  · simp [hzo, hz]

/-- Moving the dependents of `src` to `dst` adds only edges into `dst`, from ops other than
`dst` that waited for `src`. -/
theorem waits_redirectDependents_of_ne {src dst y z : OpId}
    (h : (k.redirectDependents src dst).Waits y z) :
    k.Waits y z ∨ (z = dst ∧ y ≠ dst ∧ k.Waits y src) := by
  unfold redirectDependents at h
  refine waits_foldl (E := fun y z => z = dst ∧ y ≠ dst ∧ k.Waits y src)
    (fun kc d hd y z hyz => ?_) (fun _ _ => .inl) y z h
  split_ifs at hyz with hdd
  · exact .inl hyz
  · rcases waits_modifyOp hyz with ⟨-, h'⟩ | ⟨rfl, h'⟩
    · exact .inl h'
    · rcases mem_insertSorted.1 h' with rfl | h'
      · exact .inr ⟨rfl, fun he => hdd (by simp [he]), waits_of_mem_dependents hd⟩
      · exact .inl (List.mem_of_mem_erase h')

/-! ### Edits keep kernels formed -/

namespace Formed

/-- The kernel a build starts from. -/
theorem empty (name : String) : Formed { name } where
  depsExist _ _ h := absurd (lt_of_waits h) (Nat.not_lt_zero _)
  placedExist _ h := by simp [bodyOps] at h
  placedOnce := List.nodup_nil
  loopsOnce := rfl
  bodiesExist _ _ h := by simp [Kernel.loop, loop?] at h
  removedExist _ h := by cases h
  removedUnplaced _ h := by cases h
  operandsChecked _ h := absurd h (Nat.not_lt_zero _)

/-- An edit that keeps the body, the loops and the removed ops keeps a kernel formed when it keeps
buffers and ops alike, every op it adds passes the checks, and every dependency names an op of
the arena. -/
theorem of_frame (hF : k.Formed) (hb : k'.body = k.body) (hl : k'.loops = k.loops)
    (hr : k'.removed = k.removed) (hbuf : k.BuffersAlike k') (hops : k.OpsAlike k')
    (hnew : ∀ x : OpId, k.ops.size ≤ x.idx → x.idx < k'.ops.size →
      k'.checkOperands (k'.op x) = .ok ())
    (hdeps : k'.DepsExist) : k'.Formed := by
  have hbo : k'.bodyOps = k.bodyOps := bodyOps_congr hb hl
  have hloop : ∀ l, k'.loop l = k.loop l := fun l => by simp only [Kernel.loop, loop?, hl]
  refine hF.of_edit hbuf hops hnew hdeps (hbo ▸ hF.placedOnce) ?_ (fun x hx => ?_)
    (fun l x hx => ?_) (fun x hx => .inl (hr ▸ hx))
  · rw [hb, loopIds, hl]
    exact hF.loopsOnce
  · rw [hbo] at hx
    exact ⟨Nat.lt_of_lt_of_le (hF.placedExist x hx) hops.size, fun hr => hF.removedUnplaced x hr hx⟩
  · rw [hloop] at hx
    exact Nat.lt_of_lt_of_le (hF.bodiesExist l x hx) hops.size

theorem addBuffer (hF : k.Formed) {b : Buffer} {x : BufferId} (h : k.addBuffer b = .ok (x, k')) :
    k'.Formed := by
  unfold Kernel.addBuffer at h
  split_ifs at h
  obtain ⟨-, rfl⟩ := Prod.mk.inj (Except.ok.inj h)
  exact hF.of_frame rfl rfl rfl buffersAlike_push (opsAlike_of_eq rfl)
    (fun _ h₁ h₂ => absurd h₂ (Nat.not_lt_of_le h₁)) hF.depsExist

theorem modifyBuffer (hF : k.Formed) {b : BufferId} {f : Buffer → Buffer}
    (hf : ∀ x : Buffer, x.Alike (f x)) : (k.modifyBuffer b f).Formed :=
  hF.of_frame rfl rfl rfl (buffersAlike_modifyBuffer hf) (opsAlike_of_eq rfl)
    (fun _ h₁ h₂ => absurd h₂ (Nat.not_lt_of_le h₁)) hF.depsExist

theorem attachLayout (hF : k.Formed) {b : BufferId} {l : Layout}
    (h : k.attachLayout b l = .ok k') : k'.Formed := by
  obtain ⟨-, rfl⟩ := attachLayout_ok h
  exact hF.modifyBuffer fun _ => ⟨rfl, rfl, rfl, rfl⟩

theorem attachSwizzle (hF : k.Formed) {b : BufferId} {s : Swizzle}
    (h : (k.attachSwizzle b s).run = .ok (.ok k')) : k'.Formed := by
  obtain rfl := attachSwizzle_ok h
  exact hF.modifyBuffer fun _ => ⟨rfl, rfl, rfl, rfl⟩

theorem addOp (hF : k.Formed) {o : TileOp} {x : OpId} (h : k.addOp o = .ok (x, k')) :
    k'.Formed := by
  obtain ⟨hc, hd⟩ := addOp_checks h
  obtain ⟨-, rfl⟩ := addOp_ok h
  refine hF.of_frame rfl rfl rfl (buffersAlike_of_eq rfl) opsAlike_push (fun y h₁ h₂ => ?_)
    fun y z hyz => ?_
  · obtain ⟨i⟩ := y
    obtain rfl : i = k.ops.size := by simp only [Array.size_push] at h₁ h₂; omega
    rw [op_push_self]
    exact hc
  · rcases waits_push hyz with ⟨-, h'⟩ | ⟨-, h'⟩
    · simpa using Nat.lt_succ_of_lt (hF.depsExist y z h')
    · simpa using Nat.lt_succ_of_lt (hd z h')

/-- An edit of one op that keeps what the checks read keeps a kernel formed when every
dependency still names an op of the arena. -/
theorem modifyOp (hF : k.Formed) {x : OpId} {f : TileOp → TileOp}
    (hf : ∀ o, (f o).detached = o.detached) (hdeps : (k.modifyOp x f).DepsExist) :
    (k.modifyOp x f).Formed :=
  hF.of_frame rfl rfl rfl (buffersAlike_of_eq rfl) (opsAlike_modifyOp hf)
    (fun _ h₁ h₂ => absurd h₂ (by simpa [Kernel.modifyOp] using Nat.not_lt_of_le h₁)) hdeps

theorem setSched (hF : k.Formed) {x : OpId} {info : SchedInfo} (h : k.setSched x info = .ok k') :
    k'.Formed := by
  obtain ⟨-, rfl⟩ := setSched_ok h
  refine hF.modifyOp (fun _ => rfl) fun y z hyz => ?_
  rcases waits_modifyOp hyz with ⟨-, h'⟩ | ⟨rfl, h'⟩ <;>
    simpa [Kernel.modifyOp] using hF.depsExist _ z h'

theorem addDependency (hF : k.Formed) {h on : OpId} (hd : k.addDependency h on = .ok k') :
    k'.Formed := by
  obtain ⟨hon, -, rfl⟩ := addDependency_ok hd
  refine hF.modifyOp (fun _ => rfl) fun y z hyz => ?_
  have hz : z.idx < k.ops.size := by
    rcases waits_modifyOp hyz with ⟨-, h'⟩ | ⟨rfl, h'⟩
    · exact hF.depsExist y z h'
    · rcases mem_insertSorted.1 h' with rfl | h'
      · exact hon
      · exact hF.depsExist _ z h'
  simpa [Kernel.modifyOp] using hz

theorem redirectDependents (hF : k.Formed) {src dst : OpId} (hdst : dst.idx < k.ops.size) :
    (k.redirectDependents src dst).Formed := by
  obtain ⟨hb, hl, hr⟩ := @redirectDependents_frame k src dst
  obtain ⟨hbuf, hs, hops⟩ := redirectDependents_alike (k := k) src dst
  refine hF.of_frame hb hl hr (buffersAlike_of_eq hbuf) hops
    (fun _ h₁ h₂ => absurd h₂ (by rw [hs]; exact Nat.not_lt_of_le h₁)) fun y z hyz => ?_
  rw [hs]
  rcases waits_redirectDependents hyz with h' | ⟨rfl, -⟩
  · exact hF.depsExist y z h'
  · exact hdst

/-- Placing the op just pushed at one spot of the body keeps a kernel formed, where the block edit
adds no op but that one and keeps the loop statements. -/
theorem place_fresh (hF : k.Formed) {o : TileOp} (hd : ∀ d ∈ o.deps, d.idx < k.ops.size)
    (hc : k.checkOperands o = .ok ()) {b : Block} {f : List OpId → List OpId}
    {g : List Stmt → List Stmt} (hf : ∀ xs, ∀ y ∈ f xs, y = ⟨k.ops.size⟩ ∨ y ∈ xs)
    (hg : ∀ ss, (g ss).filterMap Stmt.loop? = ss.filterMap Stmt.loop?) {P Q : List OpId}
    (hk : k.bodyOps = P ++ Q)
    (hk' : (({ k with ops := k.ops.push o } : Kernel).modifyBlock b f g).bodyOps =
      P ++ ⟨k.ops.size⟩ :: Q) :
    (({ k with ops := k.ops.push o } : Kernel).modifyBlock b f g).Formed := by
  have hsize : (({ k with ops := k.ops.push o } : Kernel).modifyBlock b f g).ops.size =
      k.ops.size + 1 := by
    rw [ops_modifyBlock, Array.size_push]
  have fresh : (⟨k.ops.size⟩ : OpId) ∉ k.bodyOps := fun h => Nat.lt_irrefl _ (hF.placedExist _ h)
  refine hF.of_edit (buffersAlike_of_eq buffers_modifyBlock)
    (opsAlike_push.trans (opsAlike_of_eq ops_modifyBlock)) (fun y h₁ h₂ => ?_) (fun y z hyz => ?_)
    ?_ ?_ (fun y hy => ?_) (fun l y hy => ?_) (fun y hy => .inl (by rwa [removed_modifyBlock] at hy))
  · obtain ⟨i⟩ := y
    obtain rfl : i = k.ops.size := by simp only [hsize] at h₁ h₂; omega
    rw [op_modifyBlock, op_push_self]
    exact checkOperands_of_alike (buffersAlike_of_eq buffers_modifyBlock) hc
  · rw [op_modifyBlock] at hyz
    rw [hsize]
    rcases waits_push hyz with ⟨-, h'⟩ | ⟨-, h'⟩
    · exact Nat.lt_succ_of_lt (hF.depsExist y z h')
    · exact Nat.lt_succ_of_lt (hd z h')
  · rw [hk']
    exact nodup_insert_mid (hk ▸ hF.placedOnce) (hk ▸ fresh)
  · rw [filterMap_loop_modifyBlock hg, loopIds_modifyBlock]
    exact hF.loopsOnce
  · rw [hk', mem_insert_mid] at hy
    rw [hsize]
    rcases hy with rfl | hy
    · exact ⟨Nat.lt_succ_self _, fun hr => Nat.lt_irrefl _ (hF.removedExist _ hr)⟩
    · rw [← hk] at hy
      exact ⟨Nat.lt_succ_of_lt (hF.placedExist y hy), fun hr => hF.removedUnplaced y hr hy⟩
  · rw [hsize]
    rcases mem_body_modifyBlock hy with ⟨-, hy⟩ | hy
    · rcases hf _ y hy with rfl | hy
      · exact Nat.lt_succ_self _
      · exact Nat.lt_succ_of_lt (hF.bodiesExist l y hy)
    · exact Nat.lt_succ_of_lt (hF.bodiesExist l y hy)

theorem insertBefore (hF : k.Formed) {a x : OpId} {o : TileOp}
    (h : k.insertBefore a o = .ok (x, k')) : k'.Formed := by
  obtain ⟨P, Q, hk, hk'⟩ := bodyOps_insertBefore h hF.loops_nodup hF.placedOnce
  obtain ⟨b, -, rfl, hd, hc, rfl⟩ := insertBefore_eq h
  exact hF.place_fresh (by simpa using hd) (by rwa [checkOperands_scheduledAs])
    (fun _ _ hy => mem_insertAt.1 hy) (fun _ => filterMap_loop_insertAt) hk hk'

theorem insertAfter (hF : k.Formed) {a x : OpId} {o : TileOp}
    (h : k.insertAfter a o = .ok (x, k')) : k'.Formed := by
  obtain ⟨P, Q, hk, hk'⟩ := bodyOps_insertAfter h hF.loops_nodup hF.placedOnce
  obtain ⟨b, -, rfl, hd, hc, rfl⟩ := insertAfter_eq h
  exact hF.place_fresh (P := P ++ [a]) (Q := Q) (by simpa using hd) (by rwa [checkOperands_scheduledAs])
    (fun _ _ hy => mem_insertAt.1 hy) (fun _ => filterMap_loop_insertAt) (by simp [hk])
    (by simp [hk'])

theorem replaceOp (hF : k.Formed) {old x : OpId} {o : TileOp}
    (h : k.replaceOp old o = .ok (x, k')) : k'.Formed := by
  obtain ⟨P, Q, hk, hk'⟩ := bodyOps_replaceOp h hF.loops_nodup hF.placedOnce
  obtain ⟨b, -, hold, rfl, hc, hkeq⟩ := replaceOp_eq h
  let o' : TileOp := { o with deps := (k.op old).deps, sched := (k.op old).sched }
  obtain ⟨hbuf, hs, hops⟩ := redirectDependents_alike (k := { k with ops := k.ops.push o' }) old
    ⟨k.ops.size⟩
  have hsize : k'.ops.size = k.ops.size + 1 := by
    rw [hkeq]
    exact (congrArg Array.size ops_modifyBlock).trans (hs.trans (Array.size_push ..))
  have pushed : OpsAlike { k with ops := k.ops.push o' } k' := by
    rw [hkeq]
    exact hops.trans (opsAlike_of_eq ops_modifyBlock)
  have hnd := hk ▸ hF.placedOnce
  have fresh : (⟨k.ops.size⟩ : OpId) ∉ k.bodyOps := fun h => Nat.lt_irrefl _ (hF.placedExist _ h)
  refine hF.of_edit (buffersAlike_of_eq ?_) (opsAlike_push.trans pushed) (fun y h₁ h₂ => ?_)
    (fun y z hyz => ?_) ?_ ?_ (fun y hy => ?_) (fun l y hy => ?_) (fun y hy => ?_)
  · rw [hkeq]
    exact buffers_modifyBlock.trans hbuf
  · obtain ⟨i⟩ := y
    obtain rfl : i = k.ops.size := by simp only [hsize] at h₁ h₂; omega
    rw [← checkOperands_detached, pushed.detached _ (by simp), op_push_self]
    exact checkOperands_of_alike (buffersAlike_of_eq (by rw [hkeq]; exact buffers_modifyBlock.trans hbuf)) hc
  · rw [hkeq] at hyz
    rw [hsize]
    change (Kernel.redirectDependents _ _ _ |>.modifyBlock _ _ _).Waits y z at hyz
    rw [waits_modifyBlock] at hyz
    rcases waits_redirectDependents hyz with h' | ⟨rfl, -⟩
    · rcases waits_push h' with ⟨-, h'⟩ | ⟨-, h'⟩
      · exact Nat.lt_succ_of_lt (hF.depsExist y z h')
      · exact Nat.lt_succ_of_lt (hF.depsExist old z h')
    · exact Nat.lt_succ_self _
  · rw [hk']
    exact nodup_insert_mid (List.nodup_middle.1 hnd).of_cons fun hm =>
      fresh (hk ▸ List.mem_append.2 ((List.mem_append.1 hm).imp id (List.mem_cons_of_mem _)))
  · rw [hkeq]
    show (Kernel.modifyBlock _ b _ _).body.filterMap Stmt.loop? = (Kernel.modifyBlock _ b _ _).loopIds
    rw [filterMap_loop_modifyBlock fun _ => filterMap_loop_replace, loopIds_modifyBlock]
    obtain ⟨hb, hl, -⟩ := @redirectDependents_frame { k with ops := k.ops.push o' } old
      ⟨k.ops.size⟩
    rw [hb, loopIds, hl]
    exact hF.loopsOnce
  · rw [hk', mem_insert_mid] at hy
    rw [hsize]
    rcases hy with rfl | hy
    · exact ⟨Nat.lt_succ_self _, fun hr => Nat.lt_irrefl _ (hF.removedExist _ hr)⟩
    · have hy' : y ∈ k.bodyOps := hk ▸ List.mem_append.2 ((List.mem_append.1 hy).imp id
        (List.mem_cons_of_mem _))
      exact ⟨Nat.lt_succ_of_lt (hF.placedExist y hy'), fun hr => hF.removedUnplaced y hr hy'⟩
  · rw [hsize]
    rw [hkeq] at hy
    change y ∈ (((Kernel.redirectDependents _ _ _).modifyBlock b _ _).loop l).body at hy
    obtain ⟨-, hl, -⟩ := @redirectDependents_frame { k with ops := k.ops.push o' } old
      ⟨k.ops.size⟩
    have hloop : (Kernel.redirectDependents { k with ops := k.ops.push o' } old ⟨k.ops.size⟩).loop l =
        k.loop l := by
      simp only [Kernel.loop, loop?, hl]
    rcases mem_body_modifyBlock hy with ⟨-, hy⟩ | hy <;> rw [hloop] at hy
    · rcases mem_map_replace hy with rfl | hy
      · exact Nat.lt_succ_self _
      · exact Nat.lt_succ_of_lt (hF.bodiesExist l y hy)
    · exact Nat.lt_succ_of_lt (hF.bodiesExist l y hy)
  · rw [hkeq, List.mem_append, List.mem_singleton] at hy
    rcases hy with hy | rfl
    · exact .inl hy
    · refine .inr ⟨hk ▸ List.mem_append_right _ List.mem_cons_self, fun hm => ?_⟩
      rw [hk', mem_insert_mid] at hm
      rcases hm with he | hm
      · exact ne_fresh hold he
      · exact (List.nodup_middle.1 hnd |> List.nodup_cons.1).1 hm

theorem removeOp (hF : k.Formed) {h : OpId} (hr : k.removeOp h = .ok k') : k'.Formed := by
  obtain ⟨P, Q, hk, hk'⟩ := bodyOps_removeOp hr hF.loops_nodup hF.placedOnce
  obtain ⟨b, -, -, hkeq⟩ := removeOp_eq hr
  obtain ⟨hbuf, hops⟩ := bypass_alike (k := k) (h := h)
  obtain ⟨-, hl, hrm, hs⟩ := bypass_frame (k := k) (h := h)
  have hsize : k'.ops.size = k.ops.size := by
    rw [hkeq]
    exact (congrArg Array.size ops_modifyBlock).trans hs
  have hnd := hk ▸ hF.placedOnce
  have kept : ∀ y ∈ P ++ Q, y ∈ k.bodyOps := fun y hy =>
    hk ▸ List.mem_append.2 ((List.mem_append.1 hy).imp id (List.mem_cons_of_mem _))
  refine hF.of_edit (buffersAlike_of_eq (by rw [hkeq]; exact buffers_modifyBlock.trans hbuf))
    (hops.trans (opsAlike_of_eq (by rw [hkeq]; exact ops_modifyBlock))) (fun y h₁ h₂ => ?_)
    (fun y z hyz => ?_) (hk' ▸ (List.nodup_middle.1 hnd).of_cons) ?_ (fun y hy => ?_)
    (fun l y hy => ?_) (fun y hy => ?_)
  · rw [hsize] at h₂
    exact absurd h₂ (Nat.not_lt_of_le h₁)
  · rw [hsize]
    rw [hkeq] at hyz
    change ((k.bypass h).modifyBlock b _ _).Waits y z at hyz
    rw [waits_modifyBlock] at hyz
    rcases waits_bypass hyz with h' | ⟨-, h'⟩
    · exact hF.depsExist y z h'
    · exact hF.depsExist h z h'
  · rw [hkeq]
    show ((k.bypass h).modifyBlock b _ _).body.filterMap Stmt.loop? =
      ((k.bypass h).modifyBlock b _ _).loopIds
    rw [filterMap_loop_modifyBlock fun _ => filterMap_loop_remove, loopIds_modifyBlock,
      bypass_frame.1, loopIds, hl]
    exact hF.loopsOnce
  · rw [hk'] at hy
    rw [hsize]
    exact ⟨hF.placedExist y (kept y hy), fun hr => hF.removedUnplaced y hr (kept y hy)⟩
  · rw [hsize]
    rw [hkeq] at hy
    change y ∈ (((k.bypass h).modifyBlock b _ _).loop l).body at hy
    have hloop : (k.bypass h).loop l = k.loop l := by simp only [Kernel.loop, loop?, hl]
    rcases mem_body_modifyBlock hy with ⟨-, hy⟩ | hy <;> rw [hloop] at hy
    · exact hF.bodiesExist l y (List.mem_filter.1 hy).1
    · exact hF.bodiesExist l y hy
  · rw [hkeq, List.mem_append, List.mem_singleton] at hy
    rcases hy with hy | rfl
    · exact .inl (hrm ▸ hy)
    · exact .inr ⟨hk ▸ List.mem_append_right _ List.mem_cons_self, hk' ▸ (List.nodup_middle.1 hnd |> List.nodup_cons.1).1⟩

theorem push (hF : k.Formed) {h : OpId} (hp : k.push h = .ok k') : k'.Formed := by
  have hbody := bodyOps_push hp
  obtain ⟨hc, rfl⟩ := push_ok hp
  obtain ⟨hlt, -, hrem⟩ := checkUnplaced_ok hc
  refine hF.of_edit (buffersAlike_of_eq rfl) (opsAlike_of_eq rfl)
    (fun _ h₁ h₂ => absurd h₂ (Nat.not_lt_of_le h₁)) hF.depsExist ?_ ?_ (fun y hy => ?_)
    hF.bodiesExist (fun y hy => .inl hy)
  · rw [hbody]
    exact nodup_insert_mid (by simpa using hF.placedOnce)
      (by simpa using not_mem_bodyOps_of_checkUnplaced hc)
  · show (k.body ++ [Stmt.op h]).filterMap Stmt.loop? = k.loopIds
    rw [List.filterMap_append, hF.loopsOnce]
    simp [Stmt.loop?]
  · rw [hbody, List.mem_append, List.mem_singleton] at hy
    rcases hy with hy | rfl
    · exact ⟨hF.placedExist y hy, fun hr => hF.removedUnplaced y hr hy⟩
    · exact ⟨hlt, hrem⟩

theorem pushLoop (hF : k.Formed) {n : LoopNest} {l : LoopId} (hp : k.pushLoop n = .ok (l, k')) :
    k'.Formed := by
  obtain ⟨hbo, hloops⟩ := bodyOps_pushLoop hF.loopsOnce hp
  obtain ⟨hbody, -, rfl⟩ := pushLoop_ok hp
  refine hF.of_edit (buffersAlike_of_eq rfl) (opsAlike_of_eq rfl)
    (fun _ h₁ h₂ => absurd h₂ (Nat.not_lt_of_le h₁)) hF.depsExist (hbo ▸ hF.placedOnce) hloops
    (fun y hy => ?_) (fun l' y hy => ?_) (fun y hy => .inl hy)
  · rw [hbo] at hy
    exact ⟨hF.placedExist y hy, fun hr => hF.removedUnplaced y hr hy⟩
  · -- The loops there were keep their bodies, and the new one has none.
    simp only [Kernel.loop, loop?, Array.getElem?_push] at hy
    split_ifs at hy
    · simp [hbody] at hy
    · exact hF.bodiesExist l' y hy

theorem pushToLoop (hF : k.Formed) {l : LoopId} {h : OpId} (hp : k.pushToLoop l h = .ok k') :
    k'.Formed := by
  obtain ⟨P, Q, hold, hnew⟩ := bodyOps_pushToLoop hF.loopsOnce hp
  obtain ⟨hc, -, -, rfl⟩ := pushToLoop_ok hp
  obtain ⟨hlt, -, hrem⟩ := checkUnplaced_ok hc
  refine hF.of_edit (buffersAlike_of_eq rfl) (opsAlike_of_eq rfl)
    (fun _ h₁ h₂ => absurd h₂ (Nat.not_lt_of_le h₁)) hF.depsExist ?_ ?_ (fun y hy => ?_)
    (fun l' y hy => ?_) (fun y hy => .inl hy)
  · rw [hnew]
    exact nodup_insert_mid (hold ▸ hF.placedOnce) (hold ▸ not_mem_bodyOps_of_checkUnplaced hc)
  · show k.body.filterMap Stmt.loop? = (k.modifyLoop l _).loopIds
    simpa [Kernel.modifyLoop, loopIds] using hF.loopsOnce
  · rw [hnew, mem_insert_mid] at hy
    rcases hy with rfl | hy
    · exact ⟨hlt, hrem⟩
    · rw [← hold] at hy
      exact ⟨hF.placedExist y hy, fun hr => hF.removedUnplaced y hr hy⟩
  · simp only [Kernel.loop, loop?_modifyLoop] at hy
    split_ifs at hy with hl
    · subst hl
      cases hn : k.loop? l <;>
        simp only [hn, Option.map_none, Option.map_some, Option.getD_none, Option.getD_some,
          List.mem_append, List.mem_singleton] at hy
      · simp at hy
      · rcases hy with hy | rfl
        · exact hF.bodiesExist l y (by simp [Kernel.loop, hn, hy])
        · exact hlt
    · exact hF.bodiesExist l' y hy

/-- Every successful call keeps a kernel formed. -/
theorem call (hF : k.Formed) (hc : Call k k') : k'.Formed := by
  cases hc with
  | addBuffer h => exact hF.addBuffer h
  | addOp h => exact hF.addOp h
  | push h => exact hF.push h
  | pushLoop h => exact hF.pushLoop h
  | pushToLoop h => exact hF.pushToLoop h
  | addDependency h => exact hF.addDependency h
  | insertBefore h => exact hF.insertBefore h
  | insertAfter h => exact hF.insertAfter h
  | replaceOp h => exact hF.replaceOp h
  | removeOp h => exact hF.removeOp h
  | setSched h => exact hF.setSched h
  | attachLayout h => exact hF.attachLayout h
  | attachSwizzle h => exact hF.attachSwizzle h

end Formed

/-- Every kernel built by calls is formed. -/
theorem Built.formed (hk : k.Built) : k.Formed := by
  obtain ⟨name, hrun⟩ := hk
  induction hrun with
  | refl => exact Formed.empty name
  | tail _ hc ih => exact ih.call hc

/-! ### Edits keep kernels valid -/

namespace Sound

/-- An edit that keeps the body, the loops and what the checks read of each op keeps a sound
kernel sound when every dependency it adds between placed ops points back. -/
theorem of_frame (hs : k.Sound) (hF : k'.Formed) (hb : k'.body = k.body) (hl : k'.loops = k.loops)
    (hbuf : k.BuffersAlike k') (hops : k.OpsAlike k')
    (hwaits : ∀ y z, k'.Waits y z → y ∈ k.bodyOps → z ∈ k.bodyOps →
      k.Waits y z ∨ [z, y].Sublist k.bodyOps) : k'.Sound := by
  have hbo : k'.bodyOps = k.bodyOps := bodyOps_congr hb hl
  have hloop : ∀ l, k'.loop l = k.loop l := fun l => by simp only [Kernel.loop, loop?, hl]
  refine hF.sound ?_ (hs.windowsFit_of_bodies hbuf (by rw [hl]) (fun l => by rw [hloop])
    fun l x hx => ?_)
  · have old := hs.depsEarlier
    rw [hs.liveOps_eq] at old
    rw [hbo]
    exact old.of_sublist (List.Sublist.refl _) fun y z hyz hy hz =>
      (hwaits y z hyz hy hz).imp_left fun h => ⟨hy, hz, h⟩
  · rw [hloop] at hx
    exact ⟨x, hx, TileOp.windowsOf_of_detached (hops.detached x (hs.bodiesExist l x hx))⟩

theorem addBuffer (hs : k.Sound) {b : Buffer} {x : BufferId} (h : k.addBuffer b = .ok (x, k')) :
    k'.Sound := by
  have hF := hs.toFormed.addBuffer h
  unfold Kernel.addBuffer at h
  split_ifs at h
  obtain ⟨-, rfl⟩ := Prod.mk.inj (Except.ok.inj h)
  exact hs.of_frame hF rfl rfl buffersAlike_push (opsAlike_of_eq rfl) fun _ _ hyz _ _ => .inl hyz

theorem modifyBuffer (hs : k.Sound) {b : BufferId} {f : Buffer → Buffer}
    (hf : ∀ x : Buffer, x.Alike (f x)) : (k.modifyBuffer b f).Sound :=
  hs.of_frame (hs.toFormed.modifyBuffer hf) rfl rfl (buffersAlike_modifyBuffer hf)
    (opsAlike_of_eq rfl) fun _ _ hyz _ _ => .inl hyz

theorem attachLayout (hs : k.Sound) {b : BufferId} {l : Layout}
    (h : k.attachLayout b l = .ok k') : k'.Sound := by
  obtain ⟨-, rfl⟩ := attachLayout_ok h
  exact hs.modifyBuffer fun _ => ⟨rfl, rfl, rfl, rfl⟩

theorem attachSwizzle (hs : k.Sound) {b : BufferId} {s : Swizzle}
    (h : (k.attachSwizzle b s).run = .ok (.ok k')) : k'.Sound := by
  obtain rfl := attachSwizzle_ok h
  exact hs.modifyBuffer fun _ => ⟨rfl, rfl, rfl, rfl⟩

/-- An op added but not placed waits for no placed op's sake. -/
theorem addOp (hs : k.Sound) {o : TileOp} {x : OpId} (h : k.addOp o = .ok (x, k')) : k'.Sound := by
  have hF := hs.toFormed.addOp h
  obtain ⟨-, rfl⟩ := addOp_ok h
  refine hs.of_frame hF rfl rfl (buffersAlike_of_eq rfl) opsAlike_push fun y z hyz hy _ => ?_
  rcases waits_push hyz with ⟨-, h'⟩ | ⟨rfl, -⟩
  · exact .inl h'
  · exact absurd (hs.placedExist _ hy) (Nat.lt_irrefl _)

theorem setSched (hs : k.Sound) {x : OpId} {info : SchedInfo} (h : k.setSched x info = .ok k') :
    k'.Sound := by
  have hF := hs.toFormed.setSched h
  obtain ⟨-, rfl⟩ := setSched_ok h
  refine hs.of_frame hF rfl rfl (buffersAlike_of_eq rfl) (opsAlike_modifyOp fun _ => rfl)
    fun y z hyz _ _ => .inl ?_
  rcases waits_modifyOp hyz with ⟨-, h'⟩ | ⟨rfl, h'⟩
  · exact h'
  · exact h'

/-- A dependency keeps a kernel valid when, between placed ops, it points back. -/
theorem addDependency (hs : k.Sound) {h on : OpId} (hd : k.addDependency h on = .ok k')
    (hord : h ∈ k.bodyOps → on ∈ k.bodyOps → [on, h].Sublist k.bodyOps) : k'.Sound := by
  have hF := hs.toFormed.addDependency hd
  obtain ⟨-, -, rfl⟩ := addDependency_ok hd
  refine hs.of_frame hF rfl rfl (buffersAlike_of_eq rfl) (opsAlike_modifyOp fun _ => rfl)
    fun y z hyz hy hz => ?_
  rcases waits_modifyOp hyz with ⟨-, h'⟩ | ⟨rfl, h'⟩
  · exact .inl h'
  · rcases mem_insertSorted.1 h' with rfl | h'
    · exact .inr (hord hy hz)
    · exact .inl h'

/-- Moving the dependents of `src` onto `dst` keeps a kernel valid when `dst` is placed before
each placed dependent. -/
theorem redirectDependents (hs : k.Sound) {src dst : OpId} (hdst : dst.idx < k.ops.size)
    (hord : ∀ y ∈ k.bodyOps, k.Waits y src → y ≠ dst → dst ∈ k.bodyOps →
      [dst, y].Sublist k.bodyOps) : (k.redirectDependents src dst).Sound := by
  obtain ⟨hb, hl, -⟩ := @redirectDependents_frame k src dst
  obtain ⟨hbuf, -, hops⟩ := redirectDependents_alike (k := k) src dst
  refine hs.of_frame (hs.toFormed.redirectDependents hdst) hb hl (buffersAlike_of_eq hbuf) hops
    fun y z hyz hy hz => ?_
  rcases waits_redirectDependents_of_ne hyz with h' | ⟨rfl, hne, h'⟩
  · exact .inl h'
  · exact .inr (hord y hy h' hne hz)

/-- Placing a fresh op keeps a kernel valid when the placed ops it depends on all stand before
it, and its windows, inside a loop, are those of an op of that loop. -/
theorem place_fresh (hs : k.Sound) {o : TileOp} (hd : ∀ d ∈ o.deps, d.idx < k.ops.size)
    {b : Block} {f : List OpId → List OpId} {g : List Stmt → List Stmt}
    (hf : ∀ xs, ∀ y ∈ f xs, y = ⟨k.ops.size⟩ ∨ y ∈ xs)
    (hF' : (({ k with ops := k.ops.push o } : Kernel).modifyBlock b f g).Formed) {P Q : List OpId}
    (hk : k.bodyOps = P ++ Q)
    (hk' : (({ k with ops := k.ops.push o } : Kernel).modifyBlock b f g).bodyOps =
      P ++ ⟨k.ops.size⟩ :: Q)
    (hdeps : ∀ d ∈ o.deps, d ∈ k.bodyOps → d ∈ P)
    (hwin : ∀ l, b = .loop l → ∃ a ∈ (k.loop l).body, o.WindowsOf (k.op a)) :
    (({ k with ops := k.ops.push o } : Kernel).modifyBlock b f g).Sound := by
  have placed : ∀ y, y.idx < k.ops.size → y ∈ P ++ (⟨k.ops.size⟩ : OpId) :: Q → y ∈ k.bodyOps :=
    fun y hy hm => hk ▸ (mem_insert_mid.1 hm).resolve_left (ne_fresh hy)
  have kept : ∀ l, ∀ y ∈ (k.loop l).body, ∃ a ∈ (k.loop l).body,
      ((({ k with ops := k.ops.push o } : Kernel).modifyBlock b f g).op y).WindowsOf (k.op a) :=
    fun l y hy => ⟨y, hy, by rw [op_modifyBlock, op_push (hs.bodiesExist l y hy)]; exact fun _ h _ => h⟩
  refine hF'.sound ?_ (hs.windowsFit_of_bodies (buffersAlike_of_eq buffers_modifyBlock)
    loops_size_modifyBlock (fun _ => extent_modifyBlock) fun l y hy => ?_)
  · have old := hs.depsEarlier
    rw [hs.liveOps_eq, hk] at old
    rw [hk']
    refine old.of_sublist ((List.Sublist.refl P).append (List.sublist_cons_self _ Q))
      fun y z hyz hy hz => ?_
    rw [waits_modifyBlock] at hyz
    rcases waits_push hyz with ⟨hy', h'⟩ | ⟨rfl, h'⟩
    · have hz' := hs.depsExist y z h'
      exact .inl ⟨hk ▸ placed y hy' hy, hk ▸ placed z hz' hz, h'⟩
    · have hzP := hdeps z h' (placed z (hd z h') hz)
      exact .inr (pair_sublist_append hzP List.mem_cons_self)
  · rcases mem_body_modifyBlock hy with ⟨hbl, hfy⟩ | hy
    · rcases hf _ y hfy with rfl | hy
      · obtain ⟨a, ha, w⟩ := hwin l hbl
        refine ⟨a, ha, ?_⟩
        rw [op_modifyBlock, op_push_self]
        exact w
      · exact kept l y hy
    · exact kept l y hy

theorem insertBefore (hs : k.Sound) {a x : OpId} {o : TileOp}
    (h : k.insertBefore a o = .ok (x, k'))
    (hdeps : ∀ d ∈ o.deps, d ∈ k.bodyOps → [d, a].Sublist k.bodyOps)
    (hwin : o.WindowsOf (k.op a)) : k'.Sound := by
  have hF' := hs.toFormed.insertBefore h
  obtain ⟨P, Q, hk, hk'⟩ := bodyOps_insertBefore h hs.loops_nodup hs.placedOnce
  obtain ⟨b, hb, rfl, hd, -, rfl⟩ := insertBefore_eq h
  have hnd := hk ▸ hs.placedOnce
  refine hs.place_fresh (by simpa using hd) (fun _ _ hy => mem_insertAt.1 hy) hF' hk hk'
    (fun d hd' hm => ?_) fun l hbl => ⟨a, mem_body_of_placement (hbl ▸ hb), ?_⟩
  · rw [TileOp.deps_scheduledAs] at hd'
    exact mem_left_of_pair_sublist hnd (hk ▸ hdeps d hd' hm)
  · intro o' ho' hstep
    rw [TileOp.operands_scheduledAs] at ho'
    exact hwin o' ho' hstep

theorem insertAfter (hs : k.Sound) {a x : OpId} {o : TileOp}
    (h : k.insertAfter a o = .ok (x, k'))
    (hdeps : ∀ d ∈ o.deps, d ∈ k.bodyOps → d = a ∨ [d, a].Sublist k.bodyOps)
    (hwin : o.WindowsOf (k.op a)) : k'.Sound := by
  have hF' := hs.toFormed.insertAfter h
  obtain ⟨P, Q, hk, hk'⟩ := bodyOps_insertAfter h hs.loops_nodup hs.placedOnce
  obtain ⟨b, hb, rfl, hd, -, rfl⟩ := insertAfter_eq h
  have hnd := hk ▸ hs.placedOnce
  refine hs.place_fresh (P := P ++ [a]) (Q := Q) (by simpa using hd)
    (fun _ _ hy => mem_insertAt.1 hy) hF' (by simp [hk]) (by simp [hk'])
    (fun d hd' hm => ?_) fun l hbl => ⟨a, mem_body_of_placement (hbl ▸ hb), ?_⟩
  · rw [TileOp.deps_scheduledAs] at hd'
    rcases hdeps d hd' hm with rfl | hda
    · exact List.mem_append_right _ List.mem_cons_self
    · exact List.mem_append_left _ (mem_left_of_pair_sublist hnd (hk ▸ hda))
  · intro o' ho' hstep
    rw [TileOp.operands_scheduledAs] at ho'
    exact hwin o' ho' hstep

/-- Replacing an op keeps a kernel valid when the new op's windows are among the old one's: the
new op takes the old one's place, its dependencies and its dependents. -/
theorem replaceOp (hs : k.Sound) {old x : OpId} {o : TileOp}
    (h : k.replaceOp old o = .ok (x, k')) (hwin : o.WindowsOf (k.op old)) : k'.Sound := by
  have hF' := hs.toFormed.replaceOp h
  obtain ⟨P, Q, hk, hk'⟩ := bodyOps_replaceOp h hs.loops_nodup hs.placedOnce
  obtain ⟨b, hb, hold, rfl, -, hkeq⟩ := replaceOp_eq h
  let o' : TileOp := { o with deps := (k.op old).deps, sched := (k.op old).sched }
  let k₁ : Kernel := { k with ops := k.ops.push o' }
  obtain ⟨hbuf, -, hops⟩ := redirectDependents_alike (k := k₁) old ⟨k.ops.size⟩
  obtain ⟨-, hl, -⟩ := @redirectDependents_frame k₁ old ⟨k.ops.size⟩
  have hloop : ∀ l, (k₁.redirectDependents old ⟨k.ops.size⟩).loop l = k.loop l := fun l => by
    simp only [Kernel.loop, loop?, hl, k₁]
  have hnd := hk ▸ hs.placedOnce
  obtain ⟨hP, hQ⟩ : old ∉ P ∧ old ∉ Q := by
    have := List.nodup_middle.1 hnd
    simpa using (List.nodup_cons.1 this).1
  have hop : ∀ y, (k'.op y) = (k₁.redirectDependents old ⟨k.ops.size⟩).op y := fun y => by
    rw [hkeq]
    exact (op_modifyBlock : ((k₁.redirectDependents old _).modifyBlock b _ _).op y = _)
  have placed : ∀ y, y.idx < k.ops.size → y ∈ P ++ (⟨k.ops.size⟩ : OpId) :: Q → y ∈ P ++ Q :=
    fun y hy hm => (mem_insert_mid.1 hm).resolve_left (ne_fresh hy)
  have keep : ∀ y ∈ P ++ Q, (if y == old then (⟨k.ops.size⟩ : OpId) else y) = y := fun y hy => by
    have : y ≠ old := fun he => by rcases List.mem_append.1 hy with h | h <;> simp_all
    simp [this]
  refine hF'.sound ?_ (hs.windowsFit_of_bodies ?_ ?_ (fun l => ?_) fun l y hy => ?_)
  · have dep := hs.depsEarlier
    rw [hs.liveOps_eq] at dep
    rw [hk', ← map_replace_split hP hQ, ← hk]
    refine dep.map _ fun y z hyz hy hz => ?_
    rw [hk, map_replace_split hP hQ] at hy hz
    rw [hkeq] at hyz
    change ((k₁.redirectDependents old _).modifyBlock b _ _).Waits y z at hyz
    rw [waits_modifyBlock] at hyz
    rcases waits_redirectDependents hyz with h' | ⟨rfl, h'⟩
    · rcases waits_push h' with ⟨hy', h'⟩ | ⟨rfl, hz₀⟩
      · have hz' := placed z (hs.depsExist y z h') hz
        have hy' := placed y hy' hy
        exact ⟨y, z, hk ▸ List.mem_append.2 ((List.mem_append.1 hy').imp id (List.mem_cons_of_mem _)),
          hk ▸ List.mem_append.2 ((List.mem_append.1 hz').imp id (List.mem_cons_of_mem _)), h',
          keep y hy', keep z hz'⟩
      · have hz' := placed z (hs.depsExist old z hz₀) hz
        exact ⟨old, z, hk ▸ List.mem_append_right _ List.mem_cons_self,
          hk ▸ List.mem_append.2 ((List.mem_append.1 hz').imp id (List.mem_cons_of_mem _)), hz₀,
          by simp, keep z hz'⟩
    · rcases waits_push h' with ⟨hy', h'⟩ | ⟨rfl, hz₀⟩
      · have hy' := placed y hy' hy
        exact ⟨y, old, hk ▸ List.mem_append.2 ((List.mem_append.1 hy').imp id (List.mem_cons_of_mem _)),
          hk ▸ List.mem_append_right _ List.mem_cons_self, h', keep y hy', by simp⟩
      · exact ⟨old, old, hk ▸ List.mem_append_right _ List.mem_cons_self,
          hk ▸ List.mem_append_right _ List.mem_cons_self, hz₀, by simp, by simp⟩
  · rw [hkeq]
    exact buffersAlike_of_eq (buffers_modifyBlock.trans hbuf)
  · rw [hkeq]
    exact loops_size_modifyBlock.trans (congrArg Array.size hl)
  · rw [hkeq]
    exact extent_modifyBlock.trans (by rw [hloop])
  · rw [hkeq] at hy
    change y ∈ (((k₁.redirectDependents old _).modifyBlock b _ _).loop l).body at hy
    have alike : ∀ y, y.idx < k.ops.size → (k'.op y).WindowsOf (k.op y) := fun y hy =>
      TileOp.windowsOf_of_detached (by
        rw [hop, hops.detached y (by simp only [k₁, Array.size_push]; omega), op_push hy])
    rcases mem_body_modifyBlock hy with ⟨hbl, hy⟩ | hy <;> rw [hloop] at hy
    · rcases mem_map_replace hy with rfl | hy
      · refine ⟨old, mem_body_of_placement (hbl ▸ hb), hwin.of_detached ?_⟩
        rw [hop, hops.detached _ (by simp [k₁]), op_push_self]
        rfl
      · exact ⟨y, hy, alike y (hs.bodiesExist l y hy)⟩
    · exact ⟨y, hy, alike y (hs.bodiesExist l y hy)⟩

/-- Removing an op keeps a kernel valid: its dependents inherit its dependencies, which stand
before it and so before them. -/
theorem removeOp (hs : k.Sound) {h : OpId} (hr : k.removeOp h = .ok k') : k'.Sound := by
  have hF' := hs.toFormed.removeOp hr
  obtain ⟨P, Q, hk, hk'⟩ := bodyOps_removeOp hr hs.loops_nodup hs.placedOnce
  obtain ⟨b, -, -, hkeq⟩ := removeOp_eq hr
  obtain ⟨hbuf, hops⟩ := bypass_alike (k := k) (h := h)
  obtain ⟨-, hl, -, -⟩ := bypass_frame (k := k) (h := h)
  have hloop : ∀ l, (k.bypass h).loop l = k.loop l := fun l => by
    simp only [Kernel.loop, loop?, hl]
  have hop : ∀ y, k'.op y = (k.bypass h).op y := fun y => by
    rw [hkeq]
    exact (op_modifyBlock : ((k.bypass h).modifyBlock b _ _).op y = _)
  have hnd := hs.placedOnce
  have dep := hs.depsEarlier
  rw [hs.liveOps_eq] at dep
  have sub : (P ++ Q).Sublist k.bodyOps :=
    hk ▸ (List.Sublist.refl P).append (List.sublist_cons_self _ Q)
  refine hF'.sound ?_ (hs.windowsFit_of_bodies ?_ ?_ (fun l => ?_) fun l y hy => ?_)
  · rw [hk']
    refine DepsEarlier.restrict hnd sub fun y z hyz hy hz => ?_
    rw [hkeq] at hyz
    change ((k.bypass h).modifyBlock b _ _).Waits y z at hyz
    rw [waits_modifyBlock] at hyz
    rcases waits_bypass hyz with h' | ⟨hyh, hhz⟩
    · exact dep y z h' (sub.subset hy) (sub.subset hz)
    · have hh : h ∈ k.bodyOps := hk ▸ List.mem_append_right _ List.mem_cons_self
      exact pair_sublist_trans hnd (dep h z hhz hh (sub.subset hz)) (dep y h hyh (sub.subset hy) hh)
  · rw [hkeq]
    exact buffersAlike_of_eq (buffers_modifyBlock.trans hbuf)
  · rw [hkeq]
    exact loops_size_modifyBlock.trans (congrArg Array.size hl)
  · rw [hkeq]
    exact extent_modifyBlock.trans (by rw [hloop])
  · rw [hkeq] at hy
    change y ∈ (((k.bypass h).modifyBlock b _ _).loop l).body at hy
    have alike : ∀ y, y.idx < k.ops.size → (k'.op y).WindowsOf (k.op y) := fun y hy =>
      TileOp.windowsOf_of_detached (by rw [hop, hops.detached y hy])
    rcases mem_body_modifyBlock hy with ⟨-, hy⟩ | hy <;> rw [hloop] at hy
    · have hy := (List.mem_filter.1 hy).1
      exact ⟨y, hy, alike y (hs.bodiesExist l y hy)⟩
    · exact ⟨y, hy, alike y (hs.bodiesExist l y hy)⟩

end Sound

end Kernel
end TileKernel
