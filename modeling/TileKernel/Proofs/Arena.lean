import TileKernel.Proofs.Reach

/-!
# Where ops sit

The body of a kernel places ops in blocks: a top-level statement, the body of a loop, or a block
of a pipelined loop. `Kernel.bodyOps` lists them in program order, and the edits that place an op
next to another, replace one or remove one change that list in one spot:

* `bodyOps_insertBefore`, `bodyOps_insertAfter`: the new op lands right before or after its
  anchor;
* `bodyOps_replaceOp`: the replacement takes the replaced op's spot;
* `bodyOps_removeOp`: the removed op leaves its spot.

Each needs the anchor to be placed once (`bodyOps` without duplicates) and each loop to appear in
the body once. The placement of an op (`Kernel.placement`) agrees with the list: an op is placed
exactly when it is listed and not removed (`placement_isSome_iff`).
-/

set_option autoImplicit false

namespace TileKernel

/-- The loop a statement runs, if it is one. -/
def Stmt.loop? : Stmt → Option LoopId
  | .op _ => none
  | .loop l => some l

/-- The loop nest edit `Kernel.modifyBlock` makes for a block inside a loop. -/
def Block.edit (f : List OpId → List OpId) : Block → LoopNest → LoopNest
  | .body => id
  | .loop _ => fun n => { n with body := f n.body }
  | .prologue _ => fun n =>
      { n with expansion := n.expansion.map fun p => { p with prologue := f p.prologue } }
  | .steady _ => fun n =>
      { n with expansion := n.expansion.map fun p => { p with steady := f p.steady } }
  | .epilogue _ => fun n =>
      { n with expansion := n.expansion.map fun p => { p with epilogue := f p.epilogue } }

/-- The op `Kernel.insertBefore` and `Kernel.insertAfter` add: the given one, with the anchor's
schedule unless it has its own. -/
def TileOp.scheduledAs (o : TileOp) (sched : Option SchedInfo) : TileOp :=
  if o.sched.isNone then { o with sched := sched } else o

@[simp] theorem TileOp.deps_scheduledAs (o : TileOp) (sched : Option SchedInfo) :
    (o.scheduledAs sched).deps = o.deps := by
  unfold TileOp.scheduledAs
  split_ifs <;> rfl

/-- A schedule is not among what the operand checks read. -/
@[simp] theorem Kernel.checkOperands_scheduledAs (k : Kernel) (o : TileOp) (sched : Option SchedInfo) :
    k.checkOperands (o.scheduledAs sched) = k.checkOperands o := by
  unfold TileOp.scheduledAs
  split_ifs <;> rfl

/-! ### Lists -/

section Lists

variable {α : Type}

theorem insertAt_split {A B : List α} {x : α} : Kernel.insertAt (A ++ B) A.length x = A ++ x :: B := by
  simp [Kernel.insertAt]

/-- A member splits a list at its first occurrence. -/
theorem exists_split_first {a : α} : ∀ {xs : List α}, a ∈ xs → ∃ A B, xs = A ++ a :: B ∧ a ∉ A
  | x :: xs, h => by
    by_cases hx : x = a
    · subst hx
      exact ⟨[], xs, rfl, by simp⟩
    · obtain ⟨A, B, rfl, hA⟩ := exists_split_first ((List.mem_cons.1 h).resolve_left (Ne.symm hx))
      exact ⟨x :: A, B, rfl, by simp [Ne.symm hx, hA]⟩

theorem mem_insert_mid {P Q : List α} {x y : α} : y ∈ P ++ x :: Q ↔ y = x ∨ y ∈ P ++ Q := by
  simp only [List.mem_append, List.mem_cons]
  tauto

theorem nodup_insert_mid {P Q : List α} {x : α} (hnd : (P ++ Q).Nodup) (hx : x ∉ P ++ Q) :
    (P ++ x :: Q).Nodup :=
  List.nodup_middle.2 (List.nodup_cons.2 ⟨hx, hnd⟩)

variable [BEq α] [LawfulBEq α]

theorem idxOf?_split {a : α} {A B : List α} (hA : a ∉ A) : (A ++ a :: B).idxOf? a = some A.length := by
  induction A with
  | nil => simp [List.idxOf?, List.findIdx?_cons]
  | cons x A ih =>
    have hx : ¬(x == a) = true := by simpa using fun h : x = a => hA (h ▸ List.mem_cons_self)
    rw [List.cons_append, List.idxOf?_cons, if_neg hx, ih fun h => hA (List.mem_cons_of_mem _ h)]
    rfl

/-- Mapping the one occurrence of `a` to `b` rewrites that occurrence only. -/
theorem map_replace_split {a b : α} {A B : List α} (hA : a ∉ A) (hB : a ∉ B) :
    (A ++ a :: B).map (fun x => if x == a then b else x) = A ++ b :: B := by
  have keep : ∀ C : List α, a ∉ C → C.map (fun x => if x == a then b else x) = C := fun C hC =>
    (List.map_congr_left fun x hx => by
      have : ¬(x == a) = true := by simpa using fun h : x = a => hC (h ▸ hx)
      simp [this]).trans (List.map_id C)
  simp [keep A hA, keep B hB]

theorem filter_remove_split {a : α} {A B : List α} (hA : a ∉ A) (hB : a ∉ B) :
    (A ++ a :: B).filter (· != a) = A ++ B := by
  have keep : ∀ C : List α, a ∉ C → C.filter (· != a) = C := fun C hC =>
    List.filter_eq_self.2 fun x hx => by simpa using fun h : x = a => hC (h ▸ hx)
  simp [keep A hA, keep B hB]

end Lists

namespace Kernel

variable {k k' : Kernel}

/-! ### Placement and the op list -/

theorem isSome_blockIn_iff {x : OpId} {s : Stmt} : (k.blockIn x s).isSome ↔ x ∈ k.stmtOps s := by
  cases s with
  | op o =>
    simp only [blockIn, stmtOps, beq_iff_eq, List.mem_singleton]
    split_ifs with h
    · simp [h]
    · simpa using Ne.symm h
  | loop l =>
    simp only [blockIn, stmtOps]
    rcases (k.loop l).expansion with _ | p
    · simp only [List.contains_iff_mem]
      split_ifs with h <;> simp [h]
    · simp only [List.contains_iff_mem, List.mem_append]
      split_ifs <;> simp_all

/-- An op is placed exactly when the body lists it and it was not removed. -/
theorem placement_isSome_iff {x : OpId} :
    (k.placement x).isSome ↔ x ∈ k.bodyOps ∧ x ∉ k.removed := by
  unfold placement
  by_cases hr : x ∈ k.removed
  · simp [isRemoved, hr]
  · simp only [isRemoved, List.contains_iff_mem, hr, if_false, List.isSome_findSome?,
      List.any_eq_true, isSome_blockIn_iff, bodyOps, List.mem_flatMap, not_false_eq_true,
      and_true]

/-- The live ops are the placed ones. -/
theorem mem_liveOps_iff_placement {x : OpId} : x ∈ k.liveOps ↔ (k.placement x).isSome := by
  rw [mem_liveOps, placement_isSome_iff]

theorem placement_of_removed {x : OpId} (h : x ∈ k.removed) : k.placement x = none := by
  simp [placement, isRemoved, h]

theorem nodup_liveOps (h : k.bodyOps.Nodup) : k.liveOps.Nodup := h.filter _

/-! ### Blocks inside loops -/

theorem modifyBlock_of_loop {b : Block} {l : LoopId} {f : List OpId → List OpId}
    {g : List Stmt → List Stmt} (hb : b.loop? = some l) :
    k.modifyBlock b f g = k.modifyLoop l (b.edit f) := by
  cases b <;> simp_all [Block.loop?, modifyBlock, Block.edit]

/-- A loop's block holding `a` is a stretch of the loop's ops, and an edit of the block edits that
stretch. -/
theorem placedOps_edit {a : OpId} {l : LoopId} {b : Block} (h : k.blockIn a (.loop l) = some b) :
    b.loop? = some l ∧ ∃ pre xs post, a ∈ xs ∧ (k.loop l).placedOps = pre ++ xs ++ post ∧
      ∀ f, (b.edit f (k.loop l)).placedOps = pre ++ f xs ++ post := by
  simp only [blockIn] at h
  rcases hexp : (k.loop l).expansion with _ | p <;> simp only [hexp] at h
  · split_ifs at h with ha
    cases h
    refine ⟨rfl, [], (k.loop l).body, [], by simpa using ha, by simp [LoopNest.placedOps, hexp],
      fun f => by simp [Block.edit, LoopNest.placedOps, hexp]⟩
  · split_ifs at h with h₁ h₂ h₃ <;> cases h
    · exact ⟨rfl, [], p.prologue, p.steady ++ p.epilogue, by simpa using h₁,
        by simp [LoopNest.placedOps, hexp], fun f => by simp [Block.edit, LoopNest.placedOps, hexp]⟩
    · exact ⟨rfl, p.prologue, p.steady, p.epilogue, by simpa using h₂,
        by simp [LoopNest.placedOps, hexp], fun f => by simp [Block.edit, LoopNest.placedOps, hexp]⟩
    · exact ⟨rfl, p.prologue ++ p.steady, p.epilogue, [], by simpa using h₃,
        by simp [LoopNest.placedOps, hexp], fun f => by simp [Block.edit, LoopNest.placedOps, hexp]⟩

theorem stmtOps_modifyLoop_of_ne {l : LoopId} {F : LoopNest → LoopNest} {s : Stmt}
    (hs : s ≠ .loop l) : (k.modifyLoop l F).stmtOps s = k.stmtOps s := by
  cases s with
  | op o => rfl
  | loop l' =>
    have hne : l ≠ l' := fun h => hs (h ▸ rfl)
    simp only [stmtOps, Kernel.loop, loop?_modifyLoop, if_neg hne]

theorem flatMap_stmtOps_modifyLoop {l : LoopId} {F : LoopNest → LoopNest} {ss : List Stmt}
    (hs : Stmt.loop l ∉ ss) : ss.flatMap (k.modifyLoop l F).stmtOps = ss.flatMap k.stmtOps :=
  List.flatMap_congr fun _ hs' => stmtOps_modifyLoop_of_ne fun h => hs (h ▸ hs')

/-- Editing a loop that the body runs once edits its stretch of the body's ops. -/
theorem bodyOps_modifyLoop {l : LoopId} {F : LoopNest → LoopNest} {A B : List Stmt}
    (hbody : k.body = A ++ .loop l :: B) (hA : Stmt.loop l ∉ A) (hB : Stmt.loop l ∉ B)
    (hl : l.idx < k.loops.size) :
    (k.modifyLoop l F).bodyOps =
      A.flatMap k.stmtOps ++ (F (k.loop l)).placedOps ++ B.flatMap k.stmtOps := by
  have hself : (k.modifyLoop l F).stmtOps (.loop l) = (F (k.loop l)).placedOps := by
    rw [stmtOps_loop, loop_modifyLoop_self (n := k.loop l) (by simp [Kernel.loop, loop?, hl])]
  have hbody' : (k.modifyLoop l F).body = A ++ .loop l :: B := hbody
  rw [bodyOps, hbody', List.flatMap_append, List.flatMap_cons, flatMap_stmtOps_modifyLoop hA,
    flatMap_stmtOps_modifyLoop hB, hself, List.append_assoc]

/-! ### The one spot of a placed op -/

/-- When the body runs each loop once, a loop's statement splits the body in two parts that do not
run the loop. -/
theorem body_split_loop (hl : (k.body.filterMap Stmt.loop?).Nodup) {l : LoopId}
    (hs : Stmt.loop l ∈ k.body) :
    ∃ A B, k.body = A ++ .loop l :: B ∧ Stmt.loop l ∉ A ∧ Stmt.loop l ∉ B := by
  obtain ⟨A, B, hAB, hA⟩ := exists_split_first hs
  refine ⟨A, B, hAB, hA, fun hB => ?_⟩
  simp only [hAB, List.filterMap_append, List.filterMap_cons, Stmt.loop?] at hl
  exact (List.nodup_cons.1 (List.nodup_append.1 hl).2.1).1 (List.mem_filterMap.2 ⟨_, hB, rfl⟩)

/-- Where a placed op sits, when each loop appears in the body once: a top-level statement of its
own, or a stretch of the ops of the one statement running its loop. -/
theorem placement_spot {a : OpId} {b : Block} (hp : k.placement a = some b)
    (hl : (k.body.filterMap Stmt.loop?).Nodup) :
    (b = .body ∧ ∃ A B, k.body = A ++ .op a :: B ∧ Stmt.op a ∉ A) ∨
    ∃ l A B pre xs post, b.loop? = some l ∧ k.body = A ++ .loop l :: B ∧ Stmt.loop l ∉ A ∧
      Stmt.loop l ∉ B ∧ l.idx < k.loops.size ∧ a ∈ xs ∧
      (k.loop l).placedOps = pre ++ xs ++ post ∧
      ∀ f, (b.edit f (k.loop l)).placedOps = pre ++ f xs ++ post := by
  unfold placement at hp
  split_ifs at hp
  obtain ⟨s, hs, hbs⟩ := List.exists_of_findSome?_eq_some hp
  cases s with
  | op o =>
    simp only [blockIn, beq_iff_eq] at hbs
    split_ifs at hbs with hoa
    cases hbs
    subst hoa
    obtain ⟨A, B, hAB, hA⟩ := exists_split_first hs
    exact .inl ⟨rfl, A, B, hAB, hA⟩
  | loop l =>
    obtain ⟨hbl, pre, xs, post, ha, hplaced, hedit⟩ := placedOps_edit hbs
    obtain ⟨A, B, hAB, hA, hB⟩ := body_split_loop hl hs
    have hrange : l.idx < k.loops.size := by
      have hne : xs ≠ [] := List.ne_nil_of_mem ha
      by_contra hout
      have : (k.loop l).placedOps = [] := by
        simp [Kernel.loop, loop?, hout, LoopNest.placedOps]
      rw [this] at hplaced
      simp [hne] at hplaced
    exact .inr ⟨l, A, B, pre, xs, post, hbl, hAB, hA, hB, hrange, ha, hplaced, hedit⟩

/-! ### Editing the block of a placed op -/

/-- Editing the block of a placed op `a` with `f` inside loops and `g` at top level, where both act
on the spot of `a` alone, edits the body's ops at that spot. -/
theorem bodyOps_modifyBlock {a : OpId} {b : Block} {f : List OpId → List OpId}
    {g : List Stmt → List Stmt} (hp : k.placement a = some b)
    (hl : (k.body.filterMap Stmt.loop?).Nodup) (hnd : k.bodyOps.Nodup)
    (hf : ∀ A B, a ∉ A → a ∉ B → f (A ++ a :: B) = A ++ f [a] ++ B)
    (hg : ∀ A B : List Stmt, Stmt.op a ∉ A → Stmt.op a ∉ B →
      g (A ++ .op a :: B) = A ++ (f [a]).map Stmt.op ++ B) :
    ∃ P Q, k.bodyOps = P ++ a :: Q ∧ (k.modifyBlock b f g).bodyOps = P ++ f [a] ++ Q := by
  have flat_ops : ∀ xs : List OpId, (xs.map Stmt.op).flatMap k.stmtOps = xs := fun xs => by
    induction xs with
    | nil => rfl
    | cons x xs ih => simp [List.flatMap_cons, ih, stmtOps]
  rcases placement_spot hp hl with ⟨rfl, A, B, hAB, hA⟩ | ⟨l, A, B, pre, xs, post, hbl, hAB, hA, hB,
    hrange, ha, hplaced, hedit⟩
  · have hbody : k.bodyOps = A.flatMap k.stmtOps ++ a :: B.flatMap k.stmtOps := by
      simp [bodyOps, hAB, stmtOps]
    have hB : Stmt.op a ∉ B := fun hB => by
      rw [hbody] at hnd
      exact (List.nodup_cons.1 (List.nodup_append.1 hnd).2.1).1
        (List.mem_flatMap.2 ⟨_, hB, List.mem_singleton_self a⟩)
    refine ⟨A.flatMap k.stmtOps, B.flatMap k.stmtOps, hbody, ?_⟩
    show (g k.body).flatMap k.stmtOps = _
    rw [hAB, hg A B hA hB, List.flatMap_append, List.flatMap_append, flat_ops, List.append_assoc]
  · have hbody : k.bodyOps = A.flatMap k.stmtOps ++ (pre ++ xs ++ post) ++ B.flatMap k.stmtOps := by
      simp only [bodyOps, hAB, List.flatMap_append, List.flatMap_cons, stmtOps_loop, hplaced,
        List.append_assoc]
    -- The block's list is a stretch of the body's ops, so `a` appears in it once.
    have hxs : xs.Nodup := by
      rw [hbody] at hnd
      exact (List.nodup_append.1 (List.nodup_append.1 (List.nodup_append.1 hnd).1).2.1).1.sublist
        (List.sublist_append_right pre xs)
    obtain ⟨XA, XB, rfl, hXA⟩ := exists_split_first ha
    have hXB : a ∉ XB := (List.nodup_cons.1 (List.nodup_append.1 hxs).2.1).1
    refine ⟨A.flatMap k.stmtOps ++ pre ++ XA, XB ++ post ++ B.flatMap k.stmtOps, by simp [hbody], ?_⟩
    rw [modifyBlock_of_loop hbl, bodyOps_modifyLoop hAB hA hB hrange, hedit, hf XA XB hXA hXB]
    simp

/-! ### The calls that place ops -/

theorem checkUnplaced_ok {h : OpId} (hc : k.checkUnplaced h = .ok ()) :
    h.idx < k.ops.size ∧ k.placement h = none ∧ h ∉ k.removed := by
  unfold checkUnplaced at hc
  rcases ho : k.checkOp h with e | o
  · simp [ho, bind, Except.bind] at hc
  simp only [ho, bind, Except.bind] at hc
  split at hc
  · cases hc
  · rename_i hfree
    simp only [Bool.or_eq_true, not_or, Option.isSome_iff_ne_none, ne_eq, Decidable.not_not,
      isRemoved, List.contains_iff_mem] at hfree
    exact ⟨lt_of_checkOp ho, hfree.1, by simpa using hfree.2⟩

/-- A loop of checks in `Except` that succeeds passes every check. -/
theorem forM_except_ok {α ε : Type} {f : α → Except ε PUnit} :
    ∀ {l : List α}, l.forM f = .ok () → ∀ a ∈ l, f a = .ok ()
  | [], _, a, ha => by cases ha
  | x :: l, h, a, ha => by
    rw [List.forM] at h
    rcases hx : f x with e | u
    · rw [hx] at h
      cases h
    · rw [hx] at h
      rcases List.mem_cons.1 ha with rfl | ha
      · exact hx
      · exact forM_except_ok (l := l) h a ha

/-- An op is added only once its operands pass the checks and its dependencies name ops of the
arena. -/
theorem addOp_checks {o : TileOp} {x : OpId} (h : k.addOp o = .ok (x, k')) :
    k.checkOperands o = .ok () ∧ ∀ d ∈ o.deps, d.idx < k.ops.size := by
  unfold addOp at h
  rcases hc : k.checkOperands o with e | u
  · simp [hc, bind, Except.bind] at h
  simp only [hc, bind, Except.bind] at h
  split at h
  · cases h
  rename_i u' hd
  refine ⟨rfl, fun d hdm => ?_⟩
  have hcheck := forM_except_ok hd d hdm
  rcases hcd : k.checkOp d with e | o'
  · simp [hcd] at hcheck
  · exact lt_of_checkOp hcd

/-- A successful `insertBefore` pushes the op, scheduled as its anchor, and places it right before
the anchor in the anchor's block. -/
theorem insertBefore_eq {a x : OpId} {o : TileOp} (h : k.insertBefore a o = .ok (x, k')) :
    ∃ b, k.placement a = some b ∧ x = ⟨k.ops.size⟩ ∧ (∀ d ∈ o.deps, d.idx < k.ops.size) ∧
      k.checkOperands o = .ok () ∧
      k' = ({ k with ops := k.ops.push (o.scheduledAs (k.op a).sched) } : Kernel).modifyBlock b
        (fun xs => insertAt xs ((xs.idxOf? a).getD 0) x)
        (fun ss => insertAt ss ((ss.idxOf? (.op a)).getD 0) (.op x)) := by
  unfold insertBefore at h
  rcases hb : k.placed a with e | blk
  · simp [hb, bind, Except.bind] at h
  simp only [hb, bind, Except.bind] at h
  split at h
  · cases h
  rename_i _ r ho
  obtain ⟨x₁, k₁⟩ := r
  obtain ⟨hc, hd⟩ := addOp_checks ho
  obtain ⟨rfl, rfl⟩ := addOp_ok ho
  obtain ⟨rfl, rfl⟩ := Prod.mk.inj (Except.ok.inj h)
  exact ⟨blk, (placed_ok hb).1, rfl, fun d hdm =>
    hd d (show d ∈ (o.scheduledAs (k.op a).sched).deps by simpa using hdm),
    by rw [← checkOperands_scheduledAs k o (k.op a).sched]; exact hc, rfl⟩

/-- A successful `insertAfter` pushes the op, scheduled as its anchor, and places it right after
the anchor in the anchor's block. -/
theorem insertAfter_eq {a x : OpId} {o : TileOp} (h : k.insertAfter a o = .ok (x, k')) :
    ∃ b, k.placement a = some b ∧ x = ⟨k.ops.size⟩ ∧ (∀ d ∈ o.deps, d.idx < k.ops.size) ∧
      k.checkOperands o = .ok () ∧
      k' = ({ k with ops := k.ops.push (o.scheduledAs (k.op a).sched) } : Kernel).modifyBlock b
        (fun xs => insertAt xs (((xs.idxOf? a).map (· + 1)).getD xs.length) x)
        (fun ss => insertAt ss (((ss.idxOf? (.op a)).map (· + 1)).getD ss.length) (.op x)) := by
  unfold insertAfter at h
  rcases hb : k.placed a with e | blk
  · simp [hb, bind, Except.bind] at h
  simp only [hb, bind, Except.bind] at h
  split at h
  · cases h
  rename_i _ r ho
  obtain ⟨x₁, k₁⟩ := r
  obtain ⟨hc, hd⟩ := addOp_checks ho
  obtain ⟨rfl, rfl⟩ := addOp_ok ho
  obtain ⟨rfl, rfl⟩ := Prod.mk.inj (Except.ok.inj h)
  exact ⟨blk, (placed_ok hb).1, rfl, fun d hdm =>
    hd d (show d ∈ (o.scheduledAs (k.op a).sched).deps by simpa using hdm),
    by rw [← checkOperands_scheduledAs k o (k.op a).sched]; exact hc, rfl⟩

/-- A successful `replaceOp` pushes the new op with the old one's dependencies and schedule, moves
the old op's dependents to it, puts it in the old op's spot, and removes the old op. -/
theorem replaceOp_eq {old x : OpId} {o : TileOp} (h : k.replaceOp old o = .ok (x, k')) :
    ∃ b, k.placement old = some b ∧ old.idx < k.ops.size ∧ x = ⟨k.ops.size⟩ ∧
      k.checkOperands o = .ok () ∧ k' = { Kernel.modifyBlock (Kernel.redirectDependents { k with ops := (k.ops.push
          { o with deps := (k.op old).deps, sched := (k.op old).sched }) } old x) b
          (·.map fun y => if y == old then x else y)
          (·.map fun s => if s == .op old then .op x else s) with
        removed := k.removed ++ [old] } := by
  unfold replaceOp at h
  rcases hb : k.placed old with e | blk
  · simp [hb, bind, Except.bind] at h
  simp only [hb, bind, Except.bind] at h
  split at h
  · cases h
  rename_i u hc
  obtain ⟨rfl, rfl⟩ := Prod.mk.inj (Except.ok.inj h)
  refine ⟨blk, (placed_ok hb).1, (placed_ok hb).2, rfl, hc, ?_⟩
  rw [removed_modifyBlock, redirectDependents_frame.2.2]

/-- The dependents of `h` wait for the dependencies of `h` instead: the dependency rewrite of
`Kernel.removeOp`. -/
def bypass (k : Kernel) (h : OpId) : Kernel :=
  (k.dependents h).foldl (fun k₁ d => k₁.modifyOp d fun o =>
    { o with deps := (k.op h).deps.foldl (fun ds x => x.insertSorted ds) (o.deps.erase h) }) k

/-- A successful `removeOp` moves the removed op's dependents onto its dependencies, takes it out
of its block, and records it as removed. -/
theorem removeOp_eq {h : OpId} (hr : k.removeOp h = .ok k') :
    ∃ b, k.placement h = some b ∧ h.idx < k.ops.size ∧
      k' = { (k.bypass h).modifyBlock b (·.filter (· != h)) (·.filter (· != .op h)) with
        removed := (k.bypass h).removed ++ [h] } := by
  unfold removeOp at hr
  rcases hb : k.placed h with e | blk
  · simp [hb, bind, Except.bind] at hr
  simp only [hb, bind, Except.bind] at hr
  obtain rfl := Except.ok.inj hr
  exact ⟨blk, (placed_ok hb).1, (placed_ok hb).2, by rw [removed_modifyBlock]; rfl⟩

theorem bypass_frame {h : OpId} : (k.bypass h).body = k.body ∧ (k.bypass h).loops = k.loops ∧
    (k.bypass h).removed = k.removed ∧ (k.bypass h).ops.size = k.ops.size := by
  unfold bypass
  generalize k.op h = o₀
  induction k.dependents h generalizing k with
  | nil => exact ⟨rfl, rfl, rfl, rfl⟩
  | cons d ds ih =>
    obtain ⟨hb, hl, hr, hs⟩ := ih (k := k.modifyOp d _)
    exact ⟨hb, hl, hr, hs.trans (Array.size_modify ..)⟩

/-! ### The op list after an edit -/

theorem bodyOps_congr (hb : k'.body = k.body) (hl : k'.loops = k.loops) : k'.bodyOps = k.bodyOps := by
  obtain ⟨_, _, _, _, _, _⟩ := k
  obtain ⟨_, _, _, _, _, _⟩ := k'
  simp only at hb hl
  subst hb hl
  rfl

theorem filterMap_loop_modifyBlock {b : Block} {f : List OpId → List OpId}
    {g : List Stmt → List Stmt} (hg : ∀ ss, (g ss).filterMap Stmt.loop? = ss.filterMap Stmt.loop?) :
    (k.modifyBlock b f g).body.filterMap Stmt.loop? = k.body.filterMap Stmt.loop? := by
  cases b <;> simp [modifyBlock, modifyLoop, hg]

theorem loopIds_modifyBlock {b : Block} {f : List OpId → List OpId} {g : List Stmt → List Stmt} :
    (k.modifyBlock b f g).loopIds = k.loopIds := by
  cases b <;> simp [modifyBlock, modifyLoop, loopIds]

theorem filterMap_loop_insertAt {ss : List Stmt} {i : Nat} {x : OpId} :
    (insertAt ss i (.op x)).filterMap Stmt.loop? = ss.filterMap Stmt.loop? := by
  have split : ss.filterMap Stmt.loop? =
      (ss.take i).filterMap Stmt.loop? ++ (ss.drop i).filterMap Stmt.loop? := by
    rw [← List.filterMap_append, List.take_append_drop]
  simp only [insertAt, List.filterMap_append, List.filterMap_cons, Stmt.loop?, split]

theorem filterMap_loop_replace {ss : List Stmt} {old x : OpId} :
    (ss.map fun s => if s == .op old then .op x else s).filterMap Stmt.loop? =
      ss.filterMap Stmt.loop? := by
  rw [List.filterMap_map]
  refine List.filterMap_congr fun s _ => ?_
  cases s with
  | op y => by_cases hy : y = old <;> simp [hy, Stmt.loop?]
  | loop l => simp [Stmt.loop?]

theorem filterMap_loop_remove {ss : List Stmt} {h : OpId} :
    (ss.filter (· != .op h)).filterMap Stmt.loop? = ss.filterMap Stmt.loop? := by
  rw [List.filterMap_filter]
  refine List.filterMap_congr fun s _ => ?_
  cases s with
  | op y => by_cases hy : y = h <;> simp [hy, Stmt.loop?]
  | loop l => simp [Stmt.loop?]

/-- The op `insertBefore` adds lands right before its anchor. -/
theorem bodyOps_insertBefore {a x : OpId} {o : TileOp} (h : k.insertBefore a o = .ok (x, k'))
    (hl : (k.body.filterMap Stmt.loop?).Nodup) (hnd : k.bodyOps.Nodup) :
    ∃ P Q, k.bodyOps = P ++ a :: Q ∧ k'.bodyOps = P ++ x :: a :: Q := by
  obtain ⟨b, hp, -, -, -, rfl⟩ := insertBefore_eq h
  obtain ⟨P, Q, hk, hk'⟩ := bodyOps_modifyBlock
    (k := { k with ops := k.ops.push (o.scheduledAs (k.op a).sched) })
    (f := fun xs => insertAt xs ((xs.idxOf? a).getD 0) x)
    (g := fun ss => insertAt ss ((ss.idxOf? (.op a)).getD 0) (.op x)) hp hl hnd
    (fun A B hA _ => by
      rw [idxOf?_split hA, Option.getD_some, insertAt_split]
      simp [insertAt])
    (fun A B hA _ => by
      rw [idxOf?_split hA, Option.getD_some, insertAt_split]
      simp [insertAt])
  exact ⟨P, Q, hk, by simpa [insertAt] using hk'⟩

/-- The op `insertAfter` adds lands right after its anchor. -/
theorem bodyOps_insertAfter {a x : OpId} {o : TileOp} (h : k.insertAfter a o = .ok (x, k'))
    (hl : (k.body.filterMap Stmt.loop?).Nodup) (hnd : k.bodyOps.Nodup) :
    ∃ P Q, k.bodyOps = P ++ a :: Q ∧ k'.bodyOps = P ++ a :: x :: Q := by
  obtain ⟨b, hp, -, -, -, rfl⟩ := insertAfter_eq h
  have after : ∀ {β : Type} (A B : List β) (a y : β),
      insertAt (A ++ a :: B) (A.length + 1) y = A ++ a :: y :: B := fun A B a y => by
    simpa using insertAt_split (A := A ++ [a]) (B := B) (x := y)
  obtain ⟨P, Q, hk, hk'⟩ := bodyOps_modifyBlock
    (k := { k with ops := k.ops.push (o.scheduledAs (k.op a).sched) })
    (f := fun xs => insertAt xs (((xs.idxOf? a).map (· + 1)).getD xs.length) x)
    (g := fun ss => insertAt ss (((ss.idxOf? (.op a)).map (· + 1)).getD ss.length) (.op x)) hp hl hnd
    (fun A B hA _ => by
      rw [idxOf?_split hA, Option.map_some, Option.getD_some, after]
      simp [insertAt])
    (fun A B hA _ => by
      rw [idxOf?_split hA, Option.map_some, Option.getD_some, after]
      simp [insertAt])
  exact ⟨P, Q, hk, by simpa [insertAt] using hk'⟩

/-- The op `replaceOp` adds takes the spot of the one it replaces. -/
theorem bodyOps_replaceOp {old x : OpId} {o : TileOp} (h : k.replaceOp old o = .ok (x, k'))
    (hl : (k.body.filterMap Stmt.loop?).Nodup) (hnd : k.bodyOps.Nodup) :
    ∃ P Q, k.bodyOps = P ++ old :: Q ∧ k'.bodyOps = P ++ x :: Q := by
  obtain ⟨b, hp, -, -, -, rfl⟩ := replaceOp_eq h
  let k₁ : Kernel := { k with ops := (k.ops.push
    { o with deps := (k.op old).deps, sched := (k.op old).sched }) }
  obtain ⟨hb, hlp, hr⟩ : (k₁.redirectDependents old x).body = k₁.body ∧
      (k₁.redirectDependents old x).loops = k₁.loops ∧
      (k₁.redirectDependents old x).removed = k₁.removed := redirectDependents_frame
  have hp₂ : (k₁.redirectDependents old x).placement old = some b := by
    rw [placement_congr hb hlp hr]
    exact hp
  have hbody := bodyOps_congr hb hlp
  obtain ⟨P, Q, hk, hk'⟩ := bodyOps_modifyBlock (k := k₁.redirectDependents old x)
    (f := (·.map fun y => if y == old then x else y))
    (g := (·.map fun s => if s == .op old then .op x else s)) hp₂ (by rw [hb]; exact hl)
    (by rw [hbody]; exact hnd)
    (fun A B hA hB => by rw [map_replace_split hA hB]; simp)
    (fun A B hA hB => by rw [map_replace_split hA hB]; simp)
  exact ⟨P, Q, hbody.symm.trans hk, hk'.trans (by simp)⟩

/-- The op `removeOp` removes leaves its spot. -/
theorem bodyOps_removeOp {a : OpId} (h : k.removeOp a = .ok k')
    (hl : (k.body.filterMap Stmt.loop?).Nodup) (hnd : k.bodyOps.Nodup) :
    ∃ P Q, k.bodyOps = P ++ a :: Q ∧ k'.bodyOps = P ++ Q := by
  obtain ⟨b, hp, -, rfl⟩ := removeOp_eq h
  obtain ⟨hb, hlp, hr, -⟩ := bypass_frame (k := k) (h := a)
  have hp₂ : (k.bypass a).placement a = some b := by
    rw [placement_congr hb hlp hr]
    exact hp
  have hbody := bodyOps_congr hb hlp
  obtain ⟨P, Q, hk, hk'⟩ := bodyOps_modifyBlock (k := k.bypass a)
    (f := (·.filter (· != a))) (g := (·.filter (· != .op a))) hp₂ (by rw [hb]; exact hl)
    (by rw [hbody]; exact hnd)
    (fun A B hA hB => by rw [filter_remove_split hA hB]; simp)
    (fun A B hA hB => by rw [filter_remove_split hA hB]; simp)
  exact ⟨P, Q, hbody.symm.trans hk, hk'.trans (by simp)⟩

end Kernel

end TileKernel
