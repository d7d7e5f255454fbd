import TileKernel.Proofs.Arena

/-!
# Kernels built by calls

A kernel is built from an empty one by the calls that declare buffers, add, place and edit ops,
open loops, record dependencies and attach schedules, layouts and swizzles (`Kernel.Call`).
Every kernel built that way keeps the representation invariant `Kernel.Arena`: dependencies name
ops of the arena and close no cycle, the body places each op at most once, and it runs each loop
of the arena once. `Kernel.Built.arena_invariant` reads off what the invariant promises:
`dependsOn` is antisymmetric, `topologicalOrder` succeeds, the live ops are listed once each and
are exactly the placed ones, and an op removed or replaced is never placed again.

Each call changes the dependency graph in one of three ways: it adds edges out of one op into
ops that cannot reach it (`acyclic_of_new_edges`), it moves edges along a map that merges a
replaced op with its replacement, or it shortcuts edges through a removed op.
-/

set_option autoImplicit false

namespace TileKernel

/-! ### Acyclic relations under edits -/

section Relations

variable {α : Type} {R R' : α → α → Prop}

/-- A path of `R'`, whose edges outside `R` all leave `u` for targets in `N`, is a path of `R`,
or it reaches `u` along `R` and, after its last new edge, follows `R` alone. -/
theorem transGen_of_new_edges {u : α} {N : α → Prop}
    (hR' : ∀ y z, R' y z → R y z ∨ (y = u ∧ N z)) {a b : α} (h : Relation.TransGen R' a b) :
    Relation.TransGen R a b ∨
      (Relation.ReflTransGen R a u ∧ ∃ z, N z ∧ Relation.ReflTransGen R z b) := by
  induction h with
  | single hab =>
    rcases hR' _ _ hab with h | ⟨rfl, hz⟩
    · exact .inl (.single h)
    · exact .inr ⟨.refl, _, hz, .refl⟩
  | tail _ hbc ih =>
    rcases hR' _ _ hbc with h | ⟨rfl, hz⟩
    · rcases ih with ih | ⟨hau, z, hz, hzb⟩
      · exact .inl (ih.tail h)
      · exact .inr ⟨hau, z, hz, hzb.tail h⟩
    · rcases ih with ih | ⟨hau, -⟩
      · exact .inr ⟨ih.to_reflTransGen, _, hz, .refl⟩
      · exact .inr ⟨hau, _, hz, .refl⟩

/-- Adding edges out of one node `u`, each into a node that cannot reach `u`, keeps a relation
acyclic. -/
theorem acyclic_of_new_edges {u : α} (hacyc : ∀ a, ¬ Relation.TransGen R a a)
    (hR' : ∀ y z, R' y z → R y z ∨ (y = u ∧ ¬ Relation.ReflTransGen R z u)) :
    ∀ a, ¬ Relation.TransGen R' a a := by
  intro a h
  rcases transGen_of_new_edges hR' h with h | ⟨hau, z, hz, hza⟩
  · exact hacyc a h
  · exact hz (hza.trans hau)

end Relations

namespace Kernel

variable {k k' : Kernel}

/-! ### Dependency lists -/

theorem mem_insertSorted {a x : OpId} : ∀ {ds : List OpId}, x ∈ a.insertSorted ds ↔ x = a ∨ x ∈ ds
  | [] => by simp [OpId.insertSorted]
  | y :: ds => by
    unfold OpId.insertSorted
    split_ifs with hlt heq
    · simp
    · -- Handles with one index are one handle, already listed.
      have hay : a = y := by
        obtain ⟨i⟩ := a
        obtain ⟨j⟩ := y
        simp only at heq
        rw [heq]
      subst hay
      simp
    · simp only [List.mem_cons, (mem_insertSorted : x ∈ a.insertSorted ds ↔ _)]
      tauto

theorem mem_foldl_insertSorted {x : OpId} : ∀ {xs ds : List OpId},
    x ∈ xs.foldl (fun ds y => y.insertSorted ds) ds ↔ x ∈ xs ∨ x ∈ ds
  | [], ds => by simp
  | y :: xs, ds => by
    rw [List.foldl_cons, mem_foldl_insertSorted, mem_insertSorted, List.mem_cons]
    tauto

/-! ### Dependency edges under edits -/

/-- An op outside the arena reads as one with no dependencies. -/
theorem lt_of_waits {y z : OpId} (h : k.Waits y z) : y.idx < k.ops.size := by
  by_contra hy
  have hnone : k.op? y = none := Array.getElem?_eq_none (Nat.le_of_not_lt hy)
  simp [Waits, Kernel.op, hnone] at h

theorem op_modifyOp_of_ne {x y : OpId} {f : TileOp → TileOp} (h : x ≠ y) :
    (k.modifyOp x f).op y = k.op y := by
  obtain ⟨i⟩ := x
  obtain ⟨j⟩ := y
  have hij : i ≠ j := fun e => h (e ▸ rfl)
  simp [Kernel.op, op?, modifyOp, Array.getElem?_modify, hij]

theorem waits_push {o : TileOp} {y z : OpId} (h : ({ k with ops := k.ops.push o } : Kernel).Waits y z) :
    (y.idx < k.ops.size ∧ k.Waits y z) ∨ (y = ⟨k.ops.size⟩ ∧ z ∈ o.deps) := by
  have hy : y.idx < k.ops.size + 1 := by simpa using lt_of_waits h
  rcases Nat.lt_succ_iff_lt_or_eq.1 hy with hy | hy
  · rw [Waits, op_push hy] at h
    exact .inl ⟨hy, h⟩
  · obtain ⟨i⟩ := y
    simp only at hy
    subst hy
    rw [Waits, op_push_self] at h
    exact .inr ⟨rfl, h⟩

theorem waits_modifyOp {x y z : OpId} {f : TileOp → TileOp} (h : (k.modifyOp x f).Waits y z) :
    (y ≠ x ∧ k.Waits y z) ∨ (y = x ∧ z ∈ (f (k.op x)).deps) := by
  by_cases hxy : x = y
  · subst hxy
    have hx : x.idx < k.ops.size := by simpa [modifyOp] using lt_of_waits h
    rw [Waits, op_modifyOp hx, if_pos rfl] at h
    exact .inr ⟨rfl, h⟩
  · rw [Waits, op_modifyOp_of_ne hxy] at h
    exact .inl ⟨Ne.symm hxy, h⟩

theorem waits_modifyBlock {b : Block} {f : List OpId → List OpId} {g : List Stmt → List Stmt} :
    (k.modifyBlock b f g).Waits = k.Waits := by
  funext y z
  simp only [Waits, op_modifyBlock]

/-- Rewriting ops one after another, where each rewrite adds only edges of `E`, adds only edges of
`E`. -/
theorem waits_foldl {E : OpId → OpId → Prop} {G : Kernel → OpId → Kernel} {ds : List OpId}
    (hG : ∀ kc, ∀ d ∈ ds, ∀ y z, (G kc d).Waits y z → kc.Waits y z ∨ E y z) :
    ∀ {kc : Kernel}, (∀ y z, kc.Waits y z → k.Waits y z ∨ E y z) →
      ∀ y z, (ds.foldl G kc).Waits y z → k.Waits y z ∨ E y z := by
  induction ds with
  | nil => exact fun hkc => hkc
  | cons d ds ih =>
    intro kc hkc
    exact ih (fun kc' d' hd' => hG kc' d' (List.mem_cons_of_mem _ hd'))
      fun y z hyz => (hG kc d List.mem_cons_self y z hyz).elim (hkc y z) .inr

theorem waits_of_mem_dependents {d h : OpId} (hd : d ∈ k.dependents h) : k.Waits d h := by
  simp only [dependents, List.mem_filter, Bool.and_eq_true, List.contains_iff_mem] at hd
  exact hd.2.2

/-- Moving the dependents of `src` to `dst` adds only edges into `dst`, from ops that waited for
`src`. -/
theorem waits_redirectDependents {src dst y z : OpId}
    (h : (k.redirectDependents src dst).Waits y z) : k.Waits y z ∨ (z = dst ∧ k.Waits y src) := by
  unfold redirectDependents at h
  refine waits_foldl (E := fun y z => z = dst ∧ k.Waits y src) (fun kc d hd y z hyz => ?_)
    (fun _ _ => .inl) y z h
  split_ifs at hyz
  · exact .inl hyz
  · rcases waits_modifyOp hyz with ⟨-, h'⟩ | ⟨rfl, h'⟩
    · exact .inl h'
    · rcases mem_insertSorted.1 h' with rfl | h'
      · exact .inr ⟨rfl, waits_of_mem_dependents hd⟩
      · exact .inl (List.mem_of_mem_erase h')

/-- Bypassing `h` adds only edges that shortcut a path through `h`. -/
theorem waits_bypass {h y z : OpId} (hw : (k.bypass h).Waits y z) :
    k.Waits y z ∨ (k.Waits y h ∧ k.Waits h z) := by
  unfold bypass at hw
  refine waits_foldl (E := fun y z => k.Waits y h ∧ k.Waits h z) (fun kc d hd y z hyz => ?_)
    (fun _ _ => .inl) y z hw
  rcases waits_modifyOp hyz with ⟨-, h'⟩ | ⟨rfl, h'⟩
  · exact .inl h'
  · rcases mem_foldl_insertSorted.1 h' with h' | h'
    · exact .inr ⟨waits_of_mem_dependents hd, h'⟩
    · exact .inl (List.mem_of_mem_erase h')

/-- No op of the arena reaches one outside it. -/
theorem not_reaches_of_size_le (hd : k.DepsExist) {z x : OpId} (hz : z.idx < k.ops.size)
    (hx : k.ops.size ≤ x.idx) : ¬ Relation.ReflTransGen k.Waits z x := by
  intro h
  rcases h.cases_tail with rfl | ⟨c, -, hc⟩
  · exact Nat.lt_irrefl _ (Nat.lt_of_lt_of_le hz hx)
  · exact Nat.lt_irrefl _ (Nat.lt_of_lt_of_le (hd c x hc) hx)

/-! ### What each call does -/

theorem push_ok {h : OpId} (hp : k.push h = .ok k') :
    k.checkUnplaced h = .ok () ∧ k' = { k with body := k.body ++ [.op h] } := by
  unfold push at hp
  rcases hc : k.checkUnplaced h with e | u
  · simp [hc, bind, Except.bind] at hp
  · simp only [hc, bind, Except.bind] at hp
    exact ⟨rfl, (Except.ok.inj hp).symm⟩

theorem pushLoop_ok {n : LoopNest} {l : LoopId} (hp : k.pushLoop n = .ok (l, k')) :
    n.body = [] ∧ n.expansion = none ∧
      k' = { k with loops := k.loops.push n, body := k.body ++ [.loop ⟨k.loops.size⟩] } := by
  unfold pushLoop at hp
  simp only [bind, Except.bind] at hp
  split at hp
  · cases hp
  split at hp
  · cases hp
  rename_i _ hfresh
  simp at hfresh
  obtain ⟨-, rfl⟩ := Prod.mk.inj (Except.ok.inj hp)
  exact ⟨hfresh.1, hfresh.2, rfl⟩

theorem tryLoop_ok {l : LoopId} {n : LoopNest} (h : k.tryLoop l = .ok n) :
    l.idx < k.loops.size ∧ k.loop l = n := by
  unfold tryLoop at h
  split at h
  · rename_i n' hn
    obtain rfl := Except.ok.inj h
    exact ⟨(Array.getElem?_eq_some_iff.1 hn).1, by simp [Kernel.loop, hn]⟩
  · cases h

theorem pushToLoop_ok {l : LoopId} {h : OpId} (hp : k.pushToLoop l h = .ok k') :
    k.checkUnplaced h = .ok () ∧ l.idx < k.loops.size ∧ (k.loop l).expansion = none ∧
      k' = k.modifyLoop l fun n => { n with body := n.body ++ [h] } := by
  unfold pushToLoop at hp
  rcases hc : k.checkUnplaced h with e | u
  · simp [hc, bind, Except.bind] at hp
  rcases hl : k.tryLoop l with e | n
  · simp [hc, hl, bind, Except.bind] at hp
  obtain ⟨hlt, rfl⟩ := tryLoop_ok hl
  simp only [hc, hl, bind, Except.bind] at hp
  split at hp
  · cases hp
  rename_i hexp
  exact ⟨rfl, hlt, by simpa using hexp, (Except.ok.inj hp).symm⟩

theorem addDependency_ok {h on : OpId} (hd : k.addDependency h on = .ok k') :
    on.idx < k.ops.size ∧ k.dependsOn on h = false ∧
      k' = k.modifyOp h fun x => { x with deps := on.insertSorted x.deps } := by
  unfold addDependency at hd
  rcases hh : k.checkOp h with e | o
  · simp [hh, bind, Except.bind] at hd
  rcases hon : k.checkOp on with e | p
  · simp [hh, hon, bind, Except.bind] at hd
  by_cases hc : k.dependsOn on h = true
  · simp [hh, hon, hc, bind, Except.bind, throw, throwThe, MonadExceptOf.throw] at hd
  · simp only [hh, hon, hc, bind, Except.bind, Bool.false_eq_true, if_false] at hd
    exact ⟨lt_of_checkOp hon, by simpa using hc, (Except.ok.inj hd).symm⟩

theorem not_mem_bodyOps_of_checkUnplaced {h : OpId} (hc : k.checkUnplaced h = .ok ()) :
    h ∉ k.bodyOps := by
  obtain ⟨-, hp, hr⟩ := checkUnplaced_ok hc
  intro hb
  have := placement_isSome_iff.2 ⟨hb, hr⟩
  simp [hp] at this

theorem mem_loopIds {l : LoopId} : l ∈ k.loopIds ↔ l.idx < k.loops.size := by
  simp only [loopIds, List.mem_map, List.mem_range]
  constructor
  · rintro ⟨i, hi, rfl⟩
    exact hi
  · exact fun hl => ⟨l.idx, hl, rfl⟩

theorem nodup_loopIds : k.loopIds.Nodup :=
  (List.nodup_range ..).map fun _ _ h => LoopId.mk.inj h

theorem stmtOps_congr (hl : k'.loops = k.loops) : k'.stmtOps = k.stmtOps := by
  funext s
  simp only [stmtOps, Kernel.loop, loop?, hl]

theorem ne_fresh {y : OpId} (hy : y.idx < k.ops.size) : y ≠ ⟨k.ops.size⟩ := fun h => by
  subst h
  exact Nat.lt_irrefl _ hy

/-! ### The op list after a placing call -/

theorem bodyOps_push {h : OpId} (hp : k.push h = .ok k') : k'.bodyOps = k.bodyOps ++ [h] := by
  obtain ⟨-, rfl⟩ := push_ok hp
  show (k.body ++ [Stmt.op h]).flatMap k.stmtOps = k.body.flatMap k.stmtOps ++ [h]
  simp [stmtOps]

/-- When the body runs every loop of the arena, each loop of the arena has its statement. -/
theorem mem_body_of_loopIds (hl : k.body.filterMap Stmt.loop? = k.loopIds) {l : LoopId}
    (hlt : l.idx < k.loops.size) : Stmt.loop l ∈ k.body := by
  obtain ⟨s, hs, hsl⟩ := List.mem_filterMap.1 (hl ▸ mem_loopIds.2 hlt :
    l ∈ k.body.filterMap Stmt.loop?)
  cases s with
  | op x => cases hsl
  | loop l' =>
    cases hsl
    exact hs

/-- A new loop places nothing yet, and the body keeps running each loop of the arena once. -/
theorem bodyOps_pushLoop (hl : k.body.filterMap Stmt.loop? = k.loopIds) {n : LoopNest} {l : LoopId}
    (hp : k.pushLoop n = .ok (l, k')) :
    k'.bodyOps = k.bodyOps ∧ k'.body.filterMap Stmt.loop? = k'.loopIds := by
  obtain ⟨hbody, hexp, hk'⟩ := pushLoop_ok hp
  have hloops : k'.loops = k.loops.push n := by rw [hk']
  have hb : k'.body = k.body ++ [.loop ⟨k.loops.size⟩] := by rw [hk']
  -- The loops the body ran keep their nests, and the new one places nothing yet.
  have hold : ∀ s ∈ k.body, k'.stmtOps s = k.stmtOps s := by
    intro s hs
    cases s with
    | op x => rfl
    | loop l' =>
      have hlt : l'.idx < k.loops.size :=
        mem_loopIds.1 (hl ▸ List.mem_filterMap.2 ⟨_, hs, rfl⟩)
      simp [stmtOps, Kernel.loop, loop?, hloops, Array.getElem?_push, Nat.ne_of_lt hlt]
  have hnew : k'.stmtOps (.loop ⟨k.loops.size⟩) = [] := by
    simp [stmtOps, Kernel.loop, loop?, hloops, hexp, hbody]
  refine ⟨by simp [bodyOps, hb, List.flatMap_congr hold, hnew], ?_⟩
  rw [hb, List.filterMap_append, hl, loopIds, loopIds, hloops]
  simp [List.range_succ, Stmt.loop?]

/-- An op pushed to a loop lands at the end of the loop's stretch of the body's ops. -/
theorem bodyOps_pushToLoop (hl : k.body.filterMap Stmt.loop? = k.loopIds) {l : LoopId} {h : OpId}
    (hp : k.pushToLoop l h = .ok k') : ∃ P Q, k.bodyOps = P ++ Q ∧ k'.bodyOps = P ++ h :: Q := by
  obtain ⟨-, hlt, hexp, rfl⟩ := pushToLoop_ok hp
  obtain ⟨A, B, hAB, hA', hB'⟩ := body_split_loop (hl ▸ nodup_loopIds) (mem_body_of_loopIds hl hlt)
  refine ⟨A.flatMap k.stmtOps ++ (k.loop l).body, B.flatMap k.stmtOps, ?_, ?_⟩
  · simp only [bodyOps, hAB, List.flatMap_append, List.flatMap_cons, stmtOps_loop,
      LoopNest.placedOps, hexp, List.append_assoc]
  · rw [bodyOps_modifyLoop hAB hA' hB' hlt]
    simp [LoopNest.placedOps, hexp]

/-! ### The invariant -/

/-- The representation invariant of a kernel under construction. -/
structure Arena (k : Kernel) : Prop where
  /-- Every dependency names an op of the arena. -/
  depsExist : k.DepsExist
  /-- No op waits for itself through a chain of dependencies. -/
  acyclic : ∀ a, ¬ Relation.TransGen k.Waits a a
  /-- Every op the body places is in the arena. -/
  placedExist : ∀ x ∈ k.bodyOps, x.idx < k.ops.size
  /-- No op is placed twice. -/
  placedOnce : k.bodyOps.Nodup
  /-- The body runs each loop of the arena once, in creation order. -/
  loopsOnce : k.body.filterMap Stmt.loop? = k.loopIds

/-- One successful call of the interface that builds kernels. -/
inductive Call : Kernel → Kernel → Prop
  | addBuffer {k k' : Kernel} {b : Buffer} {x : BufferId} : k.addBuffer b = .ok (x, k') → Call k k'
  | addOp {k k' : Kernel} {o : TileOp} {x : OpId} : k.addOp o = .ok (x, k') → Call k k'
  | push {k k' : Kernel} {h : OpId} : k.push h = .ok k' → Call k k'
  | pushLoop {k k' : Kernel} {n : LoopNest} {l : LoopId} : k.pushLoop n = .ok (l, k') → Call k k'
  | pushToLoop {k k' : Kernel} {l : LoopId} {h : OpId} : k.pushToLoop l h = .ok k' → Call k k'
  | addDependency {k k' : Kernel} {h on : OpId} : k.addDependency h on = .ok k' → Call k k'
  | insertBefore {k k' : Kernel} {a x : OpId} {o : TileOp} :
      k.insertBefore a o = .ok (x, k') → Call k k'
  | insertAfter {k k' : Kernel} {a x : OpId} {o : TileOp} :
      k.insertAfter a o = .ok (x, k') → Call k k'
  | replaceOp {k k' : Kernel} {old x : OpId} {o : TileOp} :
      k.replaceOp old o = .ok (x, k') → Call k k'
  | removeOp {k k' : Kernel} {h : OpId} : k.removeOp h = .ok k' → Call k k'
  | setSched {k k' : Kernel} {h : OpId} {info : SchedInfo} : k.setSched h info = .ok k' → Call k k'
  | attachLayout {k k' : Kernel} {b : BufferId} {l : Layout} :
      k.attachLayout b l = .ok k' → Call k k'
  | attachSwizzle {k k' : Kernel} {b : BufferId} {s : Swizzle} :
      (k.attachSwizzle b s).run = .ok (.ok k') → Call k k'

/-- A kernel built from an empty one by successful calls. -/
def Built (k : Kernel) : Prop := ∃ name, Relation.ReflTransGen Call { name } k

/-- Calls only add to the removed ops. -/
theorem Call.removed_mono (hc : Call k k') {x : OpId} (hx : x ∈ k.removed) : x ∈ k'.removed := by
  cases hc with
  | addBuffer h =>
    unfold Kernel.addBuffer at h
    split_ifs at h
    obtain ⟨-, rfl⟩ := Prod.mk.inj (Except.ok.inj h)
    exact hx
  | addOp h => obtain ⟨-, rfl⟩ := addOp_ok h; exact hx
  | push h => obtain ⟨-, rfl⟩ := push_ok h; exact hx
  | pushLoop h => obtain ⟨-, -, rfl⟩ := pushLoop_ok h; exact hx
  | pushToLoop h => obtain ⟨-, -, -, rfl⟩ := pushToLoop_ok h; exact hx
  | addDependency h => obtain ⟨-, -, rfl⟩ := addDependency_ok h; exact hx
  | insertBefore h =>
    obtain ⟨-, -, -, -, -, rfl⟩ := insertBefore_eq h
    rw [removed_modifyBlock]
    exact hx
  | insertAfter h =>
    obtain ⟨-, -, -, -, -, rfl⟩ := insertAfter_eq h
    rw [removed_modifyBlock]
    exact hx
  | replaceOp h =>
    obtain ⟨-, -, -, -, -, rfl⟩ := replaceOp_eq h
    exact List.mem_append_left _ hx
  | @removeOp h hr =>
    obtain ⟨-, -, -, rfl⟩ := removeOp_eq hr
    rw [(bypass_frame (k := k) (h := h)).2.2.1]
    exact List.mem_append_left _ hx
  | setSched h => obtain ⟨-, rfl⟩ := setSched_ok h; exact hx
  | attachLayout h => obtain ⟨-, rfl⟩ := attachLayout_ok h; exact hx
  | attachSwizzle h => obtain rfl := attachSwizzle_ok h; exact hx

theorem removed_run (h : Relation.ReflTransGen Call k k') {x : OpId} (hx : x ∈ k.removed) :
    x ∈ k'.removed := by
  induction h with
  | refl => exact hx
  | tail _ hc ih => exact hc.removed_mono ih

namespace Arena

theorem loops_nodup (hA : k.Arena) : (k.body.filterMap Stmt.loop?).Nodup :=
  hA.loopsOnce ▸ nodup_loopIds

/-- The kernel a build starts from. -/
theorem empty (name : String) : Arena { name } where
  depsExist _ _ h := absurd (lt_of_waits h) (Nat.not_lt_zero _)
  acyclic a h := by
    obtain ⟨c, hac, -⟩ := Relation.TransGen.head'_iff.1 h
    exact Nat.not_lt_zero _ (lt_of_waits hac)
  placedExist _ h := by simp [bodyOps] at h
  placedOnce := List.nodup_nil
  loopsOnce := rfl

/-- An edit of the op arena alone keeps the invariant when the graph keeps its facts and the
arena does not shrink. -/
theorem of_graph (hA : k.Arena) (hd : k'.DepsExist) (hacyc : ∀ a, ¬ Relation.TransGen k'.Waits a a)
    (hs : k.ops.size ≤ k'.ops.size) (hb : k'.body = k.body) (hl : k'.loops = k.loops) :
    k'.Arena where
  depsExist := hd
  acyclic := hacyc
  placedExist x hx := Nat.lt_of_lt_of_le (hA.placedExist x (bodyOps_congr hb hl ▸ hx)) hs
  placedOnce := bodyOps_congr hb hl ▸ hA.placedOnce
  loopsOnce := by
    rw [hb, loopIds, hl]
    exact hA.loopsOnce

/-- An edit of the op arena that keeps its size and adds no edge keeps the invariant. -/
theorem of_fewer_edges (hA : k.Arena) (hw : ∀ y z, k'.Waits y z → k.Waits y z)
    (hs : k'.ops.size = k.ops.size) (hb : k'.body = k.body) (hl : k'.loops = k.loops) :
    k'.Arena :=
  hA.of_graph (fun x d h => hs ▸ hA.depsExist x d (hw x d h))
    (fun a h => hA.acyclic a (Relation.TransGen.mono hw a a h)) hs.ge hb hl

/-- The invariant reads the op arena, the body and the loops only. -/
theorem of_ops (hA : k.Arena) (ho : k'.ops = k.ops) (hb : k'.body = k.body)
    (hl : k'.loops = k.loops) : k'.Arena :=
  hA.of_fewer_edges (fun y z h => by simpa only [Waits, Kernel.op, op?, ho] using h) (by rw [ho])
    hb hl

/-- An edit of the placing alone keeps the invariant when the body places each op of the arena
at most once and runs each loop once. -/
theorem of_places (hA : k.Arena) (ho : k'.ops = k.ops) (hnd : k'.bodyOps.Nodup)
    (hex : ∀ x ∈ k'.bodyOps, x.idx < k.ops.size)
    (hl : k'.body.filterMap Stmt.loop? = k'.loopIds) : k'.Arena := by
  have hw : k'.Waits = k.Waits := by
    funext y z
    simp only [Waits, Kernel.op, op?, ho]
  refine ⟨fun x d h => ?_, hw ▸ hA.acyclic, fun x hx => ho ▸ hex x hx, hnd, hl⟩
  rw [ho]
  exact hA.depsExist x d (show k.Waits x d by rw [← hw]; exact h)

/-- Adding an op whose dependencies are in the arena keeps the invariant: nothing waits for the
new op, and the body does not place it. -/
theorem pushOp (hA : k.Arena) {o : TileOp} (hd : ∀ d ∈ o.deps, d.idx < k.ops.size) :
    Arena { k with ops := k.ops.push o } := by
  refine hA.of_graph (fun x d hxd => ?_)
    (acyclic_of_new_edges (u := ⟨k.ops.size⟩) hA.acyclic fun y z hyz => ?_)
    (by simp) rfl rfl
  · have hd' : d.idx < k.ops.size := by
      rcases waits_push hxd with ⟨-, h⟩ | ⟨-, h⟩
      · exact hA.depsExist x d h
      · exact hd d h
    simpa using Nat.lt_succ_of_lt hd'
  · rcases waits_push hyz with ⟨-, h⟩ | ⟨rfl, h⟩
    · exact .inl h
    · exact .inr ⟨rfl, not_reaches_of_size_le hA.depsExist (hd z h) (Nat.le_refl _)⟩

/-! ### Each call keeps the invariant -/

theorem addBuffer (hA : k.Arena) {b : Buffer} {x : BufferId} (h : k.addBuffer b = .ok (x, k')) :
    k'.Arena := by
  unfold Kernel.addBuffer at h
  split_ifs at h
  obtain ⟨-, rfl⟩ := Prod.mk.inj (Except.ok.inj h)
  exact hA.of_ops rfl rfl rfl

theorem attachLayout (hA : k.Arena) {b : BufferId} {l : Layout} (h : k.attachLayout b l = .ok k') :
    k'.Arena := by
  obtain ⟨-, rfl⟩ := attachLayout_ok h
  exact hA.of_ops rfl rfl rfl

theorem attachSwizzle (hA : k.Arena) {b : BufferId} {s : Swizzle}
    (h : (k.attachSwizzle b s).run = .ok (.ok k')) : k'.Arena := by
  obtain rfl := attachSwizzle_ok h
  exact hA.of_ops rfl rfl rfl

theorem setSched (hA : k.Arena) {x : OpId} {info : SchedInfo} (h : k.setSched x info = .ok k') :
    k'.Arena := by
  obtain ⟨-, rfl⟩ := setSched_ok h
  refine hA.of_fewer_edges (fun y z hyz => ?_) (by simp [modifyOp]) rfl rfl
  -- A schedule leaves the dependencies alone.
  rcases waits_modifyOp hyz with ⟨-, h'⟩ | ⟨rfl, h'⟩
  · exact h'
  · exact h'

theorem addOp (hA : k.Arena) {o : TileOp} {x : OpId} (h : k.addOp o = .ok (x, k')) : k'.Arena := by
  have hd := (addOp_checks h).2
  obtain ⟨-, rfl⟩ := addOp_ok h
  exact hA.pushOp hd

/-- The one new edge, from `h` to `on`, closes no cycle, since `on` does not reach `h`. -/
theorem addDependency (hA : k.Arena) {h on : OpId} (hd : k.addDependency h on = .ok k') :
    k'.Arena := by
  obtain ⟨hon, hfree, rfl⟩ := addDependency_ok hd
  have edges : ∀ y z, (k.modifyOp h fun x => { x with deps := on.insertSorted x.deps }).Waits y z →
      k.Waits y z ∨ (y = h ∧ z = on) := fun y z hyz => by
    rcases waits_modifyOp hyz with ⟨-, h'⟩ | ⟨rfl, h'⟩
    · exact .inl h'
    · rcases mem_insertSorted.1 h' with rfl | h'
      · exact .inr ⟨rfl, rfl⟩
      · exact .inl h'
  have hnot : ¬ Relation.ReflTransGen k.Waits on h := fun hr => by
    simp [(dependsOn_iff hA.depsExist).2 hr] at hfree
  refine hA.of_graph (fun y z hyz => ?_)
    (acyclic_of_new_edges (u := h) hA.acyclic fun y z hyz => ?_) (by simp [modifyOp]) rfl rfl
  · have hz : z.idx < k.ops.size := (edges y z hyz).elim (hA.depsExist y z) fun h' => h'.2 ▸ hon
    simpa [modifyOp] using hz
  · rcases edges y z hyz with h' | ⟨rfl, rfl⟩
    · exact .inl h'
    · exact .inr ⟨rfl, hnot⟩

theorem push (hA : k.Arena) {h : OpId} (hp : k.push h = .ok k') : k'.Arena := by
  have hbody := bodyOps_push hp
  obtain ⟨hc, rfl⟩ := push_ok hp
  refine hA.of_places rfl ?_ (fun x hx => ?_) ?_
  · rw [hbody]
    exact nodup_insert_mid (by simpa using hA.placedOnce)
      (by simpa using not_mem_bodyOps_of_checkUnplaced hc)
  · rw [hbody, List.mem_append, List.mem_singleton] at hx
    rcases hx with hx | rfl
    · exact hA.placedExist x hx
    · exact (checkUnplaced_ok hc).1
  · show (k.body ++ [Stmt.op h]).filterMap Stmt.loop? = k.loopIds
    rw [List.filterMap_append, hA.loopsOnce]
    simp [Stmt.loop?]

theorem mem_body_of_lt (hA : k.Arena) {l : LoopId} (hl : l.idx < k.loops.size) :
    Stmt.loop l ∈ k.body :=
  mem_body_of_loopIds hA.loopsOnce hl

theorem pushLoop (hA : k.Arena) {n : LoopNest} {l : LoopId} (hp : k.pushLoop n = .ok (l, k')) :
    k'.Arena := by
  obtain ⟨hbo, hl⟩ := bodyOps_pushLoop hA.loopsOnce hp
  obtain ⟨-, -, hk'⟩ := pushLoop_ok hp
  exact hA.of_places (by rw [hk']) (hbo ▸ hA.placedOnce) (fun x hx => hA.placedExist x (hbo ▸ hx)) hl

theorem pushToLoop (hA : k.Arena) {l : LoopId} {h : OpId} (hp : k.pushToLoop l h = .ok k') :
    k'.Arena := by
  obtain ⟨P, Q, hold, hnew⟩ := bodyOps_pushToLoop hA.loopsOnce hp
  obtain ⟨hc, -, -, rfl⟩ := pushToLoop_ok hp
  refine hA.of_places rfl ?_ (fun x hx => ?_) ?_
  · rw [hnew]
    exact nodup_insert_mid (hold ▸ hA.placedOnce) (hold ▸ not_mem_bodyOps_of_checkUnplaced hc)
  · rw [hnew, mem_insert_mid] at hx
    rcases hx with rfl | hx
    · exact (checkUnplaced_ok hc).1
    · exact hA.placedExist x (hold ▸ hx)
  · show k.body.filterMap Stmt.loop? = (k.modifyLoop l _).loopIds
    simpa [modifyLoop, loopIds] using hA.loopsOnce

/-- Placing the op just pushed at one spot of the body keeps the invariant. -/
theorem place_fresh (hA : k.Arena) {k₁ : Kernel} (h₁ : k₁.Arena) (hs : k.ops.size < k₁.ops.size)
    (ho : k'.ops = k₁.ops) {P Q : List OpId} (hsub : (P ++ Q).Sublist k.bodyOps)
    (hk' : k'.bodyOps = P ++ ⟨k.ops.size⟩ :: Q)
    (hl : k'.body.filterMap Stmt.loop? = k'.loopIds) : k'.Arena := by
  have hin : ∀ y ∈ P ++ Q, y.idx < k.ops.size := fun y hy => hA.placedExist y (hsub.subset hy)
  refine h₁.of_places ho ?_ (fun y hy => ?_) hl
  · rw [hk']
    exact nodup_insert_mid (hA.placedOnce.sublist hsub) fun hm => Nat.lt_irrefl _ (hin _ hm)
  · rw [hk', mem_insert_mid] at hy
    rcases hy with rfl | hy
    · exact hs
    · exact Nat.lt_trans (hin y hy) hs

theorem insertBefore (hA : k.Arena) {a x : OpId} {o : TileOp} (h : k.insertBefore a o = .ok (x, k')) :
    k'.Arena := by
  obtain ⟨P, Q, hk, hk'⟩ := bodyOps_insertBefore h hA.loops_nodup hA.placedOnce
  obtain ⟨b, -, rfl, hd, -, rfl⟩ := insertBefore_eq h
  refine hA.place_fresh (hA.pushOp (o := o.scheduledAs (k.op a).sched) (by simpa using hd))
    (by simp) ops_modifyBlock (hk ▸ List.Sublist.refl _) hk' ?_
  rw [filterMap_loop_modifyBlock fun _ => filterMap_loop_insertAt, loopIds_modifyBlock]
  exact hA.loopsOnce

theorem insertAfter (hA : k.Arena) {a x : OpId} {o : TileOp} (h : k.insertAfter a o = .ok (x, k')) :
    k'.Arena := by
  obtain ⟨P, Q, hk, hk'⟩ := bodyOps_insertAfter h hA.loops_nodup hA.placedOnce
  obtain ⟨b, -, rfl, hd, -, rfl⟩ := insertAfter_eq h
  refine hA.place_fresh (hA.pushOp (o := o.scheduledAs (k.op a).sched) (by simpa using hd))
    (by simp) ops_modifyBlock (P := P ++ [a]) (Q := Q) (by simp [hk]) (by simp [hk']) ?_
  rw [filterMap_loop_modifyBlock fun _ => filterMap_loop_insertAt, loopIds_modifyBlock]
  exact hA.loopsOnce

/-- Moving the dependents of an op `old` onto the op just pushed with the dependencies of `old`
keeps the invariant: merging the two ops maps every edge to an edge of the kernel before. -/
theorem redirect (hA : k.Arena) {old : OpId} {o : TileOp} (hold : old.idx < k.ops.size)
    (ho : o.deps = (k.op old).deps) :
    Arena (({ k with ops := k.ops.push o } : Kernel).redirectDependents old ⟨k.ops.size⟩) := by
  have h₁ := hA.pushOp (o := o) (ho ▸ hA.depsExist old)
  obtain ⟨hb, hl, -⟩ : (Kernel.redirectDependents { k with ops := k.ops.push o } old ⟨k.ops.size⟩).body =
      k.body ∧ (Kernel.redirectDependents { k with ops := k.ops.push o } old ⟨k.ops.size⟩).loops =
      k.loops ∧ _ := redirectDependents_frame
  have hs : ({ k with ops := k.ops.push o } : Kernel).ops.size ≤
      (Kernel.redirectDependents { k with ops := k.ops.push o } old ⟨k.ops.size⟩).ops.size :=
    keeps_redirectDependents.size
  let merge : OpId → OpId := fun y => if y = ⟨k.ops.size⟩ then old else y
  have merge_old : ∀ {y : OpId}, y.idx < k.ops.size → merge y = y := fun hy => if_neg (ne_fresh hy)
  have merge_new : merge ⟨k.ops.size⟩ = old := if_pos rfl
  have pushed : ∀ {y z}, Waits { k with ops := k.ops.push o } y z → k.Waits (merge y) (merge z) := by
    intro y z hyz
    rcases waits_push hyz with ⟨hy, h⟩ | ⟨rfl, h⟩
    · rw [merge_old hy, merge_old (hA.depsExist y z h)]
      exact h
    · rw [ho] at h
      rw [merge_new, merge_old (hA.depsExist old z h)]
      exact h
  refine h₁.of_graph (fun y z hyz => ?_) (fun a hc => hA.acyclic (merge a)
    (Relation.TransGen.lift merge (fun y z hyz => ?_) a a hc)) hs hb hl
  · rcases waits_redirectDependents hyz with h | ⟨rfl, -⟩
    · exact Nat.lt_of_lt_of_le (h₁.depsExist y z h) hs
    · exact Nat.lt_of_lt_of_le (by simp) hs
  · rcases waits_redirectDependents hyz with h | ⟨rfl, h⟩
    · exact pushed h
    · show k.Waits (merge y) (merge ⟨k.ops.size⟩)
      rw [merge_new]
      simpa [merge_old hold] using pushed h

theorem replaceOp (hA : k.Arena) {old x : OpId} {o : TileOp} (h : k.replaceOp old o = .ok (x, k')) :
    k'.Arena := by
  obtain ⟨P, Q, hk, hk'⟩ := bodyOps_replaceOp h hA.loops_nodup hA.placedOnce
  obtain ⟨b, -, hold, rfl, -, rfl⟩ := replaceOp_eq h
  have h₂ := hA.redirect (o := { o with deps := (k.op old).deps, sched := (k.op old).sched }) hold rfl
  refine hA.place_fresh h₂ (Nat.lt_of_lt_of_le (by simp) keeps_redirectDependents.size)
    ops_modifyBlock (hk ▸ (List.Sublist.refl P).append (List.sublist_cons_self old Q)) hk' ?_
  show (Kernel.modifyBlock _ b _ _).body.filterMap Stmt.loop? = (Kernel.modifyBlock _ b _ _).loopIds
  rw [filterMap_loop_modifyBlock fun _ => filterMap_loop_replace, loopIds_modifyBlock]
  exact h₂.loopsOnce

/-- Each new edge of a removal shortcuts a path through the removed op. -/
theorem removeOp (hA : k.Arena) {h : OpId} (hr : k.removeOp h = .ok k') : k'.Arena := by
  obtain ⟨P, Q, hk, hk'⟩ := bodyOps_removeOp hr hA.loops_nodup hA.placedOnce
  obtain ⟨b, -, -, rfl⟩ := removeOp_eq hr
  obtain ⟨hb, hl, -, hs⟩ := bypass_frame (k := k) (h := h)
  have hpath : ∀ y z, (k.bypass h).Waits y z → Relation.TransGen k.Waits y z := fun y z hyz =>
    (waits_bypass hyz).elim .single fun h' => .tail (.single h'.1) h'.2
  have h₁ : (k.bypass h).Arena := hA.of_graph
    (fun y z hyz => hs ▸ (waits_bypass hyz).elim (hA.depsExist y z) fun h' => hA.depsExist h z h'.2)
    (fun a hc => hA.acyclic a (Relation.TransGen.closed hpath a a hc)) hs.ge hb hl
  refine h₁.of_places ops_modifyBlock ?_ (fun y hy => ?_) ?_
  · rw [hk']
    exact (List.nodup_middle.1 (hk ▸ hA.placedOnce)).of_cons
  · rw [hk'] at hy
    rw [hs]
    exact hA.placedExist y (hk ▸ mem_insert_mid.2 (.inr hy))
  · show ((k.bypass h).modifyBlock b _ _).body.filterMap Stmt.loop? =
      ((k.bypass h).modifyBlock b _ _).loopIds
    rw [filterMap_loop_modifyBlock fun _ => filterMap_loop_remove, loopIds_modifyBlock]
    exact h₁.loopsOnce

/-- Every successful call keeps the invariant. -/
theorem call (hA : k.Arena) (hc : Call k k') : k'.Arena := by
  cases hc with
  | addBuffer h => exact hA.addBuffer h
  | addOp h => exact hA.addOp h
  | push h => exact hA.push h
  | pushLoop h => exact hA.pushLoop h
  | pushToLoop h => exact hA.pushToLoop h
  | addDependency h => exact hA.addDependency h
  | insertBefore h => exact hA.insertBefore h
  | insertAfter h => exact hA.insertAfter h
  | replaceOp h => exact hA.replaceOp h
  | removeOp h => exact hA.removeOp h
  | setSched h => exact hA.setSched h
  | attachLayout h => exact hA.attachLayout h
  | attachSwizzle h => exact hA.attachSwizzle h

theorem run (hA : k.Arena) (h : Relation.ReflTransGen Call k k') : k'.Arena := by
  induction h with
  | refl => exact hA
  | tail _ hc ih => exact ih.call hc

end Arena

theorem Built.arena (hk : k.Built) : k.Arena := by
  obtain ⟨name, h⟩ := hk
  exact (Arena.empty name).run h

/-- What every kernel built by calls keeps: no op waits for itself through its dependencies, so
`dependsOn` is antisymmetric and `topologicalOrder` succeeds; the live ops are listed once each
and are exactly the placed ones; and an op that a call removes or replaces is never placed again,
whatever calls follow. -/
theorem Built.arena_invariant (hk : k.Built) :
    (∀ a, ¬ Relation.TransGen k.Waits a a) ∧
    (∀ a b, k.dependsOn a b = true → k.dependsOn b a = true → a = b) ∧
    (∃ order, k.topologicalOrder = .ok order) ∧
    k.liveOps.Nodup ∧ (∀ x, x ∈ k.liveOps ↔ (k.placement x).isSome) ∧
    ∀ x k₁ k₂, (k.removeOp x = .ok k₁ ∨ ∃ o y, k.replaceOp x o = .ok (y, k₁)) →
      Relation.ReflTransGen Call k₁ k₂ → k₂.placement x = none := by
  have hA := hk.arena
  refine ⟨hA.acyclic, fun a b hab hba => ?_,
    topologicalOrder_ok fun a h => hA.acyclic a (Relation.TransGen.mono (fun _ _ h => h.2) a a h),
    nodup_liveOps hA.placedOnce, fun _ => mem_liveOps_iff_placement,
    fun x k₁ k₂ hx hrun => placement_of_removed (removed_run hrun ?_)⟩
  · -- Two ops reaching each other would close a cycle.
    by_contra hne
    rcases ((dependsOn_iff hA.depsExist).1 hab).cases_head with rfl | ⟨c, hac, hcb⟩
    · exact hne rfl
    · exact hA.acyclic a (Relation.TransGen.head' hac (hcb.trans ((dependsOn_iff hA.depsExist).1 hba)))
  · rcases hx with hr | ⟨o, y, hr⟩
    · obtain ⟨-, -, -, rfl⟩ := removeOp_eq hr
      exact List.mem_append_right _ (List.mem_singleton_self x)
    · obtain ⟨-, -, -, -, -, rfl⟩ := replaceOp_eq hr
      exact List.mem_append_right _ (List.mem_singleton_self x)

/-- A loop that loads a global tile into shared memory and stores it back, the store waiting for
the load; a barrier was placed between them and removed again. -/
def roundTrip : Kernel where
  name := "k"
  buffers := #[{ name := "g", shape := [16], dtype := .f32, scope := .global },
    { name := "s", shape := [16], dtype := .f32, scope := .shared }]
  ops := #[TileOp.copy "load" (.whole ⟨0⟩) (.whole ⟨1⟩),
    { TileOp.copy "store" (.whole ⟨1⟩) (.whole ⟨0⟩) with deps := [⟨0⟩] },
    TileOp.barrier "sync" .sync]
  loops := #[{ name := "i", extent := 2, body := [⟨0⟩, ⟨1⟩] }]
  body := [.loop ⟨0⟩]
  removed := [⟨2⟩]

theorem roundTrip_built : roundTrip.Built :=
  ⟨"k", .head (Call.addBuffer (b := { name := "g", shape := [16], dtype := .f32, scope := .global })
      (by with_unfolding_all rfl)) <|
    .head (Call.addBuffer (b := { name := "s", shape := [16], dtype := .f32, scope := .shared })
      (by with_unfolding_all rfl)) <|
    .head (Call.addOp (o := TileOp.copy "load" (.whole ⟨0⟩) (.whole ⟨1⟩)) (by with_unfolding_all rfl)) <|
    .head (Call.addOp (o := TileOp.copy "store" (.whole ⟨1⟩) (.whole ⟨0⟩)) (by with_unfolding_all rfl)) <|
    .head (Call.pushLoop (n := { name := "i", extent := 2 }) (by with_unfolding_all rfl)) <|
    .head (Call.pushToLoop (l := ⟨0⟩) (h := ⟨0⟩) (by with_unfolding_all rfl)) <|
    .head (Call.pushToLoop (l := ⟨0⟩) (h := ⟨1⟩) (by with_unfolding_all rfl)) <|
    .head (@Call.addDependency _ _ ⟨1⟩ ⟨0⟩ (by with_unfolding_all rfl)) <|
    .head (Call.insertBefore (a := ⟨1⟩) (o := TileOp.barrier "sync" .sync) (by with_unfolding_all rfl)) <|
    .single (Call.removeOp (h := ⟨2⟩) (by with_unfolding_all rfl))⟩

theorem roundTrip_invariant : roundTrip.Built ∧ (∀ a, ¬ Relation.TransGen roundTrip.Waits a a) ∧
    (∀ a b, roundTrip.dependsOn a b = true → roundTrip.dependsOn b a = true → a = b) ∧
    (∃ order, roundTrip.topologicalOrder = .ok order) ∧
    roundTrip.liveOps.Nodup ∧ (∀ x, x ∈ roundTrip.liveOps ↔ (roundTrip.placement x).isSome) ∧
    ∀ x k₁ k₂, (roundTrip.removeOp x = .ok k₁ ∨ ∃ o y, roundTrip.replaceOp x o = .ok (y, k₁)) →
      Relation.ReflTransGen Call k₁ k₂ → k₂.placement x = none :=
  ⟨roundTrip_built, Built.arena_invariant roundTrip_built⟩

end Kernel

end TileKernel
