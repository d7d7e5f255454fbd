import TileKernel.Proofs.Materialize

/-!
# Removing and replacing ops keeps the order among live ops

Passes call `Kernel.removeOp` on dead ops and `Kernel.replaceOp` on rewritten ones. Both rewire
dependencies: a removed op's dependents inherit its dependencies, and a replacement takes over
the replaced op's dependencies and dependents. What passes rely on is that neither edit changes
the order between the ops that stay live. Order here is `Kernel.LiveDepends`: a chain of
dependencies that runs through live ops only, since removed and unplaced ops keep dependency
lists of their own that no longer order anything.

* `Kernel.removeOp_keeps_live_order`: after removing `h`, two live ops other than `h` are ordered
  exactly when they were before. Each new edge shortcuts a path through `h`, and a path through
  `h` takes one of the new edges instead (`transGen_bypass`).
* `Kernel.replaceOp_live_order`: after replacing `old` by `new`, renaming `old` to `new` turns
  the live order before into the live order after. Merging `new` back into `old` maps each new
  edge to an old one, and the renaming loses only paths that loop at `old` itself
  (`transGen_map_of_loop`).
* `Kernel.edits_keep_live_order` states both for the edits' callers: the replacement has the
  replaced op's dependencies and dependents, and stands for it in the order.

Replacing needs two facts of every formed kernel (`Kernel.Formed`, which every built kernel has
and lowering keeps): dependencies name ops of the arena, and so do the removed handles. Otherwise the fresh
handle of the replacement could already be waited for, or already be listed as removed.
-/

set_option autoImplicit false

namespace TileKernel

/-! ### Paths through one node -/

section Relations

variable {α β : Type} {R : α → α → Prop}

/-- Dropping a node `u` and adding a shortcut `a → c` for each pair of edges `a → u → c` keeps
every path between the other nodes. A path that has just reached `u` continues, by a shortcut,
to every node other than `u` that `u` leads to. -/
theorem transGen_bypass {S : α → α → Prop} {u : α}
    (keep : ∀ a b, R a b → a ≠ u → b ≠ u → S a b)
    (shortcut : ∀ a c, R a u → R u c → a ≠ u → c ≠ u → S a c)
    {x y : α} (h : Relation.TransGen R x y) (hx : x ≠ u) :
    (y ≠ u → Relation.TransGen S x y) ∧
      (y = u → ∀ c, R u c → c ≠ u → Relation.TransGen S x c) := by
  induction h with
  | @single y hxy =>
    refine ⟨fun hy => .single (keep _ _ hxy hx hy), fun hy c huc hc => ?_⟩
    rw [hy] at hxy
    exact .single (shortcut _ _ hxy huc hx hc)
  | @tail b y _ hby ih =>
    by_cases hb : b = u
    · -- The path stands at `u`: the edge out of it is the second half of a shortcut.
      rw [hb] at hby
      exact ⟨fun hy => ih.2 hb y hby hy, fun _ c huc hc => ih.2 hb c huc hc⟩
    · refine ⟨fun hy => .tail (ih.1 hb) (keep _ _ hby hb hy), fun hy c huc hc => ?_⟩
      rw [hy] at hby
      exact .tail (ih.1 hb) (shortcut _ _ hby huc hb hc)

/-- A map sending every edge of `R`, but loops at `u`, to an edge of `S` sends every path of `R`
to a path of `S`, unless the path only turns around `u`. -/
theorem transGen_map_of_loop {S : β → β → Prop} {f : α → β} {u : α}
    (hR : ∀ a b, R a b → (a = u ∧ b = u) ∨ S (f a) (f b)) {x y : α}
    (h : Relation.TransGen R x y) : (x = u ∧ y = u) ∨ Relation.TransGen S (f x) (f y) := by
  induction h with
  | @single y hxy => exact (hR _ _ hxy).imp id .single
  | @tail b c _ hbc ih =>
    rcases hR _ _ hbc with ⟨hb, hc⟩ | hs
    · rw [hc]
      rw [hb] at ih
      exact ih
    · rcases ih with ⟨hx, hb⟩ | ih
      · rw [hx]
        rw [hb] at hs
        exact .inr (.single hs)
      · exact .inr (.tail ih hs)

end Relations

/-- Renames `a` to `b`, leaving every other handle alone. -/
def OpId.rename (a b z : OpId) : OpId := if z = a then b else z

@[simp] theorem OpId.rename_self (a b : OpId) : a.rename b a = b := if_pos rfl

theorem OpId.rename_of_ne {a b z : OpId} (h : z ≠ a) : a.rename b z = z := if_neg h

/-- Renaming `a` to `b` and back fixes every handle but `b`. -/
theorem OpId.rename_rename {a b z : OpId} (h : z ≠ b) : b.rename a (a.rename b z) = z := by
  by_cases hz : z = a
  · rw [hz, OpId.rename_self, OpId.rename_self]
  · rw [OpId.rename_of_ne hz, OpId.rename_of_ne h]

namespace Kernel

variable {k k' : Kernel}

/-- `x` depends on `y` through a chain of dependencies whose every op, `x` and `y` included, is
live. -/
def LiveDepends (k : Kernel) : OpId → OpId → Prop :=
  Relation.TransGen fun a b => a ∈ k.liveOps ∧ k.WaitsLive a b

/-! ### Block edits that only drop ops -/

/-- A loop edit that adds no op to any loop adds no op to the loop's ops in the kernel. -/
theorem mem_placedOps_of_modifyLoop {l l' : LoopId} {F : LoopNest → LoopNest} {x : OpId}
    (hF : ∀ n, x ∈ (F n).placedOps → x ∈ n.placedOps)
    (hx : x ∈ ((k.modifyLoop l F).loop l').placedOps) : x ∈ (k.loop l').placedOps := by
  unfold loop at hx ⊢
  rw [loop?_modifyLoop] at hx
  split_ifs at hx
  · rcases hn : k.loop? l' with _ | n <;> simp only [hn, Option.map_none, Option.map_some,
      Option.getD_none, Option.getD_some] at hx
    · simp [LoopNest.placedOps] at hx
    · exact hF n hx
  · exact hx

/-- Editing a block with functions that add `x` nowhere, and add no statement placing it, does
not place `x`. -/
theorem mem_bodyOps_of_modifyBlock {b : Block} {f : List OpId → List OpId}
    {g : List Stmt → List Stmt} {x : OpId} (hx : x ∈ (k.modifyBlock b f g).bodyOps)
    (hf : ∀ xs, x ∈ f xs → x ∈ xs) (hg : ∀ ss s, s ∈ g ss → x ∈ k.stmtOps s → s ∈ ss) :
    x ∈ k.bodyOps := by
  cases b with
  | body =>
    obtain ⟨s, hs, hxs⟩ := List.mem_flatMap.1 hx
    exact List.mem_flatMap.2 ⟨s, hg _ s hs hxs, hxs⟩
  | loop l | prologue l | steady l | epilogue l =>
    obtain ⟨s, hs, hxs⟩ := List.mem_flatMap.1 hx
    refine List.mem_flatMap.2 ⟨s, hs, ?_⟩
    cases s with
    | op y => exact hxs
    | loop l' =>
      refine mem_placedOps_of_modifyLoop (fun n hn => ?_) hxs
      rcases n with ⟨_, _, _, _, _ | p⟩ <;>
        simp only [LoopNest.placedOps, Option.map_some, Option.map_none, List.mem_append] at hn ⊢
      all_goals first
        | exact hf _ hn
        | exact hn
        | rcases hn with (h | h) | h <;> first | simp [hf _ h] | simp [h]

/-! ### Removing an op -/

/-- Bypassing `h` rewrites exactly the dependents of `h`: each waits for the dependencies of `h`
in place of `h`. -/
theorem op_bypass {h y : OpId} :
    (k.bypass h).op y = if y ∈ k.dependents h then
      { k.op y with
        deps := (k.op h).deps.foldl (fun ds x => x.insertSorted ds) ((k.op y).deps.erase h) }
      else k.op y := by
  -- A handle past the arena is no dependent, so a fold that skips it is the fold of `bypass`.
  have skip : k.bypass h = (k.dependents h).foldl (fun kc d =>
      if d == (⟨k.ops.size⟩ : OpId) then kc
      else kc.modifyOp d fun o =>
        { o with deps := (k.op h).deps.foldl (fun ds x => x.insertSorted ds) (o.deps.erase h) })
      k := by
    unfold bypass
    refine List.foldl_ext _ _ _ fun kc d hd => ?_
    rw [if_neg (by simpa using ne_fresh (mem_dependents.1 hd).1)]
  rw [skip, op_foldl_modifyOp (nodup_dependents h) fun _ hd => (mem_dependents.1 hd).1]
  by_cases hy : y ∈ k.dependents h
  · rw [if_pos ⟨hy, ne_fresh (mem_dependents.1 hy).1⟩, if_pos hy]
  · rw [if_neg fun h' => hy h'.1, if_neg hy]

/-- Bypassing `h` keeps every edge that does not end at `h`. -/
theorem waits_bypass_of_ne {h y z : OpId} (hw : k.Waits y z) (hz : z ≠ h) :
    (k.bypass h).Waits y z := by
  unfold Waits at hw ⊢
  rw [op_bypass]
  split_ifs
  · exact mem_foldl_insertSorted.2 (.inr ((List.mem_erase_of_ne hz).2 hw))
  · exact hw

/-- Bypassing `h` makes each dependent of `h` wait for every dependency of `h`. -/
theorem waits_bypass_of_dependent {h y z : OpId} (hy : y ∈ k.dependents h) (hz : k.Waits h z) :
    (k.bypass h).Waits y z := by
  unfold Waits
  rw [op_bypass, if_pos hy]
  exact mem_foldl_insertSorted.2 (.inl hz)

theorem waits_removeOp {h y z : OpId} (hr : k.removeOp h = .ok k') :
    k'.Waits y z ↔ (k.bypass h).Waits y z := by
  obtain ⟨b, -, -, rfl⟩ := removeOp_eq hr
  change ((k.bypass h).modifyBlock b _ _).Waits y z ↔ _
  rw [waits_modifyBlock]

/-- Removing `h` leaves the other live ops live, and no other. -/
theorem mem_liveOps_removeOp {h x : OpId} (hr : k.removeOp h = .ok k') :
    x ∈ k'.liveOps ↔ x ∈ k.liveOps ∧ x ≠ h := by
  obtain ⟨b, hp, -, rfl⟩ := removeOp_eq hr
  obtain ⟨hbody, hloops, hrem, -⟩ := bypass_frame (k := k) (h := h)
  have same := bodyOps_congr hbody hloops
  simp only [mem_liveOps, hrem, List.mem_append, List.mem_singleton, not_or]
  constructor
  · rintro ⟨hx, hxr, hxh⟩
    refine ⟨⟨same ▸ mem_bodyOps_of_modifyBlock hx (fun _ h' => (List.mem_filter.1 h').1)
      fun _ _ h' _ => (List.mem_filter.1 h').1, hxr⟩, hxh⟩
  · rintro ⟨⟨hx, hxr⟩, hxh⟩
    -- The statement dropped is the one placing `h`, which does not place `x`.
    have kept : ∀ (ss : List Stmt) s, s ∈ ss → x ∈ (k.bypass h).stmtOps s →
        s ∈ ss.filter (· != .op h) := by
      intro ss s hs hxs
      refine List.mem_filter.2 ⟨hs, bne_iff_ne.2 ?_⟩
      rintro rfl
      exact hxh (List.mem_singleton.1 hxs)
    exact ⟨mem_bodyOps_modifyBlock (same ▸ hx)
      (fun _ h' => List.mem_filter.2 ⟨h', bne_iff_ne.2 hxh⟩) kept, hxr, hxh⟩

/-- The op `removeOp` removes was live. -/
theorem mem_liveOps_of_removeOp {h : OpId} (hr : k.removeOp h = .ok k') : h ∈ k.liveOps := by
  obtain ⟨b, hp, -, -⟩ := removeOp_eq hr
  exact mem_liveOps_iff_placement.2 (by simp [hp])

/-- Removing an op keeps the order among the other live ops: each new edge shortcuts a path
through the removed op, and each path through it takes a new edge instead. -/
theorem removeOp_keeps_live_order {h x y : OpId} (hr : k.removeOp h = .ok k') (hx : x ≠ h)
    (hy : y ≠ h) : k'.LiveDepends x y ↔ k.LiveDepends x y := by
  have hh := mem_liveOps_of_removeOp hr
  have live : ∀ {z}, z ∈ k'.liveOps ↔ z ∈ k.liveOps ∧ z ≠ h := mem_liveOps_removeOp hr
  constructor
  · refine Relation.TransGen.closed (fun a b hab => ?_) x y
    obtain ⟨ha, hb, hw⟩ := hab
    obtain ⟨ha, -⟩ := live.1 ha
    obtain ⟨hb, -⟩ := live.1 hb
    rcases waits_bypass ((waits_removeOp hr).1 hw) with hw | ⟨hah, hhb⟩
    · exact .single ⟨ha, hb, hw⟩
    · exact .tail (.single ⟨ha, hh, hah⟩) ⟨hh, hb, hhb⟩
  · intro hxy
    refine (transGen_bypass (u := h) (fun a b hab hah hbh => ?_)
      (fun a c hah hhc hah' hch => ?_) hxy hx).1 hy
    · obtain ⟨ha, hb, hw⟩ := hab
      exact ⟨live.2 ⟨ha, hah⟩, live.2 ⟨hb, hbh⟩, (waits_removeOp hr).2 (waits_bypass_of_ne hw hbh)⟩
    · obtain ⟨ha, -, hw⟩ := hah
      obtain ⟨-, hc, hw'⟩ := hhc
      have dependent : a ∈ k.dependents h :=
        mem_dependents.2 ⟨lt_of_waits hw, (mem_liveOps.1 ha).2, hw⟩
      exact ⟨live.2 ⟨ha, hah'⟩, live.2 ⟨hc, hch⟩,
        (waits_removeOp hr).2 (waits_bypass_of_dependent dependent hw')⟩

/-- Every live op of the arena can be removed. -/
theorem removeOp_ok_of_live {h : OpId} (hh : h ∈ k.liveOps) (hlt : h.idx < k.ops.size) :
    ∃ k', k.removeOp h = .ok k' := by
  obtain ⟨b, hb⟩ := Option.isSome_iff_exists.1 (mem_liveOps_iff_placement.1 hh)
  have hc : k.checkOp h = .ok (k.op h) := by simp [checkOp, Kernel.op, op?, hlt]
  exact ⟨_, by unfold removeOp placed; simp only [hc, hb]; rfl⟩

/-! ### Replacing an op -/

theorem mem_dependents_push {o : TileOp} {src x : OpId} (hx : x ≠ ⟨k.ops.size⟩) :
    x ∈ ({ k with ops := k.ops.push o } : Kernel).dependents src ↔ x ∈ k.dependents src := by
  rw [mem_dependents, mem_dependents, op_push_of_ne hx]
  obtain ⟨i⟩ := x
  have hi : i ≠ k.ops.size := fun h => hx (h ▸ rfl)
  simp only [Array.size_push]
  constructor
  · rintro ⟨hlt, rest⟩
    exact ⟨by omega, rest⟩
  · rintro ⟨hlt, rest⟩
    exact ⟨by omega, rest⟩

section Replace

variable {old new : OpId} {o : TileOp}

/-- The ops after `replaceOp old o`: the replacement has the dependencies and schedule of `old`,
and each dependent of `old` waits for the replacement in place of `old`. -/
theorem op_replaceOp (hrep : k.replaceOp old o = .ok (new, k')) (y : OpId) :
    k'.op y = if y = new then { o with deps := (k.op old).deps, sched := (k.op old).sched }
      else if y ∈ k.dependents old then
        { k.op y with deps := new.insertSorted ((k.op y).deps.erase old) }
      else k.op y := by
  obtain ⟨b, -, -, rfl, -, rfl⟩ := replaceOp_eq hrep
  change (Kernel.modifyBlock _ b _ _).op y = _
  rw [op_modifyBlock, op_redirectDependents]
  by_cases hy : y = ⟨k.ops.size⟩
  · subst hy
    rw [if_neg fun h' => h'.2 rfl, if_pos rfl, op_push_self]
  · rw [if_neg hy, op_push_of_ne hy]
    by_cases hdep : y ∈ k.dependents old
    · rw [if_pos ⟨(mem_dependents_push hy).2 hdep, hy⟩, if_pos hdep]
    · rw [if_neg fun h' => hdep ((mem_dependents_push hy).1 h'.1), if_neg hdep]

/-- The replacement waits for exactly what the replaced op waited for. -/
theorem deps_replaceOp (hrep : k.replaceOp old o = .ok (new, k')) :
    (k'.op new).deps = (k.op old).deps := by
  rw [op_replaceOp hrep, if_pos rfl]

theorem waits_replaceOp_new (hrep : k.replaceOp old o = .ok (new, k')) {b : OpId} :
    k'.Waits new b ↔ k.Waits old b := by
  unfold Waits
  rw [deps_replaceOp hrep]

theorem ne_of_replaceOp (hrep : k.replaceOp old o = .ok (new, k')) {a : OpId}
    (ha : a.idx < k.ops.size) : a ≠ new := by
  obtain ⟨-, -, -, rfl, -⟩ := replaceOp_eq hrep
  exact ne_fresh ha

/-- Replacing `old` keeps every edge that does not end at `old`. -/
theorem waits_replaceOp_of_ne (hrep : k.replaceOp old o = .ok (new, k')) {a b : OpId}
    (hw : k.Waits a b) (hb : b ≠ old) : k'.Waits a b := by
  unfold Waits at hw ⊢
  rw [op_replaceOp hrep, if_neg (ne_of_replaceOp hrep (lt_of_waits hw))]
  split_ifs
  · exact mem_insertSorted.2 (.inr ((List.mem_erase_of_ne hb).2 hw))
  · exact hw

/-- Each dependent of `old` waits for the replacement. -/
theorem waits_replaceOp_of_dependent (hrep : k.replaceOp old o = .ok (new, k')) {a : OpId}
    (ha : a ∈ k.dependents old) : k'.Waits a new := by
  unfold Waits
  rw [op_replaceOp hrep, if_neg (ne_of_replaceOp hrep (mem_dependents.1 ha).1), if_pos ha]
  exact mem_insertSorted.2 (.inl rfl)

/-- Merging the replacement into `old` sends each edge after the replacement to an edge before
it: the replacement's edges are those of `old`, and the other new edges are edges into `old`
moved onto the replacement. -/
theorem waits_replaceOp_merge (hd : k.DepsExist) (hrep : k.replaceOp old o = .ok (new, k'))
    {a b : OpId} (hw : k'.Waits a b) : k.Waits (new.rename old a) (new.rename old b) := by
  -- What an op of `k` waits for is in the arena, so it is not the replacement.
  have kept : ∀ a' c, k.Waits a' c → new.rename old c = c := fun _ _ hc =>
    OpId.rename_of_ne (ne_of_replaceOp hrep (hd _ _ hc))
  unfold Waits at hw
  rw [op_replaceOp hrep] at hw
  split_ifs at hw with ha hdep
  · rw [ha, OpId.rename_self, kept old b hw]
    exact hw
  · rw [OpId.rename_of_ne ha]
    rcases mem_insertSorted.1 hw with rfl | hb
    · rw [OpId.rename_self]
      exact waits_of_mem_dependents hdep
    · have hb' : k.Waits a b := List.mem_of_mem_erase hb
      rw [kept a b hb']
      exact hb'
  · rw [OpId.rename_of_ne ha, kept a b hw]
    exact hw

/-- A replacement makes no op live but itself. -/
theorem mem_liveOps_of_replaceOp (hrep : k.replaceOp old o = .ok (new, k')) {x : OpId}
    (hx : x ∈ k'.liveOps) (hxn : x ≠ new) : x ∈ k.liveOps ∧ x ≠ old := by
  obtain ⟨b, -, -, rfl, -, rfl⟩ := replaceOp_eq hrep
  obtain ⟨hxb, hxr⟩ := mem_liveOps.1 hx
  simp only [List.mem_append, List.mem_singleton, not_or] at hxr
  change x ∈ (Kernel.modifyBlock _ b _ _).bodyOps at hxb
  have placed := mem_bodyOps_of_modifyBlock hxb (fun _ hm => (mem_map_replace hm).resolve_left hxn)
    fun ss s hs hxs => by
      obtain ⟨s₀, hs₀, rfl⟩ := List.mem_map.1 hs
      by_cases h₀ : s₀ = .op old
      · simp [h₀, stmtOps] at hxs
        exact absurd hxs hxn
      · simpa [h₀] using hs₀
  obtain ⟨hbody, hloops, -⟩ := @redirectDependents_frame
    { k with ops := (k.ops.push { o with deps := (k.op old).deps, sched := (k.op old).sched }) } old
    ⟨k.ops.size⟩
  exact ⟨mem_liveOps.2 ⟨bodyOps_congr hbody hloops ▸ placed, hxr.1⟩, hxr.2⟩

/-- Merging the replacement into the replaced op maps the live order after a replacement into
the live order before it. -/
theorem replaceOp_merges_live_order (hd : k.DepsExist) (hrep : k.replaceOp old o = .ok (new, k'))
    {x y : OpId} (hxy : k'.LiveDepends x y) :
    k.LiveDepends (new.rename old x) (new.rename old y) := by
  have hold : old ∈ k.liveOps := by
    obtain ⟨b, hb, -⟩ := replaceOp_eq hrep
    exact mem_liveOps_iff_placement.2 (by simp [hb])
  have live : ∀ {z}, z ∈ k'.liveOps → new.rename old z ∈ k.liveOps := by
    intro z hz
    by_cases hzn : z = new
    · rw [hzn, OpId.rename_self]
      exact hold
    · rw [OpId.rename_of_ne hzn]
      exact (mem_liveOps_of_replaceOp hrep hz hzn).1
  simpa only [Function.onFun, LiveDepends] using hxy.lift (new.rename old) fun a b hab =>
    ⟨live hab.1, live hab.2.1, waits_replaceOp_merge hd hrep hab.2.2⟩

/-- Renaming the replaced op to its replacement maps the live order before a replacement into the
live order after it, but for the paths that only turn around the replaced op. -/
theorem replaceOp_splits_live_order (hfresh : k.RemovedExist)
    (hrep : k.replaceOp old o = .ok (new, k')) {x y : OpId} (hxy : k.LiveDepends x y)
    (hne : x ≠ old ∨ y ≠ old) : k'.LiveDepends (old.rename new x) (old.rename new y) := by
  have live : ∀ {z}, z ∈ k.liveOps → old.rename new z ∈ k'.liveOps := by
    intro z hz
    by_cases hzo : z = old
    · rw [hzo, OpId.rename_self]
      exact (replaceOp_keeps hrep).2.2 hfresh
    · rw [OpId.rename_of_ne hzo]
      exact (replaceOp_keeps hrep).1.live z hz (by simpa using hzo)
  -- Each live edge but a loop at `old` has an image: edges into `old` now end at the
  -- replacement, and edges out of `old` leave from it.
  refine (transGen_map_of_loop (u := old) (fun a b hab => ?_) hxy).resolve_left
    fun ⟨hx, hy⟩ => hne.elim (· hx) (· hy)
  obtain ⟨ha, hb, hw⟩ := hab
  by_cases hao : a = old
  · by_cases hbo : b = old
    · exact .inl ⟨hao, hbo⟩
    · refine .inr ⟨live ha, live hb, ?_⟩
      rw [hao, OpId.rename_self, OpId.rename_of_ne hbo]
      exact (waits_replaceOp_new hrep).2 (hao ▸ hw)
  · refine .inr ⟨live ha, live hb, ?_⟩
    rw [OpId.rename_of_ne hao]
    by_cases hbo : b = old
    · rw [hbo, OpId.rename_self]
      exact waits_replaceOp_of_dependent hrep
        (mem_dependents.2 ⟨lt_of_waits hw, (mem_liveOps.1 ha).2, hbo ▸ hw⟩)
    · rw [OpId.rename_of_ne hbo]
      exact waits_replaceOp_of_ne hrep hw hbo

theorem mem_opIds {x : OpId} : x ∈ k.opIds ↔ x.idx < k.ops.size := by
  obtain ⟨i⟩ := x
  simp [opIds]

/-- The replacement stands for the replaced op in the live order: renaming the replaced op to
the replacement turns the order before into the order after, but for the loops at the replaced
op. -/
theorem replaceOp_live_order (hd : k.DepsExist) (hfresh : k.RemovedExist)
    (hrep : k.replaceOp old o = .ok (new, k')) {x y : OpId} (hx : x ≠ new) (hy : y ≠ new)
    (hne : x ≠ old ∨ y ≠ old) :
    k'.LiveDepends (old.rename new x) (old.rename new y) ↔ k.LiveDepends x y := by
  refine ⟨fun hxy => ?_, fun hxy => replaceOp_splits_live_order hfresh hrep hxy hne⟩
  simpa only [OpId.rename_rename hx, OpId.rename_rename hy] using
    replaceOp_merges_live_order hd hrep hxy

/-- The dependents of the replacement are those of the replaced op, but the replaced op itself. -/
theorem dependents_replaceOp (hd : k.DepsExist) (hrep : k.replaceOp old o = .ok (new, k')) :
    k'.dependents new = (k.dependents old).filter (· != old) := by
  obtain ⟨b, -, -, hnew, -, hk'⟩ := replaceOp_eq hrep
  have hsize : k'.ops.size = k.ops.size + 1 := by
    rw [hk']
    exact (congrArg Array.size ops_modifyBlock).trans
      ((redirectDependents_alike _ _).2.1.trans (Array.size_push ..))
  have hrem : k'.removed = k.removed ++ [old] := by rw [hk']
  -- No op of `k` waits for the fresh handle, the replacement included, which waits as `old` did.
  have fresh : ∀ y, new ∉ (k.op y).deps := fun y hy => ne_of_replaceOp hrep (hd y new hy) rfl
  have ids : k'.opIds = k.opIds ++ [new] := by
    simp only [opIds, hsize, List.range_succ, List.map_append, List.map_cons, List.map_nil, hnew]
  unfold dependents
  rw [ids, List.filter_append, List.filter_filter]
  have last : [new].filter (fun y => !k'.isRemoved y && (k'.op y).deps.contains new) = [] := by
    simp [deps_replaceOp hrep, fresh old]
  rw [last, List.append_nil]
  refine List.filter_congr fun y hy => ?_
  have hyn : y ≠ new := ne_of_replaceOp hrep (mem_opIds.1 hy)
  rw [Bool.eq_iff_iff, op_replaceOp hrep, if_neg hyn]
  by_cases hdep : y ∈ k.dependents old
  · obtain ⟨-, hyr, hw⟩ := mem_dependents.1 hdep
    simp [isRemoved, hrem, hdep, hyr, hw, mem_insertSorted]
  · simp only [isRemoved, hrem, hdep, if_false]
    simpa [fresh y] using fun _ hyr hw => hdep (mem_dependents.2 ⟨mem_opIds.1 hy, hyr, hw⟩)

end Replace

/-! ### The order passes rely on -/

/-- Removing or replacing a live op keeps the order among the other live ops. Every live op of the
arena can be removed, and after `removeOp h` two ops other than `h` depend on each other through
live ops exactly when they did before. After `replaceOp h o` returns `h'`, in a kernel whose
dependencies and removed handles name ops of the arena, `h'` waits for what `h` waited for and is
waited for by what waited for `h`; two ops other than `h` and `h'` are ordered as before, and `h'`
stands for `h` in the order. -/
theorem edits_keep_live_order (k : Kernel) (h : OpId) :
    ((h ∈ k.liveOps → h.idx < k.ops.size → ∃ k', k.removeOp h = .ok k') ∧
      ∀ k', k.removeOp h = .ok k' → ∀ x y, x ≠ h → y ≠ h →
        (k'.LiveDepends x y ↔ k.LiveDepends x y)) ∧
    (k.DepsExist → k.RemovedExist → ∀ o h' k', k.replaceOp h o = .ok (h', k') →
      (k'.op h').deps = (k.op h).deps ∧ k'.dependents h' = (k.dependents h).filter (· != h) ∧
      ∀ x y, x ≠ h → y ≠ h → x ≠ h' → y ≠ h' →
        (k'.LiveDepends x y ↔ k.LiveDepends x y) ∧ (k'.LiveDepends x h' ↔ k.LiveDepends x h) ∧
          (k'.LiveDepends h' y ↔ k.LiveDepends h y)) := by
  refine ⟨⟨removeOp_ok_of_live, fun k' hr x y hx hy => removeOp_keeps_live_order hr hx hy⟩,
    fun hd hfresh o h' k' hrep => ⟨deps_replaceOp hrep, dependents_replaceOp hd hrep,
      fun x y hx hy hx' hy' => ?_⟩⟩
  obtain ⟨-, -, hlt, -⟩ := replaceOp_eq hrep
  have hold : h ≠ h' := ne_of_replaceOp hrep hlt
  -- Renaming `h` to `h'` fixes every other op.
  refine ⟨?_, ?_, ?_⟩
  · simpa only [OpId.rename_of_ne hx, OpId.rename_of_ne hy] using
      replaceOp_live_order hd hfresh hrep hx' hy' (.inl hx)
  · simpa only [OpId.rename_of_ne hx, OpId.rename_self] using
      replaceOp_live_order hd hfresh hrep hx' hold (.inl hx)
  · simpa only [OpId.rename_of_ne hy, OpId.rename_self] using
      replaceOp_live_order hd hfresh hrep hold hy' (.inr hy)

/-- A shared tile filled with zeros and stored to global memory, a barrier between the fill and
the store. -/
def fencedFill : Kernel where
  name := "k"
  buffers := #[{ name := "g", shape := [16, 16], dtype := .f32, scope := .global },
    { name := "s", shape := [16, 16], dtype := .f32, scope := .shared }]
  ops := #[TileOp.fill "zero" (.float (Binary64.zero false)) (.whole ⟨1⟩),
    { TileOp.barrier "sync" .sync with deps := [⟨0⟩] },
    { TileOp.copy "store" (.whole ⟨1⟩) (.whole ⟨0⟩) with deps := [⟨1⟩] }]
  body := [.op ⟨0⟩, .op ⟨1⟩, .op ⟨2⟩]

/-- Removing the barrier keeps the store after the fill; replacing it puts the new barrier
between them. -/
theorem fencedFill_barrier_edits_keep_order :
    fencedFill.DepsExist ∧ fencedFill.RemovedExist ∧
      ∃ k₁ k₂, fencedFill.removeOp ⟨1⟩ = .ok k₁ ∧
        fencedFill.replaceOp ⟨1⟩ (TileOp.barrier "sync2" .sync) = .ok (⟨3⟩, k₂) ∧
        k₁.LiveDepends ⟨2⟩ ⟨0⟩ ∧ k₂.LiveDepends ⟨2⟩ ⟨3⟩ ∧ k₂.LiveDepends ⟨3⟩ ⟨0⟩ := by
  have hd : fencedFill.DepsExist := by
    intro x d hd
    have all : ∀ i < 3, ∀ d ∈ (fencedFill.op ⟨i⟩).deps, d.idx < 3 := by decide
    exact all x.idx (lt_of_waits hd) d hd
  have hfresh : fencedFill.RemovedExist := by simp [RemovedExist, fencedFill]
  have before : ∀ a b, a ∈ fencedFill.liveOps → b ∈ fencedFill.liveOps →
      b ∈ (fencedFill.op a).deps → fencedFill.LiveDepends a b := fun _ _ ha hb hw =>
    .single ⟨ha, hb, hw⟩
  have path₁ : fencedFill.LiveDepends ⟨2⟩ ⟨1⟩ := before _ _ (by decide) (by decide) (by decide)
  have path₀ : fencedFill.LiveDepends ⟨1⟩ ⟨0⟩ := before _ _ (by decide) (by decide) (by decide)
  obtain ⟨⟨-, removed⟩, replaced⟩ := edits_keep_live_order fencedFill ⟨1⟩
  obtain ⟨k₁, h₁⟩ : ∃ k₁, fencedFill.removeOp ⟨1⟩ = .ok k₁ := ⟨_, by with_unfolding_all rfl⟩
  obtain ⟨k₂, h₂⟩ : ∃ k₂, fencedFill.replaceOp ⟨1⟩ (TileOp.barrier "sync2" .sync) = .ok (⟨3⟩, k₂) :=
    ⟨_, by with_unfolding_all rfl⟩
  obtain ⟨-, -, order⟩ := replaced hd hfresh _ _ _ h₂
  exact ⟨hd, hfresh, k₁, k₂, h₁, h₂,
    (removed k₁ h₁ ⟨2⟩ ⟨0⟩ (by decide) (by decide)).2 (path₁.trans path₀),
    ((order ⟨2⟩ ⟨0⟩ (by decide) (by decide) (by decide) (by decide)).2.1).2 path₁,
    ((order ⟨2⟩ ⟨0⟩ (by decide) (by decide) (by decide) (by decide)).2.2).2 path₀⟩

end Kernel

end TileKernel
