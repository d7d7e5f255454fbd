import TileKernel.Proofs.Validity.Lowering

/-!
# A materializing copy

`materialize` separates an op from a buffer it reads or writes whole. It declares a fresh buffer
`f` like the buffer `b` under another name, then:

* for a reader `h`, places a relayout copy `b → f` right before `h`, waiting for what `h` waits
  for, and replaces `h` by the op reading `f`, which waits for the copy;
* for a writer `h`, replaces `h` by the op writing `f`, places a relayout copy `f → b` right after
  it, which waits for it and takes over its dependents.

`materialize_reroutes` states what a materialization leaves: the fresh buffer, the copy and the
rewritten op in the place of the old one, and every other live op as it was, its dependency on
the old op moved to the op that now stands for it.
-/

set_option autoImplicit false

namespace TileKernel

/-! ### Fresh names -/

/-- Numbering names after a common prefix gives distinct names. -/
theorem append_repr_injective (pre : String) : Function.Injective fun n : Nat => pre ++ toString n := by
  intro m n same
  have digits : Nat.toDigits 10 m = Nat.toDigits 10 n := by
    have chars := congrArg String.toList same
    simp only [String.toList_append] at chars
    rw [← Nat.toList_repr, ← Nat.toList_repr]
    exact List.append_cancel_left chars
  rw [← Nat.ofDigitChars_ten_toDigits (n := m), ← Nat.ofDigitChars_ten_toDigits (n := n), digits]

/-- The names `freshCopyName` tries for one base are distinct. -/
theorem copyName_injective (base : String) : Function.Injective fun n : Nat => s!"{base}_r{n}" :=
  append_repr_injective _

namespace Kernel

variable {k : Kernel}

theorem findBuffer?_eq_none {name : String} :
    k.findBuffer? name = none ↔ ∀ x ∈ k.buffers, x.name ≠ name := by
  simp [findBuffer?, Array.findIdx?_eq_none_iff]

end Kernel

/-- No buffer has the name `freshCopyName` picks: of the `n + 1` names it tries, the `n` buffers
take at most `n`. -/
theorem freshCopyName_fresh (k : Kernel) (base : String) :
    ∀ x ∈ k.buffers, x.name ≠ freshCopyName k base := by
  let tries := (List.range (k.buffers.size + 1)).map fun n => s!"{base}_r{n}"
  obtain ⟨name, found⟩ : ∃ name, tries.find? (fun n => (k.findBuffer? n).isNone) = some name := by
    refine Option.isSome_iff_exists.1 (List.find?_isSome.2 ?_)
    by_contra taken
    -- Every name tried is a buffer's: the tries, all distinct, fit among the buffers' names.
    have sub : tries ⊆ k.buffers.toList.map (·.name) := fun n hn => by
      have held : ¬ (k.findBuffer? n).isNone := fun free => taken ⟨n, hn, free⟩
      simp only [Option.isNone_iff_eq_none, Kernel.findBuffer?_eq_none, not_forall,
        not_not] at held
      obtain ⟨x, hx, rfl⟩ := held
      exact List.mem_map.2 ⟨x, Array.mem_toList_iff.2 hx, rfl⟩
    have fits := ((List.nodup_range.map (copyName_injective base)).subperm sub).length_le
    simp only [List.length_map, List.length_range, Array.length_toList] at fits
    omega
  have fresh := List.find?_some found
  unfold freshCopyName
  dsimp only
  rw [found]
  simpa [Kernel.findBuffer?_eq_none] using fresh

/-! ### Places after an edit of a block -/

/-- The first value found is the one value found. -/
theorem findSome?_eq_of_only {α β : Type} {f : α → Option β} {v : β} {a : α} :
    ∀ {l : List α}, a ∈ l → f a = some v → (∀ s ∈ l, f s = none ∨ f s = some v) →
      l.findSome? f = some v
  | [], ha, _, _ => by cases ha
  | s :: l, ha, hfa, hall => by
    rw [List.findSome?_cons]
    rcases hall s List.mem_cons_self with hs | hs
    · rw [hs]
      rcases List.mem_cons.1 ha with rfl | ha
      · rw [hfa] at hs
        cases hs
      · exact findSome?_eq_of_only ha hfa fun s' hs' => hall s' (List.mem_cons_of_mem _ hs')
    · rw [hs]

theorem findSome?_insertAt {α β : Type} {f : α → Option β} {xs : List α} {i : Nat} {a : α}
    (ha : f a = none) : (Kernel.insertAt xs i a).findSome? f = xs.findSome? f := by
  conv_rhs => rw [← List.take_append_drop i xs]
  simp only [Kernel.insertAt, List.findSome?_append, List.findSome?_cons, ha]

/-- The block of loop `l` holding `y`, read off the loop's nest. -/
def LoopNest.blockOf (n : LoopNest) (l : LoopId) (y : OpId) : Option Block :=
  match n.expansion with
  | some p =>
    if p.prologue.contains y then some (.prologue l)
    else if p.steady.contains y then some (.steady l)
    else if p.epilogue.contains y then some (.epilogue l)
    else none
  | none => if n.body.contains y then some (.loop l) else none

namespace LoopNest

variable {n : LoopNest} {l : LoopId}

/-- An edit of a list of the nest that keeps `y` in it, or out of it, keeps the block of `y`. -/
theorem blockOf_edit_of_keeps {b : Block} {f : List OpId → List OpId} {y : OpId}
    (hf : ∀ xs, y ∈ f xs ↔ y ∈ xs) : (b.edit f n).blockOf l y = n.blockOf l y := by
  cases b <;> rcases n with ⟨_, _, _, _, _ | p⟩ <;> simp [Block.edit, blockOf, hf]

/-- An op new to the nest, put by the edit of the block of `a` wherever `a` is, lands in that
block. -/
theorem blockOf_edit_fresh {a x : OpId} {b : Block} {f : List OpId → List OpId}
    (ha : n.blockOf l a = some b) (hx : x ∉ n.placedOps) (hf : ∀ xs, a ∈ xs → x ∈ f xs) :
    (b.edit f n).blockOf l x = some b := by
  rcases n with ⟨_, _, _, body, _ | p⟩ <;> simp only [blockOf, placedOps] at ha hx
  · split_ifs at ha with h₁
    cases ha
    simp [Block.edit, blockOf, hf _ (by simpa using h₁)]
  · simp only [List.mem_append, not_or] at hx
    split_ifs at ha with h₁ h₂ h₃ <;> cases ha <;> simp_all [Block.edit, blockOf]

end LoopNest

namespace Kernel

variable {k k' : Kernel}

theorem blockIn_loop {y : OpId} {l : LoopId} : k.blockIn y (.loop l) = (k.loop l).blockOf l y := rfl

theorem loop_modifyLoop {l l' : LoopId} {F : LoopNest → LoopNest} :
    (k.modifyLoop l F).loop l' =
      if l = l' ∧ (k.loop? l').isSome then F (k.loop l') else k.loop l' := by
  unfold loop
  rw [loop?_modifyLoop]
  rcases k.loop? l' with _ | n <;> split_ifs <;> simp_all

/-- An edit of a loop's nest that keeps the block of `y` in it keeps the place of `y`. -/
theorem placement_modifyLoop_of_keeps {l : LoopId} {F : LoopNest → LoopNest} {y : OpId}
    (hF : ∀ n, (F n).blockOf l y = n.blockOf l y) :
    (k.modifyLoop l F).placement y = k.placement y := by
  have same : (k.modifyLoop l F).blockIn y = k.blockIn y := by
    funext s
    cases s with
    | op o => rfl
    | loop l' =>
      rw [blockIn_loop, blockIn_loop, loop_modifyLoop]
      split_ifs with h
      · obtain ⟨rfl, -⟩ := h
        exact hF _
      · rfl
  unfold placement
  rw [same]
  rfl

/-- An edit of one block that keeps `y` in each list it edits, and finds `y` where it was among
the top-level statements, keeps the place of `y`. -/
theorem placement_modifyBlock_of_keeps {b : Block} {f : List OpId → List OpId}
    {g : List Stmt → List Stmt} {y : OpId} (hf : ∀ xs, y ∈ f xs ↔ y ∈ xs)
    (hg : (g k.body).findSome? (k.blockIn y) = k.body.findSome? (k.blockIn y)) :
    (k.modifyBlock b f g).placement y = k.placement y := by
  cases b with
  | body =>
    show (if k.isRemoved y then none else (g k.body).findSome? (k.blockIn y)) = _
    rw [hg]
    rfl
  | loop l | prologue l | steady l | epilogue l =>
    rw [modifyBlock_of_loop rfl]
    exact placement_modifyLoop_of_keeps fun _ => LoopNest.blockOf_edit_of_keeps hf

/-- An op `x` new to the body, put by an edit of the block of a placed `a` wherever `a` is, and
added at top level only as a statement of its own, takes the place of `a`. -/
theorem placement_modifyBlock_fresh {a x : OpId} {b : Block} {f : List OpId → List OpId}
    {g : List Stmt → List Stmt} (hp : k.placement a = some b) (hx : x ∉ k.bodyOps)
    (hxr : x ∉ k.removed) (hf : ∀ xs, a ∈ xs → x ∈ f xs)
    (hg : ∀ ss, Stmt.op a ∈ ss → Stmt.op x ∈ g ss) (hg' : ∀ ss, ∀ s ∈ g ss, s ∈ ss ∨ s = .op x) :
    (k.modifyBlock b f g).placement x = some b := by
  unfold placement at hp
  split_ifs at hp
  obtain ⟨s, hs, hbs⟩ := List.exists_of_findSome?_eq_some hp
  have old : ∀ s ∈ k.body, k.blockIn x s = none := fun s hs => by
    rw [← Option.not_isSome_iff_eq_none, isSome_blockIn_iff]
    exact fun hxs => hx (List.mem_flatMap.2 ⟨s, hs, hxs⟩)
  unfold placement
  rw [if_neg (by simpa [isRemoved, removed_modifyBlock] using hxr)]
  cases s with
  | op o =>
    -- `a` stands at top level, where `x` joins it as a statement of its own.
    simp only [blockIn, beq_iff_eq] at hbs
    split_ifs at hbs with hoa
    cases hbs
    subst hoa
    show (g k.body).findSome? (k.blockIn x) = some .body
    refine findSome?_eq_of_only (hg _ hs) (by simp [blockIn]) fun s' hs' => ?_
    rcases hg' _ s' hs' with hs' | rfl
    · exact .inl (old s' hs')
    · exact .inr (by simp [blockIn])
  | loop l =>
    -- `a` stands in a block of loop `l`, whose nest alone changes.
    obtain ⟨hbl, -⟩ := placedOps_edit hbs
    have inRange : (k.loop? l).isSome := by
      have ha : a ∈ (k.loop l).placedOps := by
        rw [← stmtOps_loop, ← isSome_blockIn_iff, hbs]
        rfl
      rw [loop?_of_mem_placedOps ha]
      rfl
    have hxl : x ∉ (k.loop l).placedOps := fun hxl =>
      hx (List.mem_flatMap.2 ⟨.loop l, hs, hxl⟩)
    rw [modifyBlock_of_loop hbl]
    have self : (k.modifyLoop l (b.edit f)).blockIn x (.loop l) = some b := by
      rw [blockIn_loop, loop_modifyLoop, if_pos ⟨rfl, inRange⟩]
      exact LoopNest.blockOf_edit_fresh hbs hxl hf
    refine findSome?_eq_of_only hs self fun s' hs' => ?_
    cases s' with
    | op o => exact .inl (old _ hs')
    | loop l' =>
      by_cases hl : l = l'
      · subst hl
        exact .inr self
      · rw [blockIn_loop, loop_modifyLoop, if_neg fun h => hl h.1]
        exact .inl (old _ hs')

/-- A fresh op is neither placed nor removed. -/
theorem fresh_unplaced (hF : k.Formed) : (⟨k.ops.size⟩ : OpId) ∉ k.bodyOps ∧
    (⟨k.ops.size⟩ : OpId) ∉ k.removed :=
  ⟨fun h => Nat.lt_irrefl _ (hF.placedExist _ h), fun h => Nat.lt_irrefl _ (hF.removedExist _ h)⟩

/-- `insertBefore` places its op in its anchor's block and keeps every other op where it was. -/
theorem placement_insertBefore {a x : OpId} {o : TileOp} (h : k.insertBefore a o = .ok (x, k'))
    (hF : k.Formed) : k'.placement x = k.placement a ∧ ∀ y ≠ x, k'.placement y = k.placement y := by
  obtain ⟨b, hp, rfl, -, -, rfl⟩ := insertBefore_eq h
  obtain ⟨hx, hxr⟩ := fresh_unplaced hF
  refine ⟨(placement_modifyBlock_fresh (k := { k with ops := k.ops.push _ }) hp hx hxr
    (fun _ _ => mem_insertAt.2 (.inl rfl)) (fun _ _ => mem_insertAt.2 (.inl rfl))
    fun _ _ hs => (mem_insertAt.1 hs).symm).trans hp.symm, fun y hy => ?_⟩
  exact placement_modifyBlock_of_keeps (k := { k with ops := k.ops.push _ })
    (fun _ => by rw [mem_insertAt]; simp [hy]) (findSome?_insertAt (by simp [blockIn, Ne.symm hy]))

/-- `insertAfter` places its op in its anchor's block and keeps every other op where it was. -/
theorem placement_insertAfter {a x : OpId} {o : TileOp} (h : k.insertAfter a o = .ok (x, k'))
    (hF : k.Formed) : k'.placement x = k.placement a ∧ ∀ y ≠ x, k'.placement y = k.placement y := by
  obtain ⟨b, hp, rfl, -, -, rfl⟩ := insertAfter_eq h
  obtain ⟨hx, hxr⟩ := fresh_unplaced hF
  refine ⟨(placement_modifyBlock_fresh (k := { k with ops := k.ops.push _ }) hp hx hxr
    (fun _ _ => mem_insertAt.2 (.inl rfl)) (fun _ _ => mem_insertAt.2 (.inl rfl))
    fun _ _ hs => (mem_insertAt.1 hs).symm).trans hp.symm, fun y hy => ?_⟩
  exact placement_modifyBlock_of_keeps (k := { k with ops := k.ops.push _ })
    (fun _ => by rw [mem_insertAt]; simp [hy]) (findSome?_insertAt (by simp [blockIn, Ne.symm hy]))

/-- `replaceOp` puts the new op in the old one's place and keeps every other op where it was. -/
theorem placement_replaceOp {old x : OpId} {o : TileOp} (h : k.replaceOp old o = .ok (x, k'))
    (hF : k.Formed) :
    k'.placement x = k.placement old ∧ ∀ y ≠ old, y ≠ x → k'.placement y = k.placement y := by
  obtain ⟨b, hp, hold, rfl, -, rfl⟩ := replaceOp_eq h
  obtain ⟨hx, hxr⟩ := fresh_unplaced hF
  set o' : TileOp := { o with deps := (k.op old).deps, sched := (k.op old).sched }
  set k₁ := Kernel.redirectDependents { k with ops := k.ops.push o' } old ⟨k.ops.size⟩
  obtain ⟨hb, hl, hr⟩ : k₁.body = k.body ∧ k₁.loops = k.loops ∧ k₁.removed = k.removed :=
    redirectDependents_frame
  have hp₁ : k₁.placement = k.placement := placement_congr hb hl hr
  have hbody : k₁.bodyOps = k.bodyOps := bodyOps_congr hb hl
  -- Recording `old` as removed hides `old` alone.
  have unremoved : ∀ K : Kernel, K.removed = k.removed → ∀ y ≠ old,
      ({ K with removed := k.removed ++ [old] } : Kernel).placement y = K.placement y :=
    fun K hK y hy => by
      simp only [placement, isRemoved, hK, List.contains_append, List.contains_cons,
        List.contains_nil, beq_eq_false_iff_ne.2 hy, Bool.or_false]
      rfl
  have hne : (⟨k.ops.size⟩ : OpId) ≠ old := fun he => Nat.lt_irrefl _ (he ▸ hold)
  dsimp only
  refine ⟨?_, fun y hy hyx => ?_⟩
  · rw [unremoved _ (removed_modifyBlock.trans hr) _ hne, hp]
    refine placement_modifyBlock_fresh (hp₁ ▸ hp) (hbody ▸ hx) (hr ▸ hxr)
      (fun _ ha => List.mem_map.2 ⟨old, ha, by simp⟩) (fun _ ha => List.mem_map.2 ⟨_, ha, by simp⟩)
      fun _ s hs => ?_
    obtain ⟨s₀, hs₀, rfl⟩ := List.mem_map.1 hs
    by_cases hs₀old : s₀ = .op old
    · exact .inr (by simp [hs₀old])
    · exact .inl (by simpa [hs₀old] using hs₀)
  · rw [unremoved _ (removed_modifyBlock.trans hr) _ hy, ← hp₁]
    refine placement_modifyBlock_of_keeps (fun xs => ⟨fun hy' => ?_, fun hy' => ?_⟩) ?_
    · exact (mem_map_replace hy').resolve_left hyx
    · exact List.mem_map.2 ⟨y, hy', by simp [hy]⟩
    · rw [List.findSome?_map]
      congr 1
      funext s
      by_cases hs : s = .op old
      · subst hs
        simp [blockIn, Ne.symm hy, Ne.symm hyx]
      · simp [hs]

/-! ### Edits of dependencies -/

theorem mem_dependents {src y : OpId} :
    y ∈ k.dependents src ↔ y.idx < k.ops.size ∧ y ∉ k.removed ∧ src ∈ (k.op y).deps := by
  obtain ⟨i⟩ := y
  simp [dependents, opIds, isRemoved]

theorem nodup_dependents (src : OpId) : (k.dependents src).Nodup :=
  (List.nodup_range.map fun _ _ same => OpId.mk.inj same).filter _

theorem modifyOp_modifyOp {x : OpId} {f g : TileOp → TileOp} :
    (k.modifyOp x f).modifyOp x g = k.modifyOp x (g ∘ f) := by
  simp only [modifyOp, Kernel.mk.injEq, and_true, true_and]
  ext i hi₁ hi₂
  · simp
  · simp only [Array.getElem_modify]
    split_ifs <;> rfl

/-- Rewriting ops one after another, each at most once and all but `dst`, rewrites each of them
once. -/
theorem op_foldl_modifyOp {F : TileOp → TileOp} {dst y : OpId} :
    ∀ {ds : List OpId} {k : Kernel}, ds.Nodup → (∀ d ∈ ds, d.idx < k.ops.size) →
      (ds.foldl (fun k d => if d == dst then k else k.modifyOp d F) k).op y =
        if y ∈ ds ∧ y ≠ dst then F (k.op y) else k.op y
  | [], _, _, _ => by simp
  | d :: ds, k, hnd, hds => by
    have hd := hds d List.mem_cons_self
    have rest : ∀ d' ∈ ds, d'.idx < (if d == dst then k else k.modifyOp d F).ops.size :=
      fun d' hd' => by
        split_ifs
        · exact hds d' (List.mem_cons_of_mem _ hd')
        · simpa [modifyOp] using hds d' (List.mem_cons_of_mem _ hd')
    rw [List.foldl_cons, op_foldl_modifyOp (List.nodup_cons.1 hnd).2 rest]
    by_cases hyd : y = d
    · -- The rewrite of `d` is its only one: `d` is not among the ops after it.
      subst hyd
      have hout : y ∉ ds := (List.nodup_cons.1 hnd).1
      by_cases hdst : y = dst
      · simp [hdst]
      · simp [hout, hdst, op_modifyOp hd]
    · have hother : (if d == dst then k else k.modifyOp d F).op y = k.op y := by
        split_ifs
        · rfl
        · exact op_modifyOp_of_ne (Ne.symm hyd)
      simp only [hother, List.mem_cons, hyd, false_or]

/-- Moving the dependents of `src` to `dst` rewrites the dependencies of each of them but `dst`. -/
theorem op_redirectDependents {src dst y : OpId} :
    (k.redirectDependents src dst).op y = if y ∈ k.dependents src ∧ y ≠ dst then
      { k.op y with deps := dst.insertSorted ((k.op y).deps.erase src) } else k.op y :=
  op_foldl_modifyOp (nodup_dependents src) fun _ hd => (mem_dependents.1 hd).1

/-- Adding the dependencies `ds` to an op `x` that nothing waits for, one after another, succeeds
when they name other ops of the arena, and changes the dependencies of `x` alone. -/
theorem run_forM_addDependency {x : OpId} :
    ∀ {ds : List OpId} {k : Kernel}, k.DepsExist → x.idx < k.ops.size → (∀ y, x ∉ (k.op y).deps) →
      (∀ d ∈ ds, d.idx < k.ops.size ∧ d ≠ x) →
      (ds.forM fun d => KernelM.update (·.addDependency x d)).run k =
        .ok (.ok (), k.modifyOp x fun o =>
          { o with deps := ds.foldl (fun acc d => d.insertSorted acc) o.deps })
  | [], k, _, _, _, _ => by
    have same : k.modifyOp x (fun o =>
        { o with deps := ([] : List OpId).foldl (fun acc d => d.insertSorted acc) o.deps }) = k := by
      simp only [modifyOp, List.foldl_nil]
      congr 1
      ext i hi₁ hi₂
      · simp
      · simp only [Array.getElem_modify]
        split_ifs <;> rfl
    rw [same]
    rfl
  | d :: ds, k, hd, hx, hfree, hds => by
    obtain ⟨hdk, hdx⟩ := hds d List.mem_cons_self
    have added := addDependency_eq hx hdk (dependsOn_fresh hd hfree hdx)
    let k₁ := k.modifyOp x fun o => { o with deps := d.insertSorted o.deps }
    have size : k₁.ops.size = k.ops.size := by simp [k₁, modifyOp]
    have op₁ : ∀ y, k₁.op y = if x = y then { k.op y with deps := d.insertSorted (k.op y).deps }
        else k.op y := fun y => op_modifyOp hx
    -- The op `x` waits for `d` now, and still nothing waits for `x`.
    have hd₁ : k₁.DepsExist := fun y e he => by
      rw [op₁] at he
      split_ifs at he with hxy
      · rcases mem_insertSorted.1 he with rfl | he
        · simpa [size] using hdk
        · simpa [size] using hd y e he
      · simpa [size] using hd y e he
    have hfree₁ : ∀ y, x ∉ (k₁.op y).deps := fun y he => by
      rw [op₁] at he
      split_ifs at he with hxy
      · rcases mem_insertSorted.1 he with he | he
        · exact hdx he.symm
        · exact hfree y he
      · exact hfree y he
    rw [List.forM, KernelM.run_bind_of_ok (KernelM.run_update.2 added),
      run_forM_addDependency hd₁ (size ▸ hx) hfree₁
        fun d' hd' => size ▸ hds d' (List.mem_cons_of_mem _ hd'),
      modifyOp_modifyOp]
    rfl

end Kernel

/-! ### The edits of a materialization -/

/-- What `Kernel.addBuffer` asks of a declaration besides a new name: a shape with extents, all
non-zero, of rank two in registers, and a hint of the same shape. -/
def Buffer.Declarable (b : Buffer) : Prop :=
  b.shape ≠ [] ∧ 0 ∉ b.shape ∧ (b.scope = .fragment → b.shape.length = 2) ∧
    ∀ l ∈ b.hint, l.shape = b.shape

namespace Kernel

variable {k k' : Kernel}

/-- `addBuffer` declares exactly the buffers with a new name that are declarable, as the next
handle. -/
theorem addBuffer_eq_ok {x : Buffer} {f : BufferId} :
    k.addBuffer x = .ok (f, k') ↔ (∀ y ∈ k.buffers, y.name ≠ x.name) ∧ x.Declarable ∧
      f = ⟨k.buffers.size⟩ ∧ k' = { k with buffers := k.buffers.push x } := by
  have hint : (x.hint.map (·.shape != x.shape)).getD false = true ↔
      ¬ ∀ l ∈ x.hint, l.shape = x.shape := by
    rcases x.hint with _ | l <;> simp
  unfold addBuffer
  split_ifs with h₁ h₂ h₃ h₄
  · simp_all [findBuffer?_eq_none, Option.isSome_iff_ne_none]
  · rcases h₂ with h₂ | h₂ <;> simp_all [Buffer.Declarable]
  · simp_all [Buffer.Declarable]
  · simp_all [Buffer.Declarable]
  · have hfree : ∀ y ∈ k.buffers, y.name ≠ x.name := by
      simpa [findBuffer?_eq_none, Option.isSome_iff_ne_none] using h₁
    have decl : x.Declarable := by simp_all [Buffer.Declarable]
    constructor
    · intro h
      obtain ⟨rfl, rfl⟩ := Prod.mk.inj (Except.ok.inj h)
      exact ⟨hfree, decl, rfl, rfl⟩
    · rintro ⟨-, -, rfl, rfl⟩
      rfl

/-- Past the arena there is no op, so nothing to wait for. -/
theorem deps_op_of_le {y : OpId} (hy : k.ops.size ≤ y.idx) : (k.op y).deps = [] := by
  simp [Kernel.op, op?, hy]

/-- A declared buffer lies in the arena of buffers. -/
theorem lt_of_buffer? {b : BufferId} {x : Buffer} (h : k.buffer? b = some x) :
    b.idx < k.buffers.size := by
  unfold buffer? at h
  exact (Array.getElem?_eq_some_iff.1 h).1

theorem insertBefore_frame {a x : OpId} {o : TileOp} (h : k.insertBefore a o = .ok (x, k')) :
    k'.buffers = k.buffers ∧ k'.removed = k.removed ∧ k'.ops.size = k.ops.size + 1 ∧
      k'.op x = o.scheduledAs (k.op a).sched := by
  obtain ⟨b, -, rfl, -, -, rfl⟩ := insertBefore_eq h
  exact ⟨buffers_modifyBlock, removed_modifyBlock, by rw [ops_modifyBlock, Array.size_push],
    by rw [op_modifyBlock, op_push_self]⟩

theorem insertAfter_frame {a x : OpId} {o : TileOp} (h : k.insertAfter a o = .ok (x, k')) :
    k'.buffers = k.buffers ∧ k'.removed = k.removed ∧ k'.ops.size = k.ops.size + 1 ∧
      k'.op x = o.scheduledAs (k.op a).sched ∧ ∀ y, y.idx < k.ops.size → k'.op y = k.op y := by
  obtain ⟨b, -, rfl, -, -, rfl⟩ := insertAfter_eq h
  exact ⟨buffers_modifyBlock, removed_modifyBlock, by rw [ops_modifyBlock, Array.size_push],
    by rw [op_modifyBlock, op_push_self], fun y hy => by rw [op_modifyBlock, op_push hy]⟩

/-- A replacement pushes the new op with the old one's dependencies and schedule, and moves the
live dependents of the old op to it. -/
theorem replaceOp_frame {old x : OpId} {o : TileOp} (h : k.replaceOp old o = .ok (x, k')) :
    k'.buffers = k.buffers ∧ k'.removed = k.removed ++ [old] ∧ k'.ops.size = k.ops.size + 1 ∧
      k'.op x = { o with deps := (k.op old).deps, sched := (k.op old).sched } ∧
      ∀ y, y.idx < k.ops.size → k'.op y = if old ∈ (k.op y).deps ∧ y ∉ k.removed then
        { k.op y with deps := x.insertSorted ((k.op y).deps.erase old) } else k.op y := by
  obtain ⟨b, -, -, rfl, -, rfl⟩ := replaceOp_eq h
  set o' : TileOp := { o with deps := (k.op old).deps, sched := (k.op old).sched }
  obtain ⟨hbuf, hsize, -⟩ := redirectDependents_alike (k := { k with ops := k.ops.push o' }) old
    ⟨k.ops.size⟩
  refine ⟨buffers_modifyBlock.trans hbuf, rfl, ?_, ?_, fun y hy => ?_⟩
  · rw [show ∀ K : Kernel, ({ K with removed := k.removed ++ [old] } : Kernel).ops = K.ops
      from fun _ => rfl, ops_modifyBlock, hsize, Array.size_push]
  · show (Kernel.modifyBlock _ _ _ _).op _ = _
    rw [op_modifyBlock, op_redirectDependents, if_neg fun h => h.2 rfl, op_push_self]
  · show (Kernel.modifyBlock _ _ _ _).op _ = _
    have hne : y ≠ ⟨k.ops.size⟩ := fun he => Nat.lt_irrefl _ (he ▸ hy)
    rw [op_modifyBlock, op_redirectDependents]
    simp only [mem_dependents, op_push hy]
    simp [hne, Nat.lt_succ_of_lt hy, and_comm]

theorem addDependency_frame {h on : OpId} (hd : k.addDependency h on = .ok k') :
    k'.buffers = k.buffers ∧ k'.placement = k.placement ∧ k'.bodyOps = k.bodyOps ∧
      k'.removed = k.removed ∧ k'.ops.size = k.ops.size ∧
      ∀ y, k'.op y = if h = y then { k.op y with deps := on.insertSorted (k.op y).deps } else k.op y := by
  obtain ⟨-, -, rfl⟩ := addDependency_ok hd
  have hh : h.idx < k.ops.size := by
    unfold addDependency at hd
    rcases hc : k.checkOp h with e | o
    · simp [hc, bind, Except.bind] at hd
    · exact lt_of_checkOp hc
  exact ⟨rfl, rfl, rfl, rfl, Array.size_modify .., fun y => op_modifyOp hh⟩

end Kernel

open Kernel in
/-- The edits a materialization at a reader site makes, in order: the fresh buffer, the copy
before the reader, the copy's dependencies, the reader rewritten, and its wait for the copy. -/
theorem materialize_reader_eq_ok {k k' : Kernel} {h copy : OpId} {b : BufferId} :
    (materialize (.reader h b)).run k = .ok (.ok copy, k') ↔ ∃ f k₁ k₂ k₃ new k₄,
      k.addBuffer ((k.buffer b).renamed (freshCopyName k (k.buffer b).name)) = .ok (f, k₁) ∧
      k₁.insertBefore h (relayoutOp s!"relayout_{freshCopyName k (k.buffer b).name}" b f) =
        .ok (copy, k₂) ∧
      ((k₂.op h).deps.forM fun d => KernelM.update (·.addDependency copy d)).run k₂ =
        .ok (.ok (), k₃) ∧
      k₃.replaceOp h (retarget (k₁.op h) b f) = .ok (new, k₄) ∧
      k₄.addDependency new copy = .ok k' := by
  constructor
  · intro hm
    simp only [materialize] at hm
    rw [KernelM.run_get_bind] at hm
    obtain ⟨f, k₁, h₁, hm⟩ := KernelM.run_bind_eq_ok.1 hm
    rw [KernelM.run_get_bind] at hm
    obtain ⟨copy', k₂, h₂, hm⟩ := KernelM.run_bind_eq_ok.1 hm
    rw [KernelM.run_get_bind] at hm
    obtain ⟨_, k₃, h₃, hm⟩ := KernelM.run_bind_eq_ok.1 hm
    obtain ⟨new, k₄, h₄, hm⟩ := KernelM.run_bind_eq_ok.1 hm
    obtain ⟨_, k₅, h₅, hm⟩ := KernelM.run_bind_eq_ok.1 hm
    obtain ⟨rfl, rfl⟩ := KernelM.run_pure_eq_ok.1 hm
    exact ⟨f, k₁, k₂, k₃, new, k₄, KernelM.run_edit.1 h₁, KernelM.run_edit.1 h₂, h₃,
      KernelM.run_edit.1 h₄, KernelM.run_update.1 h₅⟩
  · rintro ⟨f, k₁, k₂, k₃, new, k₄, h₁, h₂, h₃, h₄, h₅⟩
    simp only [materialize]
    rw [KernelM.run_get_bind, KernelM.run_bind_of_ok (KernelM.run_edit.2 h₁), KernelM.run_get_bind,
      KernelM.run_bind_of_ok (KernelM.run_edit.2 h₂), KernelM.run_get_bind,
      KernelM.run_bind_of_ok h₃, KernelM.run_bind_of_ok (KernelM.run_edit.2 h₄),
      KernelM.run_bind_of_ok (KernelM.run_update.2 h₅)]
    rfl

open Kernel in
/-- The edits a materialization at a writer site makes, in order: the fresh buffer, the writer
rewritten, the copy after it, the move of its dependents to the copy, and the copy's wait for
it. -/
theorem materialize_writer_eq_ok {k k' : Kernel} {h copy : OpId} {b : BufferId} :
    (materialize (.writer h b)).run k = .ok (.ok copy, k') ↔ ∃ f k₁ new k₂ k₃,
      k.addBuffer ((k.buffer b).renamed (freshCopyName k (k.buffer b).name)) = .ok (f, k₁) ∧
      k₁.replaceOp h (retarget (k₁.op h) b f) = .ok (new, k₂) ∧
      k₂.insertAfter new (relayoutOp s!"relayout_{freshCopyName k (k.buffer b).name}" f b) =
        .ok (copy, k₃) ∧
      (k₃.redirectDependents new copy).addDependency copy new = .ok k' := by
  constructor
  · intro hm
    simp only [materialize] at hm
    rw [KernelM.run_get_bind] at hm
    obtain ⟨f, k₁, h₁, hm⟩ := KernelM.run_bind_eq_ok.1 hm
    rw [KernelM.run_get_bind] at hm
    obtain ⟨new, k₂, h₂, hm⟩ := KernelM.run_bind_eq_ok.1 hm
    obtain ⟨copy', k₃, h₃, hm⟩ := KernelM.run_bind_eq_ok.1 hm
    obtain ⟨_, k₄, h₄, hm⟩ := KernelM.run_bind_eq_ok.1 hm
    obtain ⟨_, k₅, h₅, hm⟩ := KernelM.run_bind_eq_ok.1 hm
    obtain ⟨rfl, rfl⟩ := KernelM.run_pure_eq_ok.1 hm
    rw [KernelM.run_modify] at h₄
    obtain ⟨-, rfl⟩ := Prod.mk.inj (Except.ok.inj h₄)
    exact ⟨f, k₁, new, k₂, k₃, KernelM.run_edit.1 h₁, KernelM.run_edit.1 h₂,
      KernelM.run_edit.1 h₃, KernelM.run_update.1 h₅⟩
  · rintro ⟨f, k₁, new, k₂, k₃, h₁, h₂, h₃, h₄⟩
    simp only [materialize]
    rw [KernelM.run_get_bind, KernelM.run_bind_of_ok (KernelM.run_edit.2 h₁), KernelM.run_get_bind,
      KernelM.run_bind_of_ok (KernelM.run_edit.2 h₂), KernelM.run_bind_of_ok (KernelM.run_edit.2 h₃),
      KernelM.run_bind_of_ok KernelM.run_modify, KernelM.run_bind_of_ok (KernelM.run_update.2 h₄)]
    rfl

/-! ### What a materialization leaves -/

/-- What a materialization separating `h` from `b` leaves in `k'`, seen from `k`: the fresh
buffer `⟨k.buffers.size⟩`, which is `b` declared again under `name`, a name no buffer of `k` has;
the copy and the rewritten op `new` in the block of `h`; every other live op as it was, but for a
dependency on `h`, which goes to `heir`; and no live op but those two touching the fresh buffer. -/
structure Rerouted (k k' : Kernel) (h : OpId) (b : BufferId) (name : String)
    (copy new heir : OpId) : Prop where
  nameFresh : ∀ x ∈ k.buffers, x.name ≠ name
  buffers : k'.buffers = k.buffers.push ((k.buffer b).renamed name)
  copyPlaced : k'.placement copy = k.placement h
  newPlaced : k'.placement new = k.placement h
  others : ∀ x ∈ k.liveOps, x ≠ h → k'.op x = if h ∈ (k.op x).deps then
    { k.op x with deps := heir.insertSorted ((k.op x).deps.erase h) } else k.op x
  unshared : ∀ x ∈ k'.liveOps, x ≠ copy → x ≠ new →
    ∀ o ∈ (k'.op x).operands, o.buffer ≠ ⟨k.buffers.size⟩

/-- A reader's copy `b → f` stands right before the rewritten reader and waits for what the reader
waited for; the rewritten reader reads `f` and waits for the copy as well. -/
structure CopiedBefore (k k' : Kernel) (h : OpId) (b : BufferId) (name : String)
    (copy new : OpId) : Prop where
  order : ∃ P Q, k.liveOps = P ++ h :: Q ∧ k'.liveOps = P ++ copy :: new :: Q
  copyOp : k'.op copy = { relayoutOp s!"relayout_{name}" b ⟨k.buffers.size⟩ with
    deps := (k.op h).deps.foldl (fun acc d => d.insertSorted acc) [], sched := (k.op h).sched }
  newOp : k'.op new = { retarget (k.op h) b ⟨k.buffers.size⟩ with
    deps := copy.insertSorted (k.op h).deps, sched := (k.op h).sched }

/-- A writer's copy `f → b` stands right after the rewritten writer, which writes `f`, and waits
for it alone. -/
structure CopiedAfter (k k' : Kernel) (h : OpId) (b : BufferId) (name : String)
    (copy new : OpId) : Prop where
  order : ∃ P Q, k.liveOps = P ++ h :: Q ∧ k'.liveOps = P ++ new :: copy :: Q
  copyOp : k'.op copy = { relayoutOp s!"relayout_{name}" ⟨k.buffers.size⟩ b with
    deps := [new], sched := (k.op h).sched }
  newOp : k'.op new = { retarget (k.op h) b ⟨k.buffers.size⟩ with
    deps := (k.op h).deps, sched := (k.op h).sched }

namespace Kernel

variable {k k' : Kernel}

/-- In a sound kernel no placed op waits for itself. -/
theorem Sound.not_waits_self (hs : k.Sound) {h : OpId} (hh : h ∈ k.bodyOps) : h ∉ (k.op h).deps :=
  fun hw => not_pair_sublist_self hs.placedOnce (hs.dep_before hw hh hh)

/-- The ops the body kept keep their operands, and those were checked, so only the ops `R` put in
the place of `h` may touch a buffer declared after the check. -/
theorem unshared_of_order (hs : k.Sound) {h : OpId} {P Q R : List OpId}
    (hk : k.liveOps = P ++ h :: Q) (hk' : k'.liveOps = P ++ R ++ Q)
    (hop : ∀ x ∈ k.liveOps, x ≠ h → (k'.op x).operands = (k.op x).operands) :
    ∀ x ∈ k'.liveOps, x ∉ R → ∀ o ∈ (k'.op x).operands, o.buffer ≠ ⟨k.buffers.size⟩ := by
  intro x hx hxR o ho same
  have hnd : (P ++ h :: Q).Nodup := hk ▸ nodup_liveOps hs.placedOnce
  have kept : x ∈ P ++ Q := by
    rw [hk'] at hx
    simp only [List.mem_append] at hx ⊢
    tauto
  have live : x ∈ k.liveOps := by
    rw [hk]
    simp only [List.mem_append, List.mem_cons] at kept ⊢
    tauto
  have hxh : x ≠ h := fun he => (List.nodup_middle.1 hnd |> List.nodup_cons.1).1 (he ▸ kept)
  rw [hop x live hxh] at ho
  obtain ⟨y, hy⟩ := buffer?_of_checkOperands (hs.operandsFit x live) o ho
  exact Nat.lt_irrefl _ (same ▸ lt_of_buffer? hy)

end Kernel

open Kernel in
/-- A materialization at a reader site of a sound kernel puts the copy right before the rewritten
reader and moves the reader's dependents to the rewritten one. -/
theorem materialize_reader_rerouted {k k' : Kernel} {h copy : OpId} {b : BufferId} (hs : k.Sound)
    (hm : (materialize (.reader h b)).run k = .ok (.ok copy, k')) :
    ∃ new, Rerouted k k' h b (freshCopyName k (k.buffer b).name) copy new new ∧
      CopiedBefore k k' h b (freshCopyName k (k.buffer b).name) copy new := by
  obtain ⟨f, k₁, k₂, k₃, new, k₄, h₁, h₂, h₃, h₄, h₅⟩ := materialize_reader_eq_ok.1 hm
  have hF := hs.toFormed
  have hF₁ := hF.addBuffer h₁
  obtain ⟨nameFresh, -, rfl, rfl⟩ := addBuffer_eq_ok.1 h₁
  set name := freshCopyName k (k.buffer b).name
  set K₁ : Kernel := { k with buffers := k.buffers.push ((k.buffer b).renamed name) }
  -- The copy, fresh, stands right before the reader, in its block.
  obtain ⟨buf₂, rem₂, size₂, op₂copy⟩ := insertBefore_frame h₂
  obtain ⟨-, -, hcopy, -, -, -⟩ := insertBefore_eq h₂
  replace hcopy : copy = ⟨k.ops.size⟩ := hcopy
  replace size₂ : k₂.ops.size = k.ops.size + 1 := size₂
  obtain ⟨pl₂copy, pl₂⟩ := placement_insertBefore h₂ hF₁
  obtain ⟨P, Q, hk, hk₂⟩ := bodyOps_insertBefore h₂ hF₁.loops_nodup hF₁.placedOnce
  have hF₂ := hF₁.insertBefore h₂
  have hh : h ∈ k.bodyOps := hk ▸ List.mem_append_right _ List.mem_cons_self
  have hx : h.idx < k.ops.size := hF.placedExist h hh
  have op₂ : ∀ y : OpId, y.idx < k.ops.size → k₂.op y = k.op y := fun y hy =>
    (insertBefore_op h₂ hy).trans rfl
  -- The copy waits for what the reader waits for, and no other op changes.
  have hF₃ : k₃.Formed := KernelM.run_forM_ok (fun _ kx => kx.Formed) []
    (fun _ _ _ _ _ hI hstep => hI.addDependency (KernelM.run_update.1 hstep)) hF₂ h₃
  have hfree : ∀ y, copy ∉ (k₂.op y).deps := fun y hy => by
    by_cases hyk : y.idx < k.ops.size
    · rw [op₂ y hyk] at hy
      exact Nat.lt_irrefl _ (hcopy ▸ hF.depsExist y copy hy)
    · by_cases hyc : y = copy
      · subst hyc
        rw [op₂copy] at hy
        simp [relayoutOp, TileOp.scheduledAs] at hy
      · have hle : k₂.ops.size ≤ y.idx := by
          have : y.idx ≠ k.ops.size := fun he => hyc (by rw [hcopy, ← he])
          omega
        simp [deps_op_of_le hle] at hy
  rw [run_forM_addDependency hF₂.depsExist (by rw [hcopy, size₂]; exact Nat.lt_succ_self _) hfree
    fun d hd => ?_] at h₃
  swap
  · rw [op₂ h hx] at hd
    have hdk := hF.depsExist h d hd
    exact ⟨by rw [size₂]; exact Nat.lt_succ_of_lt hdk, fun he => Nat.lt_irrefl _ (hcopy ▸ he ▸ hdk)⟩
  obtain ⟨-, rfl⟩ := Prod.mk.inj (Except.ok.inj h₃)
  have hcopy₂ : copy.idx < k₂.ops.size := by rw [hcopy, size₂]; exact Nat.lt_succ_self _
  set F : TileOp → TileOp := fun o =>
    { o with deps := (k₂.op h).deps.foldl (fun acc d => d.insertSorted acc) o.deps }
  set k₃ := k₂.modifyOp copy F
  have op₃ : ∀ y ≠ copy, k₃.op y = k₂.op y := fun y hy => op_modifyOp_of_ne (Ne.symm hy)
  have op₃copy : k₃.op copy = F (k₂.op copy) := by rw [op_modifyOp hcopy₂, if_pos rfl]
  have size₃ : k₃.ops.size = k.ops.size + 1 := by simp [k₃, modifyOp, size₂]
  -- The reader, rewritten, takes its own place right after the copy.
  obtain ⟨buf₄, rem₄, size₄, op₄new, op₄⟩ := replaceOp_frame h₄
  obtain ⟨-, -, -, hnew, -, -⟩ := replaceOp_eq h₄
  replace hnew : new = ⟨k.ops.size + 1⟩ := by rw [hnew, size₃]
  obtain ⟨pl₄new, pl₄⟩ := placement_replaceOp h₄ hF₃
  obtain ⟨P', Q', hk₃, hk₄⟩ := bodyOps_replaceOp h₄ hF₃.loops_nodup hF₃.placedOnce
  obtain ⟨hP, hQ⟩ := split_eq_of_nodup (hk₃ ▸ hF₃.placedOnce)
    (hk₃.symm.trans (show k₂.bodyOps = (P ++ [copy]) ++ h :: Q by rw [hk₂]; simp))
  subst P' Q'
  have hF₄ := hF₃.replaceOp h₄
  obtain ⟨buf', pl', body', rem', -, op'⟩ := addDependency_frame h₅
  have hF' := hF₄.addDependency h₅
  have hch : copy ≠ h := fun he => Nat.lt_irrefl _ (hcopy ▸ he ▸ hx)
  have hcn : copy ≠ new := by rw [hcopy, hnew]; simp
  have hk' : k'.liveOps = P ++ copy :: new :: Q := by
    rw [hF'.liveOps_eq, body', hk₄]
    simp
  have hk : k.liveOps = P ++ h :: Q := hF.liveOps_eq.trans hk
  -- Every other live op is old, and only a dependency on the reader changes.
  have others : ∀ x ∈ k.liveOps, x ≠ h → k'.op x = if h ∈ (k.op x).deps then
      { k.op x with deps := new.insertSorted ((k.op x).deps.erase h) } else k.op x := by
    intro x hx hxh
    have hxk : x.idx < k.ops.size := hF.placedExist x (hF.liveOps_eq ▸ hx)
    have hxr : x ∉ k₃.removed := by
      show x ∉ k₂.removed
      rw [rem₂]
      exact (mem_liveOps.1 hx).2
    have hxc : x ≠ copy := fun he => Nat.lt_irrefl _ (hcopy ▸ he ▸ hxk)
    have hxn : new ≠ x := fun he => by
      rw [← he, hnew] at hxk
      dsimp only at hxk
      omega
    rw [op', if_neg hxn, op₄ x (by rw [size₃]; omega), op₃ x hxc, op₂ x hxk]
    simp only [hxr, not_false_eq_true, and_true]
  refine ⟨new, ⟨nameFresh, by rw [buf', buf₄]; exact buf₂, ?_, ?_, others, ?_⟩,
    ⟨⟨P, Q, hk, hk'⟩, ?_, ?_⟩⟩
  · rw [pl', pl₄ copy hch hcn]
    exact pl₂copy
  · rw [pl', pl₄new]
    exact pl₂ h (Ne.symm hch)
  · intro x hx hxc hxn
    refine unshared_of_order hs hk (R := [copy, new]) (hk'.trans (by simp)) (fun y hy hyh => ?_) x hx
      (by simp [hxc, hxn])
    rw [others y hy hyh]
    split_ifs <;> rfl
  · -- The copy does not wait for the reader, so the rewrite leaves it alone.
    have unwaited : h ∉ (F (k₂.op copy)).deps := fun hw => by
      simp only [F, op₂copy, op₂ h hx, mem_foldl_insertSorted] at hw
      rcases hw with hw | hw
      · exact hs.not_waits_self hh hw
      · simp [relayoutOp, TileOp.scheduledAs] at hw
    rw [op', if_neg (Ne.symm hcn), op₄ copy (by rw [size₃, hcopy]; exact Nat.lt_succ_self _), op₃copy,
      if_neg fun hw => unwaited hw.1]
    simp [F, op₂copy, op₂ h hx, relayoutOp, TileOp.scheduledAs]
    rfl
  · rw [op', if_pos rfl, op₄new, op₃ h (Ne.symm hch), op₂ h hx]
    rfl

/-- Sorted insertion of a handle that was not there, then its removal, gives the list back. -/
theorem OpId.erase_insertSorted {a : OpId} : ∀ {L : List OpId}, a ∉ L → (a.insertSorted L).erase a = L
  | [], _ => by simp [OpId.insertSorted]
  | x :: L, ha => by
    have hax : a ≠ x := fun he => ha (he ▸ List.mem_cons_self)
    have rest := OpId.erase_insertSorted (fun hL => ha (List.mem_cons_of_mem _ hL))
    unfold OpId.insertSorted
    split_ifs with h₁ h₂
    · simp
    · obtain ⟨i⟩ := a
      obtain ⟨j⟩ := x
      exact absurd (by simpa using h₂) hax
    · simp [Ne.symm hax, rest]

open Kernel in
/-- A materialization at a writer site of a sound kernel puts the copy right after the rewritten
writer and moves the writer's dependents to the copy. -/
theorem materialize_writer_rerouted {k k' : Kernel} {h copy : OpId} {b : BufferId} (hs : k.Sound)
    (hm : (materialize (.writer h b)).run k = .ok (.ok copy, k')) :
    ∃ new, Rerouted k k' h b (freshCopyName k (k.buffer b).name) copy new copy ∧
      CopiedAfter k k' h b (freshCopyName k (k.buffer b).name) copy new := by
  obtain ⟨f, k₁, new, k₂, k₃, h₁, h₂, h₃, h₄⟩ := materialize_writer_eq_ok.1 hm
  have hF := hs.toFormed
  have hF₁ := hF.addBuffer h₁
  obtain ⟨nameFresh, -, rfl, rfl⟩ := addBuffer_eq_ok.1 h₁
  set name := freshCopyName k (k.buffer b).name
  set K₁ : Kernel := { k with buffers := k.buffers.push ((k.buffer b).renamed name) }
  -- The writer, rewritten, keeps its place.
  obtain ⟨buf₂, rem₂, size₂, op₂new, op₂⟩ := replaceOp_frame h₂
  obtain ⟨-, -, -, hnew, -, -⟩ := replaceOp_eq h₂
  replace hnew : new = ⟨k.ops.size⟩ := hnew
  replace size₂ : k₂.ops.size = k.ops.size + 1 := size₂
  obtain ⟨pl₂new, pl₂⟩ := placement_replaceOp h₂ hF₁
  obtain ⟨P, Q, hk, hk₂⟩ := bodyOps_replaceOp h₂ hF₁.loops_nodup hF₁.placedOnce
  have hF₂ := hF₁.replaceOp h₂
  have hh : h ∈ k.bodyOps := hk ▸ List.mem_append_right _ List.mem_cons_self
  -- The copy, fresh, stands right after it.
  obtain ⟨buf₃, rem₃, size₃, op₃copy, op₃⟩ := insertAfter_frame h₃
  obtain ⟨-, -, hcopy, -, -, -⟩ := insertAfter_eq h₃
  replace hcopy : copy = ⟨k.ops.size + 1⟩ := by rw [hcopy, size₂]
  obtain ⟨pl₃copy, pl₃⟩ := placement_insertAfter h₃ hF₂
  obtain ⟨P', Q', hk₂', hk₃⟩ := bodyOps_insertAfter h₃ hF₂.loops_nodup hF₂.placedOnce
  obtain ⟨hP, hQ⟩ := split_eq_of_nodup (hk₂' ▸ hF₂.placedOnce) (hk₂'.symm.trans hk₂)
  subst P' Q'
  have hF₃ := hF₂.insertAfter h₃
  -- The dependents of the rewritten writer move to the copy, which then waits for it.
  have hcopy₃ : copy.idx < k₃.ops.size := by rw [hcopy, size₃, size₂]; exact Nat.lt_succ_self _
  set K₄ := k₃.redirectDependents new copy
  have hF₄ : K₄.Formed := hF₃.redirectDependents hcopy₃
  obtain ⟨hb₄, hl₄, hr₄⟩ : K₄.body = k₃.body ∧ K₄.loops = k₃.loops ∧ K₄.removed = k₃.removed :=
    redirectDependents_frame
  obtain ⟨buf₄, -, -⟩ := redirectDependents_alike (k := k₃) new copy
  obtain ⟨buf', pl', body', rem', -, op'⟩ := addDependency_frame h₄
  have hF' := hF₄.addDependency h₄
  have hnc : new ≠ copy := by rw [hnew, hcopy]; simp
  have hk : k.liveOps = P ++ h :: Q := hF.liveOps_eq.trans hk
  have hk' : k'.liveOps = P ++ new :: copy :: Q := by
    rw [hF'.liveOps_eq, body', bodyOps_congr hb₄ hl₄, hk₃]
  have hx : h.idx < k.ops.size := hF.placedExist h hh
  have unwaited : ∀ x, new ∉ (k.op x).deps := fun x hw =>
    Nat.lt_irrefl _ (hnew ▸ hF.depsExist x new hw)
  -- Every other live op is old; a dependency on the writer went to the rewritten writer, then to
  -- the copy.
  have others : ∀ x ∈ k.liveOps, x ≠ h → k'.op x = if h ∈ (k.op x).deps then
      { k.op x with deps := copy.insertSorted ((k.op x).deps.erase h) } else k.op x := by
    intro x hx' hxh
    have hxk : x.idx < k.ops.size := hF.placedExist x (hF.liveOps_eq ▸ hx')
    have hxr : x ∉ k.removed := (mem_liveOps.1 hx').2
    have hcx : copy ≠ x := fun he => by
      rw [← he, hcopy] at hxk
      dsimp only at hxk
      omega
    have hxr₃ : x ∉ k₃.removed := by
      rw [rem₃, rem₂]
      simpa [K₁, hxh] using hxr
    have hxk₃ : x.idx < k₃.ops.size := by rw [size₃, size₂]; omega
    have op₃x : k₃.op x = if h ∈ (k.op x).deps then
        { k.op x with deps := new.insertSorted ((k.op x).deps.erase h) } else k.op x := by
      rw [op₃ x (by rw [size₂]; omega), op₂ x hxk]
      simp only [show K₁.op x = k.op x from rfl, show K₁.removed = k.removed from rfl, hxr,
        not_false_eq_true, and_true]
    rw [op', if_neg hcx, op_redirectDependents]
    simp only [mem_dependents, hxr₃, hxk₃, not_false_eq_true, true_and]
    by_cases hw : h ∈ (k.op x).deps
    · have fresh : new ∉ (k.op x).deps.erase h := fun hm => unwaited x (List.mem_of_mem_erase hm)
      simp [op₃x, hw, mem_insertSorted, OpId.erase_insertSorted fresh, Ne.symm hcx]
    · simp [op₃x, hw, unwaited x]
  refine ⟨new, ⟨nameFresh, by rw [buf', buf₄, buf₃]; exact buf₂, ?_, ?_, others, ?_⟩,
    ⟨⟨P, Q, hk, hk'⟩, ?_, ?_⟩⟩
  · rw [pl', placement_congr hb₄ hl₄ hr₄, pl₃copy, pl₂new]
    rfl
  · rw [pl', placement_congr hb₄ hl₄ hr₄, pl₃ new hnc, pl₂new]
    rfl
  · intro x hx hxc hxn
    refine unshared_of_order hs hk (R := [new, copy]) (hk'.trans (by simp)) (fun y hy hyh => ?_) x hx
      (by simp [hxc, hxn])
    rw [others y hy hyh]
    split_ifs <;> rfl
  · rw [op', if_pos rfl, op_redirectDependents, if_neg fun hd => hd.2 rfl, op₃copy, op₂new]
    rfl
  · have hn₂ : new.idx < k₂.ops.size := by rw [hnew, size₂]; exact Nat.lt_succ_self _
    rw [op', if_neg hnc.symm, op_redirectDependents, op₃ new hn₂, if_neg fun hd => ?_, op₂new]
    · rfl
    · have hw := (mem_dependents.1 hd.1).2.2
      rw [op₃ new hn₂, op₂new] at hw
      exact unwaited h hw

/-- **A materializing copy re-routes one access.** A successful materialization in a sound kernel
declares the fresh buffer, `b` again under a name no buffer had, and leaves the copy and the
rewritten op in the block of the op it separates from `b`. A reader's copy `b → f` comes right
before the rewritten reader, waiting for what the reader waited for, and the rewritten reader waits
for it; a writer's copy `f → b` comes right after the rewritten writer, waits for it, and takes over
its dependents. Every other live op keeps its operands, its place in program order, and its
dependencies, a dependency on the old op going to the op that stands for it now; and none of them
touches the fresh buffer. -/
theorem materialize_reroutes {k k' : Kernel} {site : CopySite} {copy : OpId} (hs : k.Sound)
    (hm : (materialize site).run k = .ok (.ok copy, k')) :
    ∃ name new,
      (∀ h b, site = .reader h b →
        Rerouted k k' h b name copy new new ∧ CopiedBefore k k' h b name copy new) ∧
      (∀ h b, site = .writer h b →
        Rerouted k k' h b name copy new copy ∧ CopiedAfter k k' h b name copy new) := by
  cases site with
  | reader h b =>
    obtain ⟨new, rerouted, copied⟩ := materialize_reader_rerouted hs hm
    refine ⟨freshCopyName k (k.buffer b).name, new, fun h' b' same => ?_,
      fun _ _ same => (by cases same)⟩
    cases same
    exact ⟨rerouted, copied⟩
  | writer h b =>
    obtain ⟨new, rerouted, copied⟩ := materialize_writer_rerouted hs hm
    refine ⟨freshCopyName k (k.buffer b).name, new, fun _ _ same => (by cases same),
      fun h' b' same => ?_⟩
    cases same
    exact ⟨rerouted, copied⟩

/-- In `Kernel.roundTrip` the store reads the shared tile whole: a copy into a fresh tile goes right
before it, and the store reads the fresh tile. -/
theorem roundTrip_store_rerouted : ∃ copy k' name new,
    (materialize (.reader ⟨1⟩ ⟨1⟩)).run Kernel.roundTrip = .ok (.ok copy, k') ∧
      Rerouted Kernel.roundTrip k' ⟨1⟩ ⟨1⟩ name copy new new ∧
      CopiedBefore Kernel.roundTrip k' ⟨1⟩ ⟨1⟩ name copy new := by
  have valid : Kernel.roundTrip.validate = .ok () := by
    unfold Kernel.validate Kernel.topologicalOrder
    simp only [Kernel.sortedIds_eq_insertionSort]
    decide +kernel
  have hs := (Kernel.sound_iff Kernel.roundTrip_built.formed).2 valid
  have succeeds :
      (((materialize (.reader ⟨1⟩ ⟨1⟩)).run Kernel.roundTrip).toOption.bind (·.1.toOption)).isSome := by
    unfold materialize
    decide +kernel
  rcases run : (materialize (.reader ⟨1⟩ ⟨1⟩)).run Kernel.roundTrip with fault | ⟨_ | copy, k'⟩
  · simp [run, Except.toOption] at succeeds
  · simp [run, Except.toOption] at succeeds
  · obtain ⟨name, new, reader, -⟩ := materialize_reroutes hs run
    exact ⟨copy, k', name, new, rfl, reader _ _ rfl⟩

end TileKernel
