import TileKernel.Proofs.CopyInsertion

/-!
# What a failed layout assignment leaves

`assignLayouts` solves the layout network of the live ops round after round, resolving each
conflict by a materializing copy, and attaches the answer once a round succeeds. A failure thus
leaves the copies made so far and nothing else. The rounds reach their kernel by completed
materializations (`Kernel.CopyStep`): a copy site of a conflict separates a live op from its
buffer, and there a materialization goes through on an assignable kernel (`materialize_ok`).
Each materialization declares its buffer after the others, which it leaves as they were. The
attaching cannot fail: every layout of the initial domain of a buffer without one fits the buffer
(`initialDomain_fits`), and a layout that fits attaches (`attachLayout_of_fits`).

* `assignLayouts_failure_attaches_nothing`: on a kernel the assignment can receive
  (`Kernel.Assignable`, which every kernel the interface builds is), a failed assignment is a
  sequence of materializations that leaves every existing buffer as it was, and a failure of the
  first round leaves the kernel as it was; when the rounds succeed, the assignment does.
* `assignLayouts_conflict_unsolvable`: the rounds keep such a kernel assignable, hence formed,
  so the constraints of its live ops stay on its buffers (`Kernel.Formed.constraintsOnBuffers`)
  and a conflict the solver reports rules out every answer of the kernel it leaves.
-/

set_option autoImplicit false

namespace TileKernel

/-- A layout `Kernel.attachLayout` accepts for a buffer: it covers the buffer's shape, and it is a
fragment exactly when the buffer lives in registers. -/
def Layout.Fits (l : Layout) (b : Buffer) : Prop :=
  l.shape = b.shape ∧ (l.isFragment = true ↔ b.scope = .fragment)

/-- What a `filterMapM` keeps, its function made of an element of the list. -/
theorem filterMapM_mem {α β ε : Type} {f : α → Except ε (Option β)} {xs : List α} {ys : List β}
    (h : xs.filterMapM f = .ok ys) : ∀ y ∈ ys, ∃ x ∈ xs, f x = .ok (some y) := by
  suffices ∀ acc, List.filterMapM.loop f xs acc = .ok ys →
      ∀ y ∈ ys, y ∈ acc ∨ ∃ x ∈ xs, f x = .ok (some y) from
    fun y hy => (this [] h y hy).resolve_left List.not_mem_nil
  clear h
  induction xs with
  | nil =>
    intro acc h y hy
    obtain rfl : acc.reverse = ys := Except.ok.inj h
    exact .inl (List.mem_reverse.1 hy)
  | cons x xs ih =>
    intro acc h y hy
    simp only [List.filterMapM.loop] at h
    rcases hx : f x with e | _ | b <;> rw [hx] at h
    · cases h
    · exact (ih acc h y hy).imp id fun ⟨x', hx', hf⟩ => ⟨x', List.mem_cons_of_mem _ hx', hf⟩
    · rcases ih (b :: acc) h y hy with hy | ⟨x', hx', hf⟩
      · rcases List.mem_cons.1 hy with rfl | hy
        · exact .inr ⟨x, List.mem_cons_self, hx⟩
        · exact .inl hy
      · exact .inr ⟨x', List.mem_cons_of_mem _ hx', hf⟩

/-- A matrix-unit fragment covers the shape it was asked for. -/
theorem Fragment.ofMma_shape {operand : MmaOperand} {shape : Nat × Nat} {t : Target} {f : Fragment}
    (h : (Fragment.ofMma operand shape t).run = .ok (.ok f)) : f.shape = shape := by
  unfold Fragment.ofMma at h
  split at h
  · cases h
  · obtain ⟨_, -, h⟩ := run_bind_eq_ok.1 h
    cases h
    rfl

/-- A copy strip covers the shape it was asked for. -/
theorem Fragment.ofStrip_shape {shape : Nat × Nat} {dtype : Scalar} {t : Target} {f : Fragment}
    (h : (Fragment.ofStrip shape dtype t).run = .ok (.ok f)) : f.shape = shape := by
  unfold Fragment.ofStrip at h
  obtain ⟨_, -, h⟩ := run_bind_eq_ok.1 h
  obtain ⟨_, -, h⟩ := run_bind_eq_ok.1 h
  obtain ⟨_, -, h⟩ := run_bind_eq_ok.1 h
  dsimp only at h
  generalize (if _ ≤ shape.2 then _ else shape.2) = cols at h
  split_ifs at h
  · obtain ⟨_, h, -⟩ := run_bind_eq_ok.1 h
    cases h
  · obtain ⟨_, -, h⟩ := run_bind_eq_ok.1 h
    cases h
    rfl

/-- Every dimension order of a shape covers that shape. -/
theorem DenseLayout.shape_of_mem_allOrders {shape : Shape} {d : DenseLayout}
    (h : d ∈ DenseLayout.allOrders shape) : d.shape = shape := by
  unfold DenseLayout.allOrders at h
  dsimp only at h
  split_ifs at h
  · simp only [List.mem_cons, List.not_mem_nil, or_false] at h
    rcases h with rfl | rfl <;> rfl
  · obtain ⟨_, -, rfl⟩ := List.mem_map.1 h
    rfl

/-- A fragment of a register buffer's two extents fits it. -/
theorem fragment_fits {bf : Buffer} {f : Fragment} (hs : bf.scope = .fragment)
    (rank : bf.scope = .fragment → bf.shape.length = 2)
    (hf : f.shape = (bf.shape[0]?.getD 0, bf.shape[1]?.getD 0)) : (Layout.fragment f).Fits bf := by
  obtain ⟨a, b, hab⟩ := List.length_eq_two.1 (rank hs)
  refine ⟨?_, by simp [Layout.isFragment, Layout.asFragment?, hs]⟩
  simp [Layout.shape, hf, hab]

/-- A dense layout of a buffer's shape fits it outside registers. -/
theorem dense_fits {bf : Buffer} {d : DenseLayout} (hs : bf.scope ≠ .fragment)
    (hd : d.shape = bf.shape) : (Layout.dense d).Fits bf :=
  ⟨hd, by simp [Layout.isFragment, Layout.asFragment?, hs]⟩

/-- A scope's candidates fit a buffer of that scope, a register buffer being two-dimensional. -/
theorem scopeCandidates_fits {bf : Buffer} {t : Target} {cands : List Layout}
    (h : scopeCandidates bf t = .ok cands) (rank : bf.scope = .fragment → bf.shape.length = 2) :
    ∀ l ∈ cands, l.Fits bf := by
  unfold scopeCandidates at h
  split at h
  case h_4 hs =>
    dsimp only at h
    obtain ⟨r, hr, h⟩ := except_bind_eq_ok.1 h
    obtain ⟨units, hu, h⟩ := except_bind_eq_ok.1 h
    obtain rfl := Except.ok.inj h
    intro l hl
    rcases List.mem_append.1 hl with hl | hl
    · rcases r with _ | f
      · exact absurd hl List.not_mem_nil
      · rw [List.mem_singleton.1 hl]
        exact fragment_fits hs rank (Fragment.ofStrip_shape hr)
    · obtain ⟨x, -, hx⟩ := filterMapM_mem hu l hl
      obtain ⟨r', hr', hx⟩ := except_bind_eq_ok.1 hx
      rcases r' with _ | f
      · cases hx
      · cases hx
        exact fragment_fits hs rank (Fragment.ofMma_shape hr')
  all_goals
    rename_i hs
    obtain rfl := Except.ok.inj h
    intro l hl
  · rw [List.mem_singleton.1 hl]
    exact dense_fits (by simp [hs]) rfl
  all_goals
    obtain ⟨d, hd, rfl⟩ := List.mem_map.1 hl
    exact dense_fits (by simp [hs]) (DenseLayout.shape_of_mem_allOrders hd)

/-- The initial domain of a buffer without a layout fits it: a hint is checked against the
buffer's shape and scope, and the scope's candidates fit by construction. -/
theorem initialDomain_fits {bf : Buffer} {o : CompileOptions} {d : List Layout}
    (h : (initialDomain bf o).run = .ok (.ok d)) (hl : bf.layout = none)
    (rank : bf.scope = .fragment → bf.shape.length = 2) : ∀ l ∈ d, l.Fits bf := by
  unfold initialDomain at h
  rw [hl] at h
  dsimp only at h
  split at h
  · obtain ⟨cands, hc, h⟩ := run_bind_eq_ok.1 h
    split_ifs at h
    · exact absurd h run_bind_throw_ne_ok
    · obtain rfl := Except.ok.inj (Except.ok.inj h)
      exact scopeCandidates_fits (run_liftM_eq_ok.1 hc) rank
  · rename_i hint _
    split_ifs at h with hshape
    · nomatch Except.ok.inj h
    split at h
    · rename_i hs _
      obtain ⟨_, -, h⟩ := run_bind_eq_ok.1 h
      obtain rfl := Except.ok.inj (Except.ok.inj h)
      simpa [Layout.Fits, Layout.isFragment, Layout.asFragment?, hs] using hshape
    · split_ifs at h with hs
      · obtain rfl := Except.ok.inj (Except.ok.inj h)
        simp only [Scope.isDense, bne_iff_ne, ne_eq] at hs
        simpa [Layout.Fits, Layout.isFragment, Layout.asFragment?] using ⟨not_not.1 hshape, hs⟩
      · nomatch Except.ok.inj h
    · nomatch Except.ok.inj h

/-- A layout that fits a buffer without one attaches. -/
theorem attachLayout_of_fits {k : Kernel} {h : BufferId} {bf : Buffer} {l : Layout}
    (hb : k.buffer? h = some bf) (hl : bf.layout = none) (fit : l.Fits bf) :
    k.attachLayout h l = .ok (k.modifyBuffer h ({ · with layout := some l })) := by
  obtain ⟨shape, frag⟩ := fit
  simp only [Kernel.attachLayout, Kernel.tryBuffer, hb, hl, shape, Option.isSome_none, ne_eq,
    not_true_eq_false, if_false, bind, Except.bind]
  cases l <;> cases hs : bf.scope <;> simp_all [Layout.isFragment, Layout.asFragment?, pure, Except.pure]

/-! ### Attaching the answer -/

/-- A handle in range names a declared buffer. -/
theorem Kernel.buffer?_eq_some_buffer {k : Kernel} {b : BufferId} (hb : b.idx < k.buffers.size) :
    k.buffer? b = some (k.buffer b) := by
  simp [Kernel.buffer, Kernel.buffer?, Array.getElem?_eq_getElem hb]

/-- `kx` keeps, as they are in `kr`, the buffers of `kr` it has attached nothing to. -/
def KeepsUnattached (kr kx : Kernel) : Prop :=
  kx.buffers.size = kr.buffers.size ∧ ∀ b, (kx.buffer b).layout = none → kx.buffer b = kr.buffer b

/-- One step of the attaching loop succeeds when the layout fits the buffer of `kr` it is for. -/
theorem attach_step {kr kx : Kernel} {b : BufferId} {l : Layout} (hI : KeepsUnattached kr kx)
    (hb : b.idx < kr.buffers.size) (fit : (kr.buffer b).layout = none → l.Fits (kr.buffer b)) :
    ∃ ky, (do
        if ((← get).buffer b).layout.isNone then
          KernelM.lift (KernelM.update (·.attachLayout b l)) : KernelM LowerError Unit).run kx =
      .ok (.ok (), ky) ∧ KeepsUnattached kr ky := by
  rw [KernelM.run_get_bind]
  split
  · rename_i hnone
    have hlx : (kx.buffer b).layout = none := Option.isNone_iff_eq_none.1 hnone
    have same := hI.2 b hlx
    have hbx : b.idx < kx.buffers.size := hI.1 ▸ hb
    have attached := attachLayout_of_fits (Kernel.buffer?_eq_some_buffer hbx) hlx
      (same ▸ fit (same ▸ hlx))
    refine ⟨_, KernelM.run_lift_eq_ok.2 (KernelM.run_update.2 attached),
      by simp [Kernel.modifyBuffer, hI.1], fun b' hb' => ?_⟩
    rw [buffer_modifyBuffer hbx] at hb' ⊢
    -- The buffer attached to has a layout now; the others are those of `kx`.
    split_ifs at hb' ⊢
    exact hI.2 b' hb'
  · exact ⟨kx, rfl, hI⟩

/-- The attaching loop succeeds when each layout fits its buffer, if that has none yet. -/
theorem attach_loop {kr : Kernel} {assignment : List (BufferId × Layout)}
    (fits : ∀ d ∈ assignment, d.1.idx < kr.buffers.size ∧
      ((kr.buffer d.1).layout = none → d.2.Fits (kr.buffer d.1))) :
    ∃ k₂, (assignment.forM fun (b, l) => do
        if ((← get).buffer b).layout.isNone then
          KernelM.lift (KernelM.update (·.attachLayout b l)) : KernelM LowerError Unit).run kr =
      .ok (.ok (), k₂) := by
  refine (KernelM.run_forM_progress (KeepsUnattached kr) (fun ⟨b, l⟩ hd kx hx => ?_)
    ⟨rfl, fun _ _ => rfl⟩).imp fun _ h => h.1
  exact attach_step hx (fits _ hd).1 (fits _ hd).2

/-! ### The rounds -/

/-- One completed materialization: the fresh buffer, the relayout copy and the rewritten op. -/
def Kernel.CopyStep (k k' : Kernel) : Prop :=
  ∃ site copy, (materialize site).run k = .ok (.ok copy, k')

open Kernel in
/-- A materialization declares one buffer after the others. -/
theorem materialize_buffers {k k' : Kernel} {site : CopySite} {copy : OpId}
    (hm : (materialize site).run k = .ok (.ok copy, k')) : ∃ x, k'.buffers = k.buffers.push x := by
  cases site with
  | reader h b =>
    obtain ⟨f, k₁, k₂, k₃, new, k₄, h₁, h₂, h₃, h₄, h₅⟩ := materialize_reader_eq_ok.1 hm
    obtain ⟨-, -, -, rfl⟩ := addBuffer_eq_ok.1 h₁
    have deps : k₃.buffers = k₂.buffers :=
      KernelM.run_forM_ok (fun _ kx => kx.buffers = k₂.buffers) [] (fun _ _ _ _ _ hk step =>
        (addDependency_frame (KernelM.run_update.1 step)).1.trans hk) rfl h₃
    exact ⟨_, (addDependency_frame h₅).1.trans ((replaceOp_frame h₄).1.trans
      (deps.trans (insertBefore_frame h₂).1))⟩
  | writer h b =>
    obtain ⟨f, k₁, new, k₂, k₃, h₁, h₂, h₃, h₄⟩ := materialize_writer_eq_ok.1 hm
    obtain ⟨-, -, -, rfl⟩ := addBuffer_eq_ok.1 h₁
    exact ⟨_, (addDependency_frame h₄).1.trans ((redirectDependents_alike new copy).1.trans
      ((insertAfter_frame h₃).1.trans (replaceOp_frame h₂).1))⟩

/-- Materializations declare buffers after the existing ones and leave those as they were. -/
theorem copySteps_buffers {k k' : Kernel} (h : Relation.ReflTransGen Kernel.CopyStep k k') :
    k.buffers.size ≤ k'.buffers.size ∧
      ∀ b : BufferId, b.idx < k.buffers.size → k'.buffer b = k.buffer b := by
  induction h with
  | refl => exact ⟨le_rfl, fun _ _ => rfl⟩
  | tail _ step ih =>
    obtain ⟨site, copy, hm⟩ := step
    obtain ⟨x, hx⟩ := materialize_buffers hm
    refine ⟨by simp only [hx, Array.size_push]; omega, fun b hb => ?_⟩
    have hb' : b.idx < _ := Nat.lt_of_lt_of_le hb ih.1
    rw [← ih.2 b hb]
    simp [Kernel.buffer, Kernel.buffer?, hx, Array.getElem?_push, Nat.ne_of_lt hb']

/-- A round reads the kernel and changes nothing. -/
theorem solveRound_keeps {o : CompileOptions} {k k₀ k' : Kernel}
    {r : Except LowerError (Except Conflict (List (BufferId × Layout)))}
    (h : (solveRound o k).run k₀ = .ok (r, k')) : k' = k₀ := by
  unfold solveRound at h
  rw [KernelM.run_bind, KernelM.run_lift, KernelM.run_attempt] at h
  rcases hD : (initialDomains k o).run with fault | e | D <;> simp only [hD, Except.mapError] at h
  · cases h
  · exact (Prod.mk.inj (Except.ok.inj h)).2.symm
  rw [KernelM.run_bind, KernelM.run_liftM] at h
  rcases hcs : liveConstraints k o.target with fault | cs <;> simp only [hcs] at h
  · cases h
  rw [KernelM.run_liftM] at h
  rcases hr : (Solver.solve cs D).run with fault | r' <;> simp only [hr] at h
  · cases h
  · exact (Prod.mk.inj (Except.ok.inj h)).2.symm

/-- A copy site found for a conflict of the live network separates a live op from its buffer. -/
theorem copySiteFor_live {o : CompileOptions} {k : Kernel} {cs : List Constraint}
    {D : Array (List Layout)} {c : Conflict} {s : CopySite}
    (hcs : liveConstraints k o.target = .ok cs) (hsolve : (Solver.solve cs D).run = .ok (.error c))
    (hs : copySiteFor o k c = some s) : ∃ h b, copySite k h b = some s ∧ h ∈ k.liveOps := by
  obtain ⟨h, b, hsite⟩ := copySiteFor_site hs
  obtain ⟨con, hcon, hop⟩ := Solver.solve_conflict_names hsolve _ (copySiteFor_op hs)
  obtain ⟨y, hy, csy, hyc, hcy⟩ := (liveConstraints_ok hcs).2 con hcon
  have hhy : h = y := (copySite_op hsite).symm.trans (hop.symm.trans (op_of_mem_opConstraints hyc hcy))
  exact ⟨h, b, hsite, hhy ▸ hy⟩

/-- Whatever the rounds answer, their kernel is reached by completed materializations and stays
assignable: a copy site of a conflict is at a live op, where a materialization goes through. -/
theorem solveWithCopies_copySteps {o : CompileOptions} :
    ∀ {budget : Nat} {copies : List OpId} {k k' : Kernel}
      {r : Except LowerError (List (BufferId × Layout) × List OpId)},
      k.Assignable → (solveWithCopies o budget copies).run k = .ok (r, k') →
      Relation.ReflTransGen Kernel.CopyStep k k' ∧ k'.Assignable
  | budget, copies, k, k', r, hA, h => by
    rw [solveWithCopies, KernelM.run_get_bind, KernelM.run_bind] at h
    rcases hr : (solveRound o k).run k with fault | ⟨x, k₁⟩ <;> rw [hr] at h
    · cases h
    obtain rfl := solveRound_keeps hr
    -- Unless a copy is made, the rounds end on the kernel they started from.
    have stop : ∀ {y}, (.ok (y, k₁) : Checked _) = .ok (r, k') →
        Relation.ReflTransGen Kernel.CopyStep k₁ k' ∧ k'.Assignable := fun h => by
      obtain ⟨-, rfl⟩ := Prod.mk.inj (Except.ok.inj h)
      exact ⟨.refl, hA⟩
    rcases x with e | c | a
    · exact stop h
    · obtain ⟨-, D, cs, -, hcs, hsolve⟩ := solveRound_ok hr
      cases budget with
      | zero => exact stop h
      | succ fuel =>
        rcases hs : copySiteFor o k₁ c with _ | s <;> simp only [hs] at h
        · exact stop h
        obtain ⟨x, b, hsite, hlive⟩ := copySiteFor_live hcs hsolve hs
        obtain ⟨copy, k₂, hm, hA₂⟩ := materialize_ok hA hsite hlive
        rw [KernelM.run_bind_of_ok (KernelM.run_lift_eq_ok.2 hm)] at h
        obtain ⟨steps, hA'⟩ := solveWithCopies_copySteps hA₂ h
        exact ⟨.head ⟨s, copy, hm⟩ steps, hA'⟩
    · exact stop h

/-- A first round that fails, or whose conflict no copy can resolve, ends the rounds on the
kernel they started from. -/
theorem solveWithCopies_first_round {o : CompileOptions} {budget : Nat} {copies : List OpId}
    {k k' : Kernel} {r : Except LowerError (List (BufferId × Layout) × List OpId)}
    (first : (∃ e k₀, (solveRound o k).run k = .ok (.error e, k₀)) ∨
      ∃ c k₀, (solveRound o k).run k = .ok (.ok (.error c), k₀) ∧ copySiteFor o k c = none)
    (h : (solveWithCopies o budget copies).run k = .ok (r, k')) : k' = k := by
  rw [solveWithCopies, KernelM.run_get_bind, KernelM.run_bind] at h
  rcases first with ⟨e, k₀, hr⟩ | ⟨c, k₀, hr, hs⟩ <;> rw [hr] at h <;> obtain rfl := solveRound_keeps hr
  · exact (Prod.mk.inj (Except.ok.inj h)).2.symm
  · cases budget <;> simp only [hs] at h <;> exact (Prod.mk.inj (Except.ok.inj h)).2.symm

/-- When the rounds succeed, so does the assignment: the final attaching cannot fail, each
answer lying in the initial domain of its buffer, which fits the buffer. -/
theorem assignLayouts_of_solved {o : CompileOptions} {k k₁ : Kernel}
    {r : List (BufferId × Layout) × List OpId} (hA : k.Assignable)
    (hs : (solveWithCopies o k.liveOps.length []).run k = .ok (.ok r, k₁)) :
    ∃ k₂, (assignLayouts o).run k = .ok (.ok r.2, k₂) := by
  obtain ⟨-, hA₁⟩ := solveWithCopies_copySteps hA hs
  obtain ⟨-, D, cs, hD, -, hsolve⟩ := solveWithCopies_ok hs ⟨hA.removedExist, by simp⟩
  obtain ⟨hsize, hne, hdom⟩ := initialDomains_ok hD
  obtain ⟨a, hr, mem, -⟩ := Solver.solve_sound hsolve hne
  have fits : ∀ d ∈ r.1, d.1.idx < k₁.buffers.size ∧
      ((k₁.buffer d.1).layout = none → d.2.Fits (k₁.buffer d.1)) := by
    intro d hd
    rw [hr] at hd
    obtain ⟨i, hi, rfl⟩ := List.mem_map.1 hd
    have hb : i < k₁.buffers.size := hsize ▸ List.mem_range.1 hi
    obtain ⟨dom, hdom, hdD⟩ := hdom ⟨i⟩ hb
    exact ⟨hb, fun hl => initialDomain_fits hdom hl
      (hA₁.declarable _ (Kernel.buffer_mem hb)).2.2.1 _ (hdD ▸ mem ⟨i⟩ (hsize ▸ hb))⟩
  obtain ⟨k₂, hattach⟩ := attach_loop fits
  refine ⟨k₂, ?_⟩
  rw [assignLayouts, KernelM.run_get_bind]
  exact (KernelM.run_bind_of_ok hs).trans ((KernelM.run_bind_of_ok hattach).trans KernelM.run_pure)

/-- **A failed layout assignment attaches nothing.** On a kernel layout assignment can receive
(formed, without a cycle of dependencies, every buffer declarable again: every kernel the
interface builds, `Kernel.Built.assignable`), a failed assignment reaches its kernel by completed materializations alone, each a fresh buffer, its
relayout copy and the rewritten op, and leaves every buffer there was as it was, its layout
included. A failure of the first round, or a conflict of it that no copy can resolve, leaves the
kernel exactly as it was. When the rounds succeed the assignment does: no attaching fails. -/
theorem assignLayouts_failure_attaches_nothing {o : CompileOptions} {k : Kernel} (hA : k.Assignable) :
    (∀ e k', (assignLayouts o).run k = .ok (.error e, k') →
      Relation.ReflTransGen Kernel.CopyStep k k' ∧
        (∀ b : BufferId, b.idx < k.buffers.size → k'.buffer b = k.buffer b) ∧
        ((∃ e₀ k₀, (solveRound o k).run k = .ok (.error e₀, k₀)) ∨
          (∃ c k₀, (solveRound o k).run k = .ok (.ok (.error c), k₀) ∧ copySiteFor o k c = none) →
          k' = k)) ∧
      ∀ r k₁, (solveWithCopies o k.liveOps.length []).run k = .ok (.ok r, k₁) →
        ∃ k₂, (assignLayouts o).run k = .ok (.ok r.2, k₂) := by
  refine ⟨fun e k' h => ?_, fun r k₁ hs => assignLayouts_of_solved hA hs⟩
  -- The failure is the rounds': once they succeed, the attaching does too.
  have hs : (solveWithCopies o k.liveOps.length []).run k = .ok (.error e, k') := by
    have h' := h
    rw [assignLayouts, KernelM.run_get_bind] at h'
    rcases KernelM.run_bind_eq_error.1 h' with hs | ⟨r, k₁, hs, -⟩
    · exact hs
    · obtain ⟨k₂, h₂⟩ := assignLayouts_of_solved hA hs
      rw [h₂] at h
      cases h
  obtain ⟨steps, -⟩ := solveWithCopies_copySteps hA hs
  exact ⟨steps, (copySteps_buffers steps).2, fun first => solveWithCopies_first_round first hs⟩

/-- Layout assignment on `Kernel.roundTrip`, however it ends, attaches nothing on failure. -/
theorem roundTrip_assignment_attaches_nothing :
    Kernel.roundTrip.Assignable ∧
      ∀ e k', (assignLayouts { target := Target.sm80 }).run Kernel.roundTrip = .ok (.error e, k') →
        ∀ b : BufferId, b.idx < Kernel.roundTrip.buffers.size →
          k'.buffer b = Kernel.roundTrip.buffer b :=
  ⟨Kernel.roundTrip_built.assignable, fun e k' h =>
    ((assignLayouts_failure_attaches_nothing Kernel.roundTrip_built.assignable).1 e k' h).2.1⟩

/-! ### Conflicts are real -/

/-- In a formed kernel every constraint of a live op stays on the kernel's buffers: it names the
op's operands, which the operand checks found. -/
theorem Kernel.Formed.constraintsOnBuffers {k : Kernel} (hF : k.Formed) (t : Target) :
    k.ConstraintsOnBuffers t := by
  intro x hx cs hcs c hc b hb
  obtain ⟨o, ho, rfl⟩ := mem_operands_of_touches hcs hc hb
  obtain ⟨y, hy⟩ := buffer?_of_checkOperands
    (hF.operandsChecked x (hF.placedExist x (hF.liveOps_eq ▸ hx))) o ho
  exact lt_of_buffer? hy

/-- **A reported layout conflict is real.** On a kernel layout assignment can receive, the kernel
a conflict leaves, with the copies inserted before it, admits no layout per buffer drawn from its
initial domain under which every constraint of every live op holds: the rounds keep the kernel
formed, so its constraints stay on its buffers and the solver's conflict rules out every answer. -/
theorem assignLayouts_conflict_unsolvable {o : CompileOptions} {k k' : Kernel} {n f s : String}
    (hA : k.Assignable) (h : (assignLayouts o).run k = .ok (.error (.layoutConflict n f s), k')) :
    ¬ ∃ a, k'.Answers o a := by
  rintro ⟨a, ans⟩
  unfold assignLayouts at h
  rw [KernelM.run_get_bind] at h
  rcases KernelM.run_bind_eq_error.1 h with hs | ⟨_, kr, -, h⟩
  · obtain ⟨-, hA'⟩ := solveWithCopies_copySteps hA hs
    obtain ⟨D, cs, c, hD, hcs, hsolve⟩ := solveWithCopies_conflict hs
    exact Solver.solve_conflict hsolve
      ⟨a, solves_of_answers hD hcs ans (hA'.toFormed.constraintsOnBuffers o.target)⟩
  -- Attaching fails only with kernel errors, never with a conflict.
  rcases KernelM.run_bind_eq_error.1 h with hf | ⟨_, _, -, h⟩
  · obtain ⟨d, -, k₁, hd⟩ := KernelM.run_forM_error hf
    rw [KernelM.run_get_bind] at hd
    split at hd
    · obtain ⟨e', he⟩ := KernelM.run_lift_eq_error hd
      cases he
    · cases hd
  · cases h

/-- A cast between two global buffers whose layouts disagree on the innermost dimension. -/
def transposedCast : Kernel where
  name := "cast"
  buffers := #[
    { name := "src", shape := [2, 2], dtype := Scalar.f32, scope := .global
      layout := some (Layout.rowMajor [2, 2]) },
    { name := "dst", shape := [2, 2], dtype := Scalar.f32, scope := .global
      layout := some (.dense (DenseLayout.colMajor [2, 2])) }]
  ops := #[{ name := "c", kind := .cast, inputs := [.whole ⟨0⟩], outputs := [.whole ⟨1⟩] }]
  body := [.op ⟨0⟩]

theorem transposedCast_built : transposedCast.Built :=
  ⟨"cast", .head (Kernel.Call.addBuffer
      (b := { name := "src", shape := [2, 2], dtype := Scalar.f32, scope := .global })
      (by with_unfolding_all rfl)) <|
    .head (Kernel.Call.addBuffer
      (b := { name := "dst", shape := [2, 2], dtype := Scalar.f32, scope := .global })
      (by with_unfolding_all rfl)) <|
    .head (Kernel.Call.attachLayout (b := ⟨0⟩) (l := Layout.rowMajor [2, 2]) (by with_unfolding_all rfl)) <|
    .head (Kernel.Call.attachLayout (b := ⟨1⟩) (l := .dense (DenseLayout.colMajor [2, 2]))
      (by with_unfolding_all rfl)) <|
    .head (Kernel.Call.addOp
      (o := { name := "c", kind := .cast, inputs := [.whole ⟨0⟩], outputs := [.whole ⟨1⟩] })
      (by with_unfolding_all rfl)) <|
    .single (Kernel.Call.push (h := ⟨0⟩) (by with_unfolding_all rfl))⟩

/-- The conflict `transposedCast` reports is real. -/
theorem transposedCast_unanswerable : transposedCast.Assignable ∧
    ¬ ∃ a, transposedCast.Answers { target := Target.sm80 } a := by
  have run : (assignLayouts { target := Target.sm80 }).run transposedCast =
      .ok (.error (.layoutConflict "src" "the declaration admits [dense[0,1]]" "`c` admits []"),
        transposedCast) := by
    rw [assignLayouts, KernelM.run_get_bind]
    dsimp only
    rw [solveWithCopies]
    rfl
  exact ⟨transposedCast_built.assignable,
    assignLayouts_conflict_unsolvable transposedCast_built.assignable run⟩

end TileKernel