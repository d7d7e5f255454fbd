import TileKernel.Proofs.Edits
import TileKernel.Proofs.Solve
import Mathlib.Data.List.Forall2

/-!
# Layout assignment is sound, and its conflicts are real

`assignLayouts` solves the layout network of the kernel's live ops, inserting a materializing
copy whenever the solver reports a conflict a copy may separate, and finally attaches the answer
to the buffers that have no layout yet.

* `assignLayouts_sound`: on success every buffer carries one layout of its initial domain, the
  attached layouts satisfy every constraint of every live op, and every copy reported is a live
  relayout copy;
* `solves_of_answers`: a layout per buffer, drawn from the initial domains and satisfying the
  constraints of the live ops, solves the network the solver is given when those constraints stay
  on the kernel's buffers, so a conflict the solver reports leaves no such answer
  (`assignLayouts_conflict_unsolvable`, once the kernel a conflict leaves is known to be formed).

Both come from the solver (`Solver.solve_sound`, `Solver.solve_conflict`) applied to the last
round. Copies survive the later rounds because a conflict only blames ops that declared a
constraint (`Solver.solve_conflict_names`) and relayout copies declare none, so no later copy
replaces one.
-/

set_option autoImplicit false

namespace TileKernel

/-! ### Monadic maps -/

section Maps

variable {ε α β : Type}

theorem mapM_eq_ok {f : α → Except ε β} :
    ∀ {l : List α} {r : List β}, l.mapM f = .ok r → List.Forall₂ (fun x y => f x = .ok y) l r
  | [], r, h => by
    obtain rfl := Except.ok.inj h
    exact .nil
  | x :: l, r, h => by
    rw [List.mapM_cons] at h
    simp only [bind, Except.bind] at h
    split at h
    · cases h
    split at h
    · cases h
    obtain rfl := Except.ok.inj h
    exact .cons ‹_› (mapM_eq_ok ‹_›)

theorem mapM_eq_ok_map {f : α → Except ε β} {g : α → β} :
    ∀ {l : List α}, (∀ x ∈ l, f x = .ok (g x)) → l.mapM f = .ok (l.map g)
  | [], _ => rfl
  | x :: l, h => by
    rw [List.mapM_cons, h x List.mem_cons_self, mapM_eq_ok_map fun y hy => h y (List.mem_cons_of_mem x hy)]
    rfl

theorem run_mapM_eq_ok {f : α → ExceptT ε Checked β} :
    ∀ {l : List α} {r : List β}, (l.mapM f).run = .ok (.ok r) →
      List.Forall₂ (fun x y => (f x).run = .ok (.ok y)) l r
  | [], r, h => by
    obtain rfl := Except.ok.inj (Except.ok.inj h)
    exact .nil
  | x :: l, r, h => by
    rw [List.mapM_cons] at h
    obtain ⟨y, hy, h⟩ := run_bind_eq_ok.1 h
    obtain ⟨ys, hys, h⟩ := run_bind_eq_ok.1 h
    obtain rfl := Except.ok.inj (Except.ok.inj h)
    exact .cons hy (run_mapM_eq_ok hys)

variable {R : α → β → Prop}

theorem forall₂_exists_of_mem_left : ∀ {l : List α} {r : List β}, List.Forall₂ R l r →
    ∀ {x}, x ∈ l → ∃ y ∈ r, R x y
  | _, _, .nil, _, hx => absurd hx List.not_mem_nil
  | _, _, .cons hxy h, _, hx => by
    rcases List.mem_cons.1 hx with rfl | hx
    · exact ⟨_, List.mem_cons_self .., hxy⟩
    · obtain ⟨y, hy, h'⟩ := forall₂_exists_of_mem_left h hx
      exact ⟨y, List.mem_cons_of_mem _ hy, h'⟩

theorem forall₂_exists_of_mem_right : ∀ {l : List α} {r : List β}, List.Forall₂ R l r →
    ∀ {y}, y ∈ r → ∃ x ∈ l, R x y
  | _, _, .nil, _, hy => absurd hy List.not_mem_nil
  | _, _, .cons hxy h, _, hy => by
    rcases List.mem_cons.1 hy with rfl | hy
    · exact ⟨_, List.mem_cons_self .., hxy⟩
    · obtain ⟨x, hx, h'⟩ := forall₂_exists_of_mem_right h hy
      exact ⟨x, List.mem_cons_of_mem _ hx, h'⟩

end Maps

/-! ### The network of a kernel -/

section Network

variable {k : Kernel} {o : CompileOptions} {t : Target}

theorem run_bind_throw_ne_ok {ε α β : Type} {x : ExceptT ε Checked α} {f : α → ε} {b : β} :
    (x >>= fun a => throw (f a)).run ≠ .ok (.ok b) := by
  intro h
  obtain ⟨a, -, he⟩ := run_bind_eq_ok.1 h
  nomatch Except.ok.inj he

/-- Every initial domain offers a layout: the attached one, the hint, or the scope's candidates,
which must not run out. -/
theorem initialDomain_ne_nil {b : Buffer} {d : List Layout}
    (h : (initialDomain b o).run = .ok (.ok d)) : d ≠ [] := by
  unfold initialDomain at h
  split at h
  · obtain rfl := Except.ok.inj (Except.ok.inj h)
    exact List.cons_ne_nil _ _
  · split at h
    · obtain ⟨cands, -, h⟩ := run_bind_eq_ok.1 h
      split_ifs at h with he
      · exact absurd h run_bind_throw_ne_ok
      · obtain rfl := Except.ok.inj (Except.ok.inj h)
        simpa using he
    · split_ifs at h
      · nomatch Except.ok.inj h
      · split at h
        · obtain ⟨_, -, h⟩ := run_bind_eq_ok.1 h
          obtain rfl := Except.ok.inj (Except.ok.inj h)
          exact List.cons_ne_nil _ _
        · split_ifs at h
          · obtain rfl := Except.ok.inj (Except.ok.inj h)
            exact List.cons_ne_nil _ _
          · nomatch Except.ok.inj h
        · nomatch Except.ok.inj h

/-- The initial domains, one per buffer in handle order, none of them empty. -/
theorem initialDomains_ok {D : Array (List Layout)} (h : (initialDomains k o).run = .ok (.ok D)) :
    D.size = k.buffers.size ∧ (∀ d ∈ D, d ≠ []) ∧
      ∀ b, b.idx < k.buffers.size →
        ∃ d, (initialDomain (k.buffer b) o).run = .ok (.ok d) ∧ domainAt D b = d := by
  unfold initialDomains at h
  obtain ⟨r, hr, h⟩ := run_bind_eq_ok.1 h
  obtain rfl := Except.ok.inj (Except.ok.inj h)
  have all := run_mapM_eq_ok hr
  refine ⟨by simp [← all.length_eq], fun d hd => ?_, fun b hb => ?_⟩
  · obtain ⟨x, -, hx⟩ := forall₂_exists_of_mem_right all (by simpa using hd)
    exact initialDomain_ne_nil hx
  · have hb' : b.idx < k.buffers.toList.length := by simpa using hb
    have hr' : b.idx < r.length := all.length_eq ▸ hb'
    refine ⟨r[b.idx], ?_, by simp [domainAt, hr']⟩
    have := all.get hb' hr'
    simpa [Kernel.buffer, Kernel.buffer?, Array.getElem?_eq_getElem hb] using this

/-- The network gathers the constraints of every live op, and nothing else. -/
theorem liveConstraints_ok {cs : List Constraint} (h : liveConstraints k t = .ok cs) :
    (∀ x ∈ k.liveOps, ∃ csx, opConstraints k t x = .ok csx ∧ ∀ c ∈ csx, c ∈ cs) ∧
      ∀ c ∈ cs, ∃ x ∈ k.liveOps, ∃ csx, opConstraints k t x = .ok csx ∧ c ∈ csx := by
  unfold liveConstraints at h
  simp only [bind, Except.bind] at h
  split at h
  · cases h
  rename_i r hr
  obtain rfl := Except.ok.inj h
  have all := mapM_eq_ok hr
  constructor
  · intro x hx
    obtain ⟨csx, hcsx, hx'⟩ := forall₂_exists_of_mem_left all hx
    exact ⟨csx, hx', fun c hc => List.mem_flatten.2 ⟨csx, hcsx, hc⟩⟩
  · intro c hc
    obtain ⟨csx, hcsx, hc'⟩ := List.mem_flatten.1 hc
    obtain ⟨x, hx, hx'⟩ := forall₂_exists_of_mem_right all hcsx
    exact ⟨x, hx, csx, hx', hc'⟩

/-- Every constraint an op declares names that op. -/
theorem op_of_mem_opConstraints {x : OpId} {cs : List Constraint} (h : opConstraints k t x = .ok cs)
    {c : Constraint} (hc : c ∈ cs) : c.op = x := by
  unfold opConstraints at h
  simp only [pure, Except.pure, bind, Except.bind] at h
  repeat' split at h
  -- Every branch answers a list of constraints built with `x`, or faults.
  all_goals cases h
  all_goals first
    | exact absurd hc List.not_mem_nil
    | rw [List.mem_singleton] at hc
      subst hc
      rfl
    | obtain ⟨_, -, hc⟩ := List.mem_filterMap.1 hc
      split_ifs at hc <;> cases hc <;> rfl

/-- Every buffer a constraint of an op touches is the buffer of one of the op's operands. -/
theorem mem_operands_of_touches {x : OpId} {cs : List Constraint} (h : opConstraints k t x = .ok cs)
    {c : Constraint} (hc : c ∈ cs) {b : BufferId} (hb : c.touches b = true) :
    ∃ o ∈ (k.op x).operands, o.buffer = b := by
  unfold opConstraints at h
  simp only [pure, Except.pure, bind, Except.bind] at h
  repeat' split at h
  -- Every branch builds its constraints from the operands it matched, or faults.
  all_goals cases h
  all_goals
    simp only [TileOp.operands]
    grind [Constraint.touches]

/-- A relayout copy declares no constraint: it accepts any layouts. -/
theorem opConstraints_materialize {x : OpId} {v : Option Nat} (hx : (k.op x).kind = .copy v true) :
    opConstraints k t x = .ok [] := by
  unfold opConstraints
  dsimp only
  rw [hx]
  rcases (k.op x).inputs with _ | ⟨_, _ | _⟩ <;> rcases (k.op x).outputs with _ | ⟨_, _ | _⟩ <;> rfl

end Network

/-! ### Copies -/

/-- The op a copy site separates from its buffer. -/
def CopySite.op : CopySite → OpId
  | .reader h _ | .writer h _ => h

open Kernel KernelM in
/-- A materializing copy keeps every live op but the one it separates from the buffer, and is
itself a live relayout copy. -/
theorem materialize_keeps {k k' : Kernel} {site : CopySite} {copy : OpId}
    (h : (materialize site).run k = .ok (.ok copy, k')) (hw : k.RemovedExist) :
    k.Keeps k' [site.op] ∧ copy ∈ k'.liveOps ∧ (k'.op copy).kind = .copy none true := by
  cases site with
  | reader x b =>
    simp only [materialize] at h
    rw [run_get_bind] at h
    obtain ⟨fresh, k₁, h₁, h⟩ := KernelM.run_bind_eq_ok.1 h
    rw [run_get_bind] at h
    obtain ⟨copy', k₂, h₂, h⟩ := KernelM.run_bind_eq_ok.1 h
    rw [run_get_bind] at h
    obtain ⟨_, k₃, h₃, h⟩ := KernelM.run_bind_eq_ok.1 h
    obtain ⟨new, k₄, h₄, h⟩ := KernelM.run_bind_eq_ok.1 h
    obtain ⟨_, k₅, h₅, h⟩ := KernelM.run_bind_eq_ok.1 h
    rw [run_pure] at h
    obtain ⟨hc, rfl⟩ := Prod.mk.inj (Except.ok.inj h)
    obtain rfl := Except.ok.inj hc
    have keep₁ := keeps_addBuffer (run_edit.1 h₁)
    obtain ⟨keep₂, hx, rfl, kind₂, live₂⟩ := insertBefore_keeps (run_edit.1 h₂)
    have keep₃ := keeps_forM_addDependency h₃
    obtain ⟨keep₄, -, -⟩ := replaceOp_keeps (run_edit.1 h₄)
    have keep₅ := keeps_addDependency (run_update.1 h₅)
    have kind₃ := (keep₃.kind _ (lt_size_of_kind_copy kind₂)).trans kind₂
    -- The copy is fresh, so the replacement of `x` keeps it.
    have fresh : (⟨k₁.ops.size⟩ : OpId) ∉ [x] := fun he => by
      rw [List.mem_singleton] at he
      exact Nat.lt_irrefl _ (he ▸ hx)
    refine ⟨(((keep₁.trans keep₂).trans keep₃).trans keep₄).trans keep₅ |>.mono (by simp [CopySite.op]), ?_, ?_⟩
    · exact keep₅.live _ (keep₄.live _ (keep₃.live _ (live₂ (keep₁.removedExist hw)) List.not_mem_nil)
        fresh) List.not_mem_nil
    · rw [keep₅.kind _ (Nat.lt_of_lt_of_le (lt_size_of_kind_copy kind₃) keep₄.size),
        keep₄.kind _ (lt_size_of_kind_copy kind₃), kind₃]
      rfl
  | writer x b =>
    simp only [materialize] at h
    rw [run_get_bind] at h
    obtain ⟨fresh, k₁, h₁, h⟩ := KernelM.run_bind_eq_ok.1 h
    rw [run_get_bind] at h
    obtain ⟨new, k₂, h₂, h⟩ := KernelM.run_bind_eq_ok.1 h
    obtain ⟨copy', k₃, h₃, h⟩ := KernelM.run_bind_eq_ok.1 h
    obtain ⟨_, k₄, h₄, h⟩ := KernelM.run_bind_eq_ok.1 h
    obtain ⟨_, k₅, h₅, h⟩ := KernelM.run_bind_eq_ok.1 h
    rw [run_pure] at h
    obtain ⟨hc, rfl⟩ := Prod.mk.inj (Except.ok.inj h)
    obtain rfl := Except.ok.inj hc
    rw [run_modify] at h₄
    obtain ⟨-, rfl⟩ := Prod.mk.inj (Except.ok.inj h₄)
    have keep₁ := keeps_addBuffer (run_edit.1 h₁)
    obtain ⟨keep₂, -, -⟩ := replaceOp_keeps (run_edit.1 h₂)
    obtain ⟨keep₃, -, -, kind₃, live₃⟩ := insertAfter_keeps (run_edit.1 h₃)
    have keep₄ : k₃.Keeps (k₃.redirectDependents new copy') [] := keeps_redirectDependents
    have keep₅ := keeps_addDependency (run_update.1 h₅)
    have kind₄ := (keep₄.kind _ (lt_size_of_kind_copy kind₃)).trans kind₃
    refine ⟨(((keep₁.trans keep₂).trans keep₃).trans keep₄).trans keep₅ |>.mono (by simp [CopySite.op]), ?_, ?_⟩
    · exact keep₅.live _ (keep₄.live _ (live₃ ((keep₁.trans keep₂).removedExist hw)) List.not_mem_nil)
        List.not_mem_nil
    · rw [keep₅.kind _ (lt_size_of_kind_copy kind₄), kind₄]
      rfl


theorem copySite_op {k : Kernel} {h : OpId} {b : BufferId} {s : CopySite}
    (hs : copySite k h b = some s) : s.op = h := by
  unfold copySite at hs
  dsimp only at hs
  split_ifs at hs <;> cases hs <;> rfl

/-- The op a copy would separate is one the conflict blames. -/
theorem copySiteFor_op {o : CompileOptions} {k : Kernel} {c : Conflict} {s : CopySite}
    (hs : copySiteFor o k c = some s) : c.first.op = some s.op ∨ c.second.op = some s.op := by
  unfold copySiteFor at hs
  obtain ⟨⟨op, b⟩, hp, hs⟩ := List.exists_of_findSome?_eq_some hs
  dsimp only at hs
  split_ifs at hs
  obtain ⟨h, rfl, hs⟩ := Option.bind_eq_some_iff.1 hs
  rw [copySite_op hs]
  simp only [conflictSites, List.cons_append, List.nil_append, List.mem_cons] at hp
  rcases hp with hp | hp | hp
  · exact .inr (Prod.mk.inj hp).1.symm
  · exact .inl (Prod.mk.inj hp).1.symm
  · split at hp
    · rcases List.mem_singleton.1 hp with hp
      exact .inr (Prod.mk.inj hp).1.symm
    · exact absurd hp List.not_mem_nil

/-! ### Rounds -/

section Rounds

variable {o : CompileOptions} {k k₀ k' : Kernel}

/-- A round leaves the kernel alone and answers what the solver answers on the kernel's network. -/
theorem solveRound_ok {r : Except Conflict (List (BufferId × Layout))}
    (h : (solveRound o k).run k₀ = .ok (.ok r, k')) :
    k' = k₀ ∧ ∃ D cs, (initialDomains k o).run = .ok (.ok D) ∧ liveConstraints k o.target = .ok cs ∧
      (Solver.solve cs D).run = .ok r := by
  unfold solveRound at h
  obtain ⟨D, k₁, h₁, h⟩ := KernelM.run_bind_eq_ok.1 h
  obtain ⟨cs, k₂, h₂, h⟩ := KernelM.run_bind_eq_ok.1 h
  rw [KernelM.run_lift_eq_ok, KernelM.run_attempt] at h₁
  rw [KernelM.run_liftM] at h₂ h
  rcases hD : (initialDomains k o).run with _ | _ | D' <;> rw [hD] at h₁ <;> simp at h₁
  rcases hcs : liveConstraints k o.target with _ | cs' <;> rw [hcs] at h₂ <;> simp at h₂
  rcases hr : (Solver.solve cs D).run with _ | r' <;> rw [hr] at h <;> simp at h
  obtain ⟨rfl, rfl⟩ := h₁
  obtain ⟨rfl, rfl⟩ := h₂
  obtain ⟨rfl, rfl⟩ := h
  exact ⟨rfl, D', cs', rfl, rfl, hr⟩

/-- A round fails only on a kernel error. -/
theorem solveRound_error {e : LowerError} (h : (solveRound o k).run k₀ = .ok (.error e, k')) :
    ∃ e', e = .kernel e' := by
  unfold solveRound at h
  rcases KernelM.run_bind_eq_error.1 h with h₁ | ⟨D, k₁, -, h⟩
  · exact KernelM.run_lift_eq_error h₁
  rcases KernelM.run_bind_eq_error.1 h with h₂ | ⟨cs, k₂, -, h⟩
  · rw [KernelM.run_liftM] at h₂
    split at h₂ <;> simp at h₂
  · rw [KernelM.run_liftM] at h
    split at h <;> simp at h

/-- What the rounds keep: the copies so far are live relayout copies, and removed handles name
ops. -/
def CopiesLive (k : Kernel) (copies : List OpId) : Prop :=
  k.RemovedExist ∧ ∀ x ∈ copies, x ∈ k.liveOps ∧ (k.op x).kind = .copy none true

/-- A copy separates an op the conflict blames, which declared a constraint; relayout copies
declare none, so the op is not one of the copies. -/
theorem site_not_copy {copies : List OpId} {cs : List Constraint} {D : Array (List Layout)}
    {c : Conflict} {s : CopySite} (hlive : CopiesLive k copies)
    (hcs : liveConstraints k o.target = .ok cs) (hsolve : (Solver.solve cs D).run = .ok (.error c))
    (hs : copySiteFor o k c = some s) : s.op ∉ copies := by
  intro hcopy
  obtain ⟨con, hcon, hop⟩ := Solver.solve_conflict_names hsolve _ (copySiteFor_op hs)
  obtain ⟨y, -, csy, hy, hcy⟩ := (liveConstraints_ok hcs).2 con hcon
  have hsy : s.op = y := hop.symm.trans (op_of_mem_opConstraints hy hcy)
  rw [opConstraints_materialize (hsy ▸ (hlive.2 _ hcopy).2)] at hy
  obtain rfl := Except.ok.inj hy
  exact List.not_mem_nil hcy

/-- A round that inserts a copy keeps the copies live and adds a live one. -/
theorem copiesLive_materialize {copies : List OpId} {s : CopySite} {copy : OpId}
    (hlive : CopiesLive k copies) (hs : s.op ∉ copies)
    (hm : (materialize s).run k = .ok (.ok copy, k')) : CopiesLive k' (copies ++ [copy]) := by
  obtain ⟨keep, live, kind⟩ := materialize_keeps hm hlive.1
  refine ⟨keep.removedExist hlive.1, fun x hx => ?_⟩
  rcases List.mem_append.1 hx with hx | hx
  · obtain ⟨hxl, hxk⟩ := hlive.2 x hx
    have hne : x ∉ [s.op] := fun he => hs (List.mem_singleton.1 he ▸ hx)
    exact ⟨keep.live x hxl hne, (keep.kind x (Kernel.lt_size_of_kind_copy hxk)).trans hxk⟩
  · rw [List.mem_singleton.1 hx]
    exact ⟨live, kind⟩

/-- **The rounds.** When copies end the conflicts, the last round's network has the solution
answered, and every copy inserted is a live relayout copy. -/
theorem solveWithCopies_ok {assignment : List (BufferId × Layout)} :
    ∀ {budget : Nat} {copies copies' : List OpId} {k k' : Kernel},
      (solveWithCopies o budget copies).run k = .ok (.ok (assignment, copies'), k') →
      CopiesLive k copies →
      CopiesLive k' copies' ∧ ∃ D cs, (initialDomains k' o).run = .ok (.ok D) ∧
        liveConstraints k' o.target = .ok cs ∧ (Solver.solve cs D).run = .ok (.ok assignment)
  | budget, copies, copies', k, k', h, hlive => by
    rw [solveWithCopies, KernelM.run_get_bind] at h
    obtain ⟨r, k₁, hr, h⟩ := KernelM.run_bind_eq_ok.1 h
    obtain ⟨hk, D, cs, hD, hcs, hsolve⟩ := solveRound_ok hr
    rw [hk] at h
    rcases r with c | a
    · -- A conflict: the round goes on only through a copy.
      cases budget with
      | zero => nomatch Except.ok.inj h
      | succ fuel =>
        simp only at h
        split at h
        · rename_i s hs
          obtain ⟨copy, k₂, hm, h⟩ := KernelM.run_bind_eq_ok.1 h
          rw [KernelM.run_lift_eq_ok] at hm
          exact solveWithCopies_ok h
            (copiesLive_materialize hlive (site_not_copy hlive hcs hsolve hs) hm)
        · nomatch Except.ok.inj h
    · simp only [KernelM.run_pure, Except.ok.injEq, Prod.mk.injEq] at h
      obtain ⟨⟨rfl, rfl⟩, rfl⟩ := h
      exact ⟨hlive, D, cs, hD, hcs, hsolve⟩

/-- **The rounds end in a real conflict.** A layout conflict is reported on the kernel the last
round solved, whose network the solver found in conflict. -/
theorem solveWithCopies_conflict {n f s : String} :
    ∀ {budget : Nat} {copies : List OpId} {k k' : Kernel},
      (solveWithCopies o budget copies).run k = .ok (.error (.layoutConflict n f s), k') →
      ∃ D cs c, (initialDomains k' o).run = .ok (.ok D) ∧ liveConstraints k' o.target = .ok cs ∧
        (Solver.solve cs D).run = .ok (.error c)
  | budget, copies, k, k', h => by
    rw [solveWithCopies, KernelM.run_get_bind] at h
    rcases KernelM.run_bind_eq_error.1 h with hr | ⟨r, k₁, hr, h⟩
    · obtain ⟨e', he⟩ := solveRound_error hr
      cases he
    obtain ⟨hk, D, cs, hD, hcs, hsolve⟩ := solveRound_ok hr
    rw [hk] at h
    rcases r with c | a
    · have thrown : (throw (conflictError k c) : KernelM LowerError
          (List (BufferId × Layout) × List OpId)).run k = .ok (.error (.layoutConflict n f s), k') →
          ∃ D cs c, (initialDomains k' o).run = .ok (.ok D) ∧ liveConstraints k' o.target = .ok cs ∧
            (Solver.solve cs D).run = .ok (.error c) := fun h => by
        obtain ⟨-, rfl⟩ := Prod.mk.inj (Except.ok.inj h)
        exact ⟨D, cs, c, hD, hcs, hsolve⟩
      cases budget with
      | zero => exact thrown h
      | succ fuel =>
        simp only at h
        split at h
        · rcases KernelM.run_bind_eq_error.1 h with hm | ⟨copy, k₂, -, h⟩
          · obtain ⟨e', he⟩ := KernelM.run_lift_eq_error hm
            cases he
          · exact solveWithCopies_conflict h
        · exact thrown h
    · nomatch Except.ok.inj h

end Rounds

/-! ### Attaching the answer -/

section Attach

variable {k k' kr kx : Kernel} {a : BufferId → Layout}

theorem buffer_modifyBuffer {b b' : BufferId} {F : Buffer → Buffer} (hb : b.idx < k.buffers.size) :
    (k.modifyBuffer b F).buffer b' = if b = b' then F (k.buffer b') else k.buffer b' := by
  obtain ⟨i⟩ := b
  obtain ⟨j⟩ := b'
  by_cases hij : i = j
  · subst hij
    simp [Kernel.buffer, Kernel.buffer?, Kernel.modifyBuffer, Array.getElem?_modify,
      Array.getElem?_eq_getElem hb]
  · simp [Kernel.buffer, Kernel.buffer?, Kernel.modifyBuffer, Array.getElem?_modify, hij]

/-- `kx` is `kr` with the answer `a` attached to the buffers of `done`: only layouts change. -/
structure Attached (kr kx : Kernel) (a : BufferId → Layout) (done : List (BufferId × Layout)) :
    Prop where
  ops : kx.ops = kr.ops
  body : kx.body = kr.body
  loops : kx.loops = kr.loops
  removed : kx.removed = kr.removed
  size : kx.buffers.size = kr.buffers.size
  buffer : ∀ b, kx.buffer b =
    if b ∈ done.map Prod.fst then { kr.buffer b with layout := some (a b) } else kr.buffer b

theorem Attached.refl (kr : Kernel) (a : BufferId → Layout) : Attached kr kr a [] :=
  ⟨rfl, rfl, rfl, rfl, rfl, fun _ => by simp⟩

theorem Attached.liveOps {done : List (BufferId × Layout)} (h : Attached kr kx a done) :
    kx.liveOps = kr.liveOps :=
  Kernel.liveOps_congr h.body h.loops h.removed

theorem Attached.op {done : List (BufferId × Layout)} (h : Attached kr kx a done) (x : OpId) :
    kx.op x = kr.op x := by
  simp only [Kernel.op, Kernel.op?, h.ops]

/-- Attaching layouts leaves every constraint as it was: constraints read the ops and the
buffers' scopes, shapes and types. -/
theorem Attached.opConstraints {done : List (BufferId × Layout)} (h : Attached kr kx a done)
    (t : Target) (x : OpId) : opConstraints kx t x = opConstraints kr t x := by
  have same : ∀ b, (kx.buffer b).scope = (kr.buffer b).scope ∧ (kx.buffer b).shape = (kr.buffer b).shape ∧
      (kx.buffer b).dtype = (kr.buffer b).dtype := fun b => by
    rw [h.buffer b]
    split_ifs <;> exact ⟨rfl, rfl, rfl⟩
  have hscope := fun b => (same b).1
  have hshape := fun b => (same b).2.1
  have hdtype := fun b => (same b).2.2
  unfold TileKernel.opConstraints
  simp only [h.op, hscope, hshape, hdtype]

/-- A buffer with a layout has just that layout as its initial domain. -/
theorem initialDomain_of_layout {o : CompileOptions} {bf : Buffer} {l : Layout}
    (hl : bf.layout = some l) : (initialDomain bf o).run = .ok (.ok [l]) := by
  unfold initialDomain
  rw [hl]
  rfl

/-- One step of the attaching loop, on a buffer whose layout, if any, is its answer. -/
theorem Attached.attach {done : List (BufferId × Layout)} {b : BufferId} {ky : Kernel}
    (h : Attached kr kx a done) (pre : ∀ l, (kr.buffer b).layout = some l → l = a b)
    (hs : (do
        if ((← get).buffer b).layout.isNone then
          KernelM.lift (KernelM.update (·.attachLayout b (a b))) : KernelM LowerError Unit).run kx =
      .ok (.ok (), ky)) :
    Attached kr ky a (done ++ [(b, a b)]) := by
  have now : ∀ b', b' ∈ (done ++ [(b, a b)]).map Prod.fst ↔ b' ∈ done.map Prod.fst ∨ b' = b := by
    simp
  rw [KernelM.run_get_bind] at hs
  split at hs
  · -- No layout yet: attach the answer.
    rename_i hnone
    rw [KernelM.run_lift_eq_ok, KernelM.run_update] at hs
    obtain ⟨hb, rfl⟩ := attachLayout_ok hs
    refine ⟨h.ops, h.body, h.loops, h.removed, by simp [Kernel.modifyBuffer, h.size], fun b' => ?_⟩
    rw [buffer_modifyBuffer hb, h.buffer b']
    by_cases hbb : b = b'
    · subst hbb
      rw [if_pos rfl, if_pos ((now b).2 (.inr rfl))]
      split_ifs with hd
      · simp [h.buffer b, hd] at hnone
      · rfl
    · have hb' : b' ≠ b := Ne.symm hbb
      rw [if_neg hbb]
      simp only [now b', hb', or_false]
  · -- A layout already: it is the answer.
    rename_i hsome
    obtain ⟨-, rfl⟩ := Prod.mk.inj (Except.ok.inj hs)
    refine ⟨h.ops, h.body, h.loops, h.removed, h.size, fun b' => ?_⟩
    rw [h.buffer b']
    by_cases hbb : b' = b
    · subst hbb
      rw [if_pos ((now b').2 (.inr rfl))]
      split_ifs with hd
      · rfl
      · obtain ⟨l, hl⟩ := Option.ne_none_iff_exists'.1 (by simpa [h.buffer b', hd] using hsome)
        rw [← pre l hl, ← hl]
    · simp only [now b', hbb, or_false]

end Attach

/-! ### Answers -/

section Answers

variable {o : CompileOptions} {k k' : Kernel} {a : BufferId → Layout}

/-- `a` answers the layout network of `k`: every buffer takes a layout of its initial domain, and
every constraint of every live op holds. -/
structure Kernel.Answers (k : Kernel) (o : CompileOptions) (a : BufferId → Layout) : Prop where
  domain : ∀ b, b.idx < k.buffers.size →
    ∃ d, (initialDomain (k.buffer b) o).run = .ok (.ok d) ∧ a b ∈ d
  holds : ∀ x ∈ k.liveOps, ∀ cs, opConstraints k o.target x = .ok cs → ∀ c ∈ cs, c.Holds a

/-- Every constraint of every live op touches only buffers of the kernel. -/
def Kernel.ConstraintsOnBuffers (k : Kernel) (t : Target) : Prop :=
  ∀ x ∈ k.liveOps, ∀ cs, opConstraints k t x = .ok cs → ∀ c ∈ cs, ∀ b, c.touches b = true →
    b.idx < k.buffers.size

/-- A solution of the kernel's network, from the initial domains, answers it. -/
theorem answers_of_solution {D : Array (List Layout)} {cs : List Constraint}
    (hD : (initialDomains k o).run = .ok (.ok D)) (hcs : liveConstraints k o.target = .ok cs)
    (mem : ∀ b, b.idx < D.size → a b ∈ domainAt D b) (holds : ∀ c ∈ cs, c.Holds a) :
    k.Answers o a := by
  obtain ⟨hsize, -, hdom⟩ := initialDomains_ok hD
  refine ⟨fun b hb => ?_, fun x hx csx hx' c hc => ?_⟩
  · obtain ⟨d, hd, hdD⟩ := hdom b hb
    exact ⟨d, hd, hdD ▸ mem b (hsize ▸ hb)⟩
  · obtain ⟨csx', hx'', sub⟩ := (liveConstraints_ok hcs).1 x hx
    rw [hx'] at hx''
    cases hx''
    exact holds c (sub c hc)

/-- An answer of a network whose constraints stay on the kernel's buffers solves the network the
solver is given. -/
theorem solves_of_answers {D : Array (List Layout)} {cs : List Constraint}
    (hD : (initialDomains k o).run = .ok (.ok D)) (hcs : liveConstraints k o.target = .ok cs)
    (ans : k.Answers o a) (on : k.ConstraintsOnBuffers o.target) : Solves cs (domainAt D) a := by
  obtain ⟨-, -, hdom⟩ := initialDomains_ok hD
  refine ⟨fun c hc b hb => ?_, fun c hc => ?_⟩
  · obtain ⟨x, hx, csx, hx', hcx⟩ := (liveConstraints_ok hcs).2 c hc
    have hb' := on x hx csx hx' c hcx b hb
    obtain ⟨d, hd, hdD⟩ := hdom b hb'
    obtain ⟨d', hd', had⟩ := ans.domain b hb'
    rw [hd] at hd'
    cases hd'
    exact hdD ▸ had
  · obtain ⟨x, hx, csx, hx', hcx⟩ := (liveConstraints_ok hcs).2 c hc
    exact ans.holds x hx csx hx' c hcx

end Answers

/-! ### Soundness and completeness -/

section Assign

variable {o : CompileOptions} {k k' : Kernel}

/-- On success every buffer carries one layout, drawn from its initial domain in the kernel the
last round solved, and every constraint of every live op holds of the attached layouts; the
copies returned are live relayout copies. -/
theorem assignLayouts_sound {copies : List OpId} (hk : k.RemovedExist)
    (h : (assignLayouts o).run k = .ok (.ok copies, k')) :
    ∃ (kr : Kernel) (a : BufferId → Layout), kr.Answers o a ∧
      k'.ops = kr.ops ∧ k'.liveOps = kr.liveOps ∧ k'.buffers.size = kr.buffers.size ∧
      (∀ b, b.idx < kr.buffers.size → k'.buffer b = { kr.buffer b with layout := some (a b) }) ∧
      (∀ x ∈ k'.liveOps, ∃ cs, opConstraints k' o.target x = .ok cs ∧ ∀ c ∈ cs, c.Holds a) ∧
      ∀ x ∈ copies, x ∈ k'.liveOps ∧ (k'.op x).kind = .copy none true := by
  unfold assignLayouts at h
  rw [KernelM.run_get_bind] at h
  obtain ⟨⟨assignment, copies₀⟩, kr, hs, h⟩ := KernelM.run_bind_eq_ok.1 h
  obtain ⟨⟨-, live⟩, D, cs, hD, hcs, hsolve⟩ := solveWithCopies_ok hs ⟨hk, by simp⟩
  obtain ⟨hsize, hne, -⟩ := initialDomains_ok hD
  obtain ⟨a, rfl, mem, holds⟩ := Solver.solve_sound hsolve hne
  have ans : kr.Answers o a := answers_of_solution hD hcs mem holds
  -- A buffer that had a layout before keeps it, and the solver kept it as its answer.
  have pre : ∀ i < D.size, ∀ l, (kr.buffer ⟨i⟩).layout = some l → l = a ⟨i⟩ := by
    intro i hi l hl
    obtain ⟨d, hd, had⟩ := ans.domain ⟨i⟩ (hsize ▸ hi)
    rw [initialDomain_of_layout hl] at hd
    cases hd
    exact (List.mem_singleton.1 had).symm
  obtain ⟨_, kx, hattach, h⟩ := KernelM.run_bind_eq_ok.1 h
  obtain ⟨hc, hkx⟩ := Prod.mk.inj (Except.ok.inj h)
  obtain rfl := Except.ok.inj hc
  subst hkx
  have att : Attached kr kx a ((List.range D.size).map fun i => (⟨i⟩, a ⟨i⟩)) := by
    refine KernelM.run_forM_ok (fun done kx => Attached kr kx a done) [] ?_ (Attached.refl kr a)
      hattach
    intro d hd done k₁ k₂ hA hstep
    obtain ⟨i, hi, rfl⟩ := List.mem_map.1 hd
    exact hA.attach (pre i (List.mem_range.1 hi)) hstep
  refine ⟨kr, a, ans, att.ops, att.liveOps, att.size, fun b hb => ?_, fun x hx => ?_,
    fun x hx => ?_⟩
  · rw [att.buffer b, if_pos]
    simpa [List.mem_map, List.mem_range, hsize] using ⟨b.idx, hb, rfl⟩
  · obtain ⟨csx, hx', sub⟩ := (liveConstraints_ok hcs).1 x (att.liveOps ▸ hx)
    exact ⟨csx, att.opConstraints o.target x ▸ hx', fun c hc => holds c (sub c hc)⟩
  · obtain ⟨hx, kind⟩ := live x hx
    exact ⟨att.liveOps ▸ hx, att.op x ▸ kind⟩

/-- A cast from a global buffer with a row-major layout into a global buffer with none. -/
def globalCast : Kernel where
  name := "cast"
  buffers := #[
    { name := "src", shape := [2, 2], dtype := Scalar.f32, scope := .global
      layout := some (Layout.rowMajor [2, 2]) },
    { name := "dst", shape := [2, 2], dtype := Scalar.f32, scope := .global }]
  ops := #[{ name := "c", kind := .cast, inputs := [.whole ⟨0⟩], outputs := [.whole ⟨1⟩] }]
  body := [.op ⟨0⟩]

/-- The destination of `globalCast` gets the layout of an answer of the network. -/
theorem globalCast_answered : ∃ (kr : Kernel) (a : BufferId → Layout),
    kr.Answers { target := Target.sm80 } a ∧
      ((globalCast.modifyBuffer ⟨1⟩ ({ · with layout := some (Layout.rowMajor [2, 2]) })).buffer
        ⟨1⟩).layout = some (a ⟨1⟩) := by
  -- The solver's recursion is unfolded by its equation before the run is computed.
  have run : (assignLayouts { target := Target.sm80 }).run globalCast =
      .ok (.ok [], globalCast.modifyBuffer ⟨1⟩ ({ · with layout := some (Layout.rowMajor [2, 2]) })) := by
    rw [assignLayouts, KernelM.run_get_bind]
    dsimp only
    rw [solveWithCopies]
    rfl
  obtain ⟨kr, a, ans, -, -, size, buffers, -, -⟩ :=
    assignLayouts_sound (by simp [Kernel.RemovedExist, globalCast]) run
  have one : (⟨1⟩ : BufferId).idx < kr.buffers.size := by
    rw [← size]
    decide
  exact ⟨kr, a, ans, by rw [buffers ⟨1⟩ one]⟩

end Assign

end TileKernel
