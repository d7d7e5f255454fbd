import TileKernel.Proofs.Propagation
import Mathlib.Data.List.Basic

/-!
# Solving a layout network

`Solver.solve` narrows each buffer by its requirements (`applyUnary`), propagates to arc
consistency, then fixes undecided buffers one at a time to their first candidate (`settle`).
Nothing is ever undone, yet the search is exact on these networks:

* `solve_sound`: an answer assigns every buffer one of its candidates and meets every constraint
  whose buffers exist, since arc consistency between singleton domains is satisfaction;
* `solve_conflict`: a conflict proves the network has no solution. A conflict in the first two
  phases is a domain emptied by sound pruning. The greedy phase never meets one on a network
  with a solution: it only fixes a candidate of an arc-consistent network, and every such
  candidate extends to a solution (`exists_solves_of_arcConsistent`), which then survives the
  next propagation.

Each round of `settle` decides one more buffer, so the fuel of one round per buffer suffices.
-/

set_option autoImplicit false

namespace TileKernel

section Fold

variable {ε σ ι α : Type}

/-- A property of the steps done so far that every successful step extends holds after a fold
that succeeds. -/
theorem run_foldlM_ok {f : σ → ι → ExceptT ε Checked σ} (I : List ι → σ → Prop)
    (step : ∀ done i s₁ s₂, I done s₁ → (f s₁ i).run = .ok (.ok s₂) → I (done ++ [i]) s₂) :
    ∀ (done : List ι) {l : List ι} {s s' : σ}, I done s → (l.foldlM f s).run = .ok (.ok s') →
      I (done ++ l) s'
  | done, [], s, s', hs, h => by
    obtain rfl : s = s' := Except.ok.inj (Except.ok.inj h)
    simpa using hs
  | done, i :: l, s, s', hs, h => by
    rw [List.foldlM_cons] at h
    obtain ⟨s₁, h₁, h⟩ := run_bind_eq_ok.1 h
    simpa using run_foldlM_ok I step (done ++ [i]) (step done i s s₁ hs h₁) h

/-- A fold that fails does so at a step taken from a state the successful steps reached. -/
theorem run_foldlM_error {f : σ → ι → ExceptT ε Checked σ} (I : σ → Prop)
    (step : ∀ i s₁ s₂, I s₁ → (f s₁ i).run = .ok (.ok s₂) → I s₂) {e : ε} :
    ∀ {l : List ι} {s : σ}, I s → (l.foldlM f s).run = .ok (.error e) →
      ∃ i t, I t ∧ (f t i).run = .ok (.error e)
  | [], s, _, h => nomatch Except.ok.inj h
  | i :: l, s, hs, h => by
    rw [List.foldlM_cons] at h
    rcases run_bind_eq_error.1 h with h₁ | ⟨s₁, h₁, h⟩
    · exact ⟨i, s, hs, h₁⟩
    · exact run_foldlM_error I step (step i s s₁ hs h₁) h

theorem filterAuxM_eq_ok {p : α → Checked Bool} :
    ∀ {l acc r : List α}, List.filterAuxM p l acc = .ok r →
      r = (l.filter fun x => decide (p x = .ok true)).reverse ++ acc
  | [], acc, r, h => by
    obtain rfl := Except.ok.inj h
    simp
  | x :: l, acc, r, h => by
    simp only [List.filterAuxM] at h
    rcases hx : p x with e | b
    · simp [hx, bind, Except.bind] at h
    · simp only [hx, bind, Except.bind] at h
      rw [filterAuxM_eq_ok h]
      cases b <;> simp [hx]

/-- A monadic filter that does not fault keeps exactly the elements it accepts. -/
theorem filterM_eq_ok {p : α → Checked Bool} {l d : List α} (h : l.filterM p = .ok d) :
    d = l.filter fun x => decide (p x = .ok true) := by
  simp only [List.filterM, bind, Except.bind] at h
  rcases ha : List.filterAuxM p l [] with e | r
  · simp [ha] at h
  · simp only [ha] at h
    obtain rfl := Except.ok.inj h
    simp [filterAuxM_eq_ok ha]

theorem run_liftM_eq_ok {x : Checked α} {a : α} :
    (liftM x : ExceptT ε Checked α).run = .ok (.ok a) ↔ x = .ok a := by
  rcases x with _ | b <;>
    simp [liftM, monadLift, MonadLift.monadLift, ExceptT.lift, ExceptT.mk, ExceptT.run]

theorem run_liftM_ne_error {x : Checked α} {e : ε} :
    (liftM x : ExceptT ε Checked α).run ≠ .ok (.error e) := by
  rcases x with _ | b <;>
    simp [liftM, monadLift, MonadLift.monadLift, ExceptT.lift, ExceptT.mk, ExceptT.run]

end Fold

/-- The layouts of a domain that a requirement admits without faulting. -/
def Requirement.admittedPart (r : Requirement) (d : List Layout) : List Layout :=
  d.filter fun l => decide (r.admits l = .ok true)

namespace Solver

variable {s s' : Solver} {a : BufferId → Layout}

theorem requirementsMet_of_narrows (h : s.Narrows s')
    (hm : RequirementsMet s.constraints.toList s.domain) :
    RequirementsMet s'.constraints.toList s'.domain := by
  intro op b r hc l hl
  rw [h.constraints] at hc
  exact hm op b r hc l ((h.domain b).subset hl)

/-! ### Requirements -/

/-- One step of the unary pass, as `applyUnary` folds it. -/
def unaryStep (s : Solver) (i : Nat) : ExceptT Conflict Checked Solver := do
  match (s.constraints[i]? : Option Constraint) with
  | some (.unary _ b r) =>
    let d ← ((s.domain b).filterM r.admits : Checked (List Layout))
    let s := s.setDomain b d
    if d.isEmpty then throw (← s.conflict b i) else pure s
  | _ => pure s

theorem applyUnary_eq : s.applyUnary = (List.range s.constraints.size).foldlM unaryStep s := rfl

/-- A successful step either narrows the buffer of requirement `i` to the non-empty part of its
domain that the requirement admits, or changes nothing. -/
theorem unaryStep_ok {t t' : Solver} {i : Nat} (h : (t.unaryStep i).run = .ok (.ok t')) :
    (∃ op b r, t.constraints[i]? = some (.unary op b r) ∧ r.admittedPart (t.domain b) ≠ [] ∧
      t' = t.setDomain b (r.admittedPart (t.domain b))) ∨
    ((∀ op b r, t.constraints[i]? ≠ some (.unary op b r)) ∧ t' = t) := by
  unfold unaryStep at h
  split at h
  · rename_i op b r hc
    obtain ⟨d, hd, h⟩ := run_bind_eq_ok.1 h
    rw [run_liftM_eq_ok] at hd
    have hd' : d = r.admittedPart (t.domain b) := filterM_eq_ok hd
    subst hd'
    by_cases he : (r.admittedPart (t.domain b)).isEmpty = true
    · simp only [he, if_true] at h
      exact absurd h (run_liftM_bind_throw_ne_ok _ _)
    · simp only [he, Bool.false_eq_true, if_false] at h
      exact .inl ⟨op, b, r, hc, by simpa using he, (Except.ok.inj (Except.ok.inj h)).symm⟩
  · rename_i hc
    exact .inr ⟨fun op b r h' => hc op b r h', (Except.ok.inj (Except.ok.inj h)).symm⟩

/-- A failing step is a requirement that admits nothing of its buffer's domain; the conflict
it reports blames ops of the constraints. -/
theorem unaryStep_conflict {t : Solver} {i : Nat} {c : Conflict}
    (h : (t.unaryStep i).run = .ok (.error c)) :
    (∃ op b r, t.constraints[i]? = some (.unary op b r) ∧ r.admittedPart (t.domain b) = []) ∧
      c.NamesOpsOf t.constraints.toList := by
  unfold unaryStep at h
  split at h
  · rename_i op b r hc
    rcases run_bind_eq_error.1 h with hd | ⟨d, hd, h⟩
    · exact absurd hd run_liftM_ne_error
    rw [run_liftM_eq_ok] at hd
    have hd' : d = r.admittedPart (t.domain b) := filterM_eq_ok hd
    subst hd'
    by_cases he : (r.admittedPart (t.domain b)).isEmpty = true
    · simp only [he, if_true] at h
      have hconf : (t.setDomain b (r.admittedPart (t.domain b))).conflict b i = .ok c :=
        run_liftM_bind_throw_eq_error.1 h
      have names := conflict_names hconf
      exact ⟨⟨op, b, r, hc, by simpa using he⟩, names⟩
    · simp only [he, Bool.false_eq_true, if_false] at h
      nomatch Except.ok.inj h
  · nomatch Except.ok.inj h

theorem admits_of_unaryStep {t t' : Solver} {i : Nat} (h : (t.unaryStep i).run = .ok (.ok t'))
    (ha : t.Admits a) : t'.Admits a := by
  rcases unaryStep_ok h with ⟨op, b, r, hc, -, rfl⟩ | ⟨-, rfl⟩
  · have hmem := mem_toList_of_getElem? hc
    refine ⟨fun c hc' x hx => ?_, ha.holds⟩
    rw [domain_setDomain]
    split_ifs with hxb
    · rw [hxb.1]
      exact List.mem_filter.2 ⟨ha.mem _ hmem b (by simp [Constraint.touches]),
        decide_eq_true (ha.holds _ hmem)⟩
    · exact ha.mem c hc' x hx
  · exact ha

/-- Requirement `j`, if it is one, sits on a buffer of the network and admits every candidate of
it. -/
def MetAt (s : Solver) (j : Nat) : Prop :=
  ∀ op b r, s.constraints[j]? = some (.unary op b r) →
    b.idx < s.domains.size ∧ ∀ l ∈ s.domain b, r.admits l = .ok true

theorem MetAt.narrows {j : Nat} (hm : s.MetAt j) (h : s.Narrows s') : s'.MetAt j := by
  intro op b r hc
  obtain ⟨hb, hl⟩ := hm op b r (h.constraints ▸ hc)
  exact ⟨h.size ▸ hb, fun l hl' => hl l ((h.domain b).subset hl')⟩

/-- The unary pass narrows the domains, keeps them filled, and leaves every requirement met, on a
buffer of the network. -/
theorem applyUnary_ok (h : s.applyUnary.run = .ok (.ok s')) :
    s.Narrows s' ∧ RequirementsMet s'.constraints.toList s'.domain ∧ (s.Filled → s'.Filled) ∧
      ∀ op b r, .unary op b r ∈ s'.constraints.toList → b.idx < s'.domains.size := by
  rw [applyUnary_eq] at h
  have run := run_foldlM_ok
    (I := fun done t => s.Narrows t ∧ (∀ j ∈ done, t.MetAt j) ∧ (s.Filled → t.Filled))
    (fun done i t₁ t₂ ⟨hn, hm, hf⟩ hs => by
      rcases unaryStep_ok hs with ⟨op, b, r, hc, hne, rfl⟩ | ⟨hc, rfl⟩
      · have hn₁ : t₁.Narrows (t₁.setDomain b (r.admittedPart (t₁.domain b))) :=
          narrows_setDomain List.filter_sublist
        -- The requirement's buffer exists, since its domain held an admitted layout.
        have hb : b.idx < t₁.domains.size := by
          by_contra hb
          rw [domain_eq_nil_of_size_le (Nat.le_of_not_lt hb)] at hne
          exact hne rfl
        refine ⟨hn.trans hn₁, fun j hj => ?_, fun hs₀ x hx => ?_⟩
        · rcases List.mem_append.1 hj with hj | hj
          · exact (hm j hj).narrows hn₁
          · rw [List.mem_singleton.1 hj]
            intro op' b' r' hc'
            rw [constraints_setDomain, hc] at hc'
            cases hc'
            refine ⟨by rwa [size_setDomain], fun l hl => ?_⟩
            rw [domain_setDomain, if_pos ⟨rfl, hb⟩] at hl
            exact of_decide_eq_true (List.mem_filter.1 hl).2
        · rw [domain_setDomain]
          split_ifs with hxb
          · exact hne
          · exact hf hs₀ x (by simpa using hx)
      · refine ⟨hn, fun j hj => ?_, hf⟩
        rcases List.mem_append.1 hj with hj | hj
        · exact hm j hj
        · rw [List.mem_singleton.1 hj]
          intro op b r hc'
          exact absurd hc' (hc op b r))
    [] ⟨.refl _, by simp, id⟩ h
  obtain ⟨hn, hm, hf⟩ := run
  have met : ∀ op b r, .unary op b r ∈ s'.constraints.toList →
      b.idx < s'.domains.size ∧ ∀ l ∈ s'.domain b, r.admits l = .ok true := by
    intro op b r hc
    obtain ⟨j, hj, hjc⟩ := List.getElem_of_mem hc
    have hjc' : s'.constraints[j]? = some (.unary op b r) := by
      simpa [Array.getElem?_toList] using List.getElem?_eq_some_iff.2 ⟨hj, hjc⟩
    exact hm j (by simpa [← hn.constraints] using hj) op b r hjc'
  exact ⟨hn, fun op b r hc => (met op b r hc).2, hf, fun op b r hc => (met op b r hc).1⟩

theorem applyUnary_admits (h : s.applyUnary.run = .ok (.ok s')) (ha : s.Admits a) : s'.Admits a := by
  rw [applyUnary_eq] at h
  simpa using run_foldlM_ok (I := fun _ t => t.Admits a)
    (fun _ _ _ _ ht hs => admits_of_unaryStep hs ht) [] ha h

/-- A conflict in the unary pass proves that no solution lies inside the domains. -/
theorem applyUnary_conflict {c : Conflict} (h : s.applyUnary.run = .ok (.error c))
    (ha : s.Admits a) : False := by
  rw [applyUnary_eq] at h
  obtain ⟨i, t, ht, hs⟩ := run_foldlM_error (I := fun t => t.Admits a)
    (fun _ _ _ ht hs => admits_of_unaryStep hs ht) ha h
  obtain ⟨⟨op, b, r, hc, hnil⟩, -⟩ := unaryStep_conflict hs
  have hmem := mem_toList_of_getElem? hc
  have : a b ∈ r.admittedPart (t.domain b) :=
    List.mem_filter.2 ⟨ht.mem _ hmem b (by simp [Constraint.touches]),
      decide_eq_true (ht.holds _ hmem)⟩
  rw [hnil] at this
  exact List.not_mem_nil this

/-! ### Deciding buffers one at a time -/

/-- Folding a choice that either takes the new index or keeps a chosen one picks an index of the
list, unless it started from one. -/
theorem foldl_choice {g : Option Nat → Nat → Option Nat}
    (hg : ∀ best i, g best i = some i ∨ (g best i = best ∧ best.isSome)) :
    ∀ {l : List Nat} {init : Option Nat} {k : Nat}, l.foldl g init = some k → init = some k ∨ k ∈ l
  | [], _, _, h => .inl h
  | i :: l, init, k, h => by
    rw [List.foldl_cons] at h
    rcases foldl_choice hg h with h' | h'
    · rcases hg init i with hi | ⟨hi, -⟩
      · rw [hi] at h'
        cases h'
        exact .inr (List.mem_cons_self ..)
      · exact .inl (hi ▸ h')
    · exact .inr (List.mem_cons_of_mem _ h')

theorem foldl_choice_none {g : Option Nat → Nat → Option Nat}
    (hg : ∀ best i, g best i = some i ∨ (g best i = best ∧ best.isSome)) :
    ∀ {l : List Nat} {init : Option Nat}, l.foldl g init = none → l = []
  | [], _, _ => rfl
  | i :: l, init, h => by
    rw [List.foldl_cons] at h
    have := foldl_choice_none hg h
    subst this
    rcases hg init i with hi | ⟨hi, hs⟩
    · simp [hi] at h
    · simp only [List.foldl_nil, hi] at h
      simp [h] at hs

theorem undecided_choice (best : Option Nat) (i : Nat) :
    (match best with
      | none => some i
      | some j =>
        if (s.domains[i]?.getD []).length < (s.domains[j]?.getD []).length then some i else some j) =
      some i ∨
    ((match best with
      | none => some i
      | some j =>
        if (s.domains[i]?.getD []).length < (s.domains[j]?.getD []).length then some i else some j) =
      best ∧ best.isSome) := by
  rcases best with _ | j
  · exact .inl rfl
  · dsimp only
    split_ifs <;> simp

/-- The buffer `undecided` picks exists and has several candidates. -/
theorem undecided_some {b : BufferId} (h : s.undecided = some b) :
    b.idx < s.domains.size ∧ 1 < (s.domain b).length := by
  unfold undecided at h
  obtain ⟨k, hk, rfl⟩ := Option.map_eq_some_iff.1 h
  rcases foldl_choice (undecided_choice (s := s)) hk with h' | h'
  · cases h'
  · exact by simpa [domain] using List.mem_filter.1 h'

/-- When `undecided` finds nothing, every domain holds at most one candidate. -/
theorem undecided_none (h : s.undecided = none) (b : BufferId) : (s.domain b).length ≤ 1 := by
  unfold undecided at h
  have hnil := foldl_choice_none (undecided_choice (s := s)) (Option.map_eq_none_iff.1 h)
  by_contra hb
  by_cases hin : b.idx < s.domains.size
  · have : b.idx ∈ (List.range s.domains.size).filter
        fun i => 1 < (s.domains[i]?.getD []).length :=
      List.mem_filter.2 ⟨List.mem_range.2 hin, by simpa [domain] using Nat.lt_of_not_le hb⟩
    rw [hnil] at this
    exact List.not_mem_nil this
  · rw [domain_eq_nil_of_size_le (Nat.le_of_not_lt hin)] at hb
    exact hb (by simp)

/-- The number of buffers with several candidates left. -/
def openCount (s : Solver) : Nat :=
  ((List.range s.domains.size).filter fun i => 1 < (s.domain ⟨i⟩).length).length

theorem openCount_le_size : s.openCount ≤ s.domains.size :=
  Nat.le_trans (List.length_filter_le _ _) (by simp)

/-- Narrowing that decides an undecided buffer leaves fewer undecided. -/
theorem openCount_lt (hn : s.Narrows s') {b : BufferId} (hb : b.idx < s.domains.size)
    (h₁ : 1 < (s.domain b).length) (h₂ : (s'.domain b).length ≤ 1) : s'.openCount < s.openCount := by
  obtain ⟨b⟩ := b
  unfold openCount
  rw [hn.size]
  have hsub := List.monotone_filter_right (List.range s.domains.size)
    (p := fun i => decide (1 < (s'.domain ⟨i⟩).length)) (q := fun i => decide (1 < (s.domain ⟨i⟩).length))
    (fun i hi => by
      have := (hn.domain ⟨i⟩).length_le
      simp only [decide_eq_true_eq] at hi ⊢
      omega)
  refine lt_of_le_of_ne hsub.length_le fun hlen => ?_
  have hmem : b ∈ (List.range s.domains.size).filter fun i => 1 < (s.domain ⟨i⟩).length :=
    List.mem_filter.2 ⟨List.mem_range.2 hb, by simpa using h₁⟩
  rw [← hsub.eq_of_length hlen, List.mem_filter] at hmem
  have := hmem.2
  simp only [decide_eq_true_eq] at this
  omega

/-- Fixing `b` leaves every constraint that does not touch it as consistent as before. -/
theorem consistent_setDomain {d : List Layout} {b : BufferId} (hc : ∀ j, s.Consistent j) :
    ∀ j, j ∉ (s.setDomain b d).arcsTouching b none → (s.setDomain b d).Consistent j := by
  intro j hj
  refine consistent_of_domains (s := s) rfl (hc j) fun op u v rel hjc => ?_
  have untouched : ∀ w, w = u ∨ w = v → w ≠ b := by
    rintro w hw rfl
    apply hj
    rw [mem_arcsTouching]
    refine ⟨by simp, _, hjc, rfl, ?_⟩
    rcases hw with rfl | rfl <;> simp [Constraint.touches]
  rw [domain_setDomain, domain_setDomain, if_neg fun h => untouched u (.inl rfl) h.1,
    if_neg fun h => untouched v (.inr rfl) h.1]
  exact ⟨rfl, rfl⟩

/-- Fixing an undecided buffer to its first candidate. -/
theorem narrows_take_one {b : BufferId} : s.Narrows (s.setDomain b ((s.domain b).take 1)) :=
  narrows_setDomain (List.take_sublist _ _)

/-- A run of the greedy phase from an arc-consistent state keeps it so and leaves no buffer
undecided when the fuel covers the undecided buffers. -/
theorem settle_go_ok {fuel : Nat} (h : (settle.go fuel s).run = .ok (.ok s'))
    (hc : ∀ j, s.Consistent j) (hf : s.Filled) :
    s.Narrows s' ∧ (∀ j, s'.Consistent j) ∧ s'.Filled ∧ (s.openCount ≤ fuel → s'.undecided = none) := by
  induction fuel generalizing s with
  | zero =>
    obtain rfl : s = s' := Except.ok.inj (Except.ok.inj h)
    refine ⟨.refl _, hc, hf, fun h0 => ?_⟩
    rcases hu : s.undecided with _ | b
    · rfl
    · obtain ⟨hb, h1⟩ := undecided_some hu
      have := openCount_lt narrows_take_one hb h1
        (by rw [domain_setDomain, if_pos ⟨rfl, hb⟩, List.length_take]; exact Nat.min_le_left _ _)
      omega
  | succ fuel ih =>
    simp only [settle.go] at h
    rcases hu : s.undecided with _ | b
    · simp only [hu] at h
      obtain rfl : s = s' := Except.ok.inj (Except.ok.inj h)
      exact ⟨.refl _, hc, hf, fun _ => hu⟩
    · simp only [hu] at h
      obtain ⟨hb, h1⟩ := undecided_some hu
      obtain ⟨s₂, hp, hgo⟩ := run_bind_eq_ok.1 h
      -- Fixing `b` to its first candidate keeps every domain filled.
      have hf₁ : (s.setDomain b ((s.domain b).take 1)).Filled := by
        intro x hx
        rw [size_setDomain] at hx
        rw [domain_setDomain]
        split_ifs with hxb
        · obtain ⟨rfl, -⟩ := hxb
          simpa using hf x hx
        · exact hf x hx
      have hn₂ := narrows_take_one.trans (propagate_narrows hp)
      have hc₂ := propagate_consistent hp (length_arcsTouching_le none) (consistent_setDomain hc)
      obtain ⟨hn, hc', hf', done⟩ := ih hgo hc₂ (propagate_filled hp hf₁)
      refine ⟨hn₂.trans hn, hc', hf', fun hcount => done ?_⟩
      have := openCount_lt hn₂ hb h1 (Nat.le_trans ((propagate_narrows hp).domain b).length_le
        (by rw [domain_setDomain, if_pos ⟨rfl, hb⟩, List.length_take]; exact Nat.min_le_left _ _))
      omega

/-- **The greedy phase is complete.** From an arc-consistent state whose candidates meet their
requirements and that holds a solution, fixing candidates never runs into a conflict. -/
theorem settle_go_conflict {fuel : Nat} {c : Conflict} (h : (settle.go fuel s).run = .ok (.error c))
    (hc : ∀ j, s.Consistent j) (hm : RequirementsMet s.constraints.toList s.domain)
    (ha : s.Admits a) : False := by
  induction fuel generalizing s a with
  | zero => nomatch Except.ok.inj h
  | succ fuel ih =>
    simp only [settle.go] at h
    rcases hu : s.undecided with _ | b
    · simp only [hu] at h
      nomatch Except.ok.inj h
    · simp only [hu] at h
      obtain ⟨hb, h1⟩ := undecided_some hu
      obtain ⟨v, rest, hD⟩ : ∃ v rest, s.domain b = v :: rest := by
        cases hd : s.domain b with
        | nil => rw [hd] at h1; simp at h1
        | cons v rest => exact ⟨v, rest, rfl⟩
      -- The first candidate of `b` extends to a solution, which survives the propagation.
      obtain ⟨a', ha', hv⟩ := exists_solves_of_arcConsistent (arcConsistent_of_consistent hc) hm
        (fun c hc x hx hnil => by simpa [hnil] using ha.mem c hc x hx) (x := b) (v := v)
        (by rw [hD]; exact List.mem_cons_self ..)
      have ha₁ : (s.setDomain b ((s.domain b).take 1)).Admits a' := by
        refine ⟨fun c hc x hx => ?_, ha'.holds⟩
        rw [domain_setDomain]
        split_ifs with hxb
        · rw [hxb.1, hv, hD]
          simp
        · exact ha'.mem c hc x hx
      rcases run_bind_eq_error.1 h with hp | ⟨s₂, hp, hgo⟩
      · exact propagate_conflict hp ha₁
      · exact ih hgo (propagate_consistent hp (length_arcsTouching_le none) (consistent_setDomain hc))
          (requirementsMet_of_narrows (narrows_take_one.trans (propagate_narrows hp)) hm)
          (propagate_admits hp ha₁)

/-! ### The whole search -/

/-- The greedy phase, run with one round per buffer, decides every buffer. -/
theorem settle_ok (h : s.settle.run = .ok (.ok s')) (hc : ∀ j, s.Consistent j) (hf : s.Filled) :
    s.Narrows s' ∧ (∀ j, s'.Consistent j) ∧ s'.Filled ∧ s'.undecided = none := by
  obtain ⟨hn, hc', hf', done⟩ := settle_go_ok h hc hf
  exact ⟨hn, hc', hf', done openCount_le_size⟩

/-- The layout a decided state gives a buffer: its one candidate. A buffer outside the network
gets a dense layout, which both relations relate to itself. -/
def pick (s : Solver) (b : BufferId) : Layout := (s.domain b).headD (Layout.rowMajor [])

theorem domain_eq_pick (hf : s.Filled) (hu : s.undecided = none) {b : BufferId}
    (hb : b.idx < s.domains.size) : s.domain b = [s.pick b] := by
  have h₁ := undecided_none hu b
  have h₀ := hf b hb
  unfold pick
  match hd : s.domain b, h₀, h₁ with
  | [l], _, _ => rfl
  | l :: m :: rest, _, h₁ => simp at h₁

theorem pick_mem (hf : s.Filled) (hu : s.undecided = none) {b : BufferId}
    (hb : b.idx < s.domains.size) : s.pick b ∈ s.domain b := by
  rw [domain_eq_pick hf hu hb]
  exact List.mem_singleton_self _

theorem pick_of_size_le {b : BufferId} (hb : s.domains.size ≤ b.idx) :
    s.pick b = Layout.rowMajor [] := by
  simp [pick, domain_eq_nil_of_size_le hb]

theorem consistent_of_size_le {j : Nat} (hj : s.constraints.size ≤ j) : s.Consistent j := by
  intro op x y rel hc
  simp [Array.getElem?_eq_none hj] at hc

/-- Propagating from a queue of every constraint reaches arc consistency. -/
theorem propagate_all_consistent (h : (s.propagate (List.range s.constraints.size)).run = .ok (.ok s')) :
    ∀ j, s'.Consistent j :=
  propagate_consistent h (by simp) fun _ hj =>
    consistent_of_size_le (Nat.le_of_not_lt fun hlt => hj (List.mem_range.2 hlt))

/-- **Arc consistency between decided buffers is satisfaction.** In a state that is arc
consistent, meets its requirements on buffers of the network and leaves each buffer of it one
candidate, the candidates satisfy every constraint. A binary constraint reaching outside the
network relates two missing buffers, as a missing buffer has no candidate to support the other. -/
theorem holds_pick (hc : ∀ j, s.Consistent j) (hf : s.Filled) (hu : s.undecided = none)
    (hm : RequirementsMet s.constraints.toList s.domain)
    (hr : ∀ op b r, .unary op b r ∈ s.constraints.toList → b.idx < s.domains.size) :
    ∀ c ∈ s.constraints.toList, c.Holds s.pick := by
  intro c hc'
  have one : ∀ {b : BufferId}, b.idx < s.domains.size → s.pick b ∈ s.domain b := pick_mem hf hu
  have missing : ∀ {b : BufferId} {l : Layout}, l ∈ s.domain b → b.idx < s.domains.size :=
    fun hl => Nat.lt_of_not_le fun hb => by simp [domain_eq_nil_of_size_le hb] at hl
  cases c with
  | unary op b r => exact hm op b r hc' _ (one (hr op b r hc'))
  | binary op x y rel =>
    obtain ⟨hxy, hyx⟩ := arcConsistent_of_consistent hc op x y rel hc'
    show rel.holds (s.pick x) (s.pick y) = true
    by_cases hx : x.idx < s.domains.size
    · obtain ⟨m, hm', hxm⟩ := hxy _ (one hx)
      rw [domain_eq_pick hf hu (missing hm'), List.mem_singleton] at hm'
      rwa [← hm']
    · have hy : ¬ y.idx < s.domains.size := fun hy => by
        obtain ⟨m, hm', -⟩ := hyx _ (one hy)
        exact hx (missing hm')
      rw [pick_of_size_le (Nat.le_of_not_lt hx), pick_of_size_le (Nat.le_of_not_lt hy)]
      cases rel <;> simp [Relation.holds, Layout.rowMajor, Layout.asDense?]

/-- **Soundness of the search.** An answer lists every buffer of the network once, in handle
order, with one layout of its initial domain, and these layouts satisfy every constraint. -/
theorem solve_sound {cs : List Constraint} {D : Array (List Layout)} {r : List (BufferId × Layout)}
    (h : (solve cs D).run = .ok (.ok r)) (hD : ∀ d ∈ D, d ≠ []) :
    ∃ a : BufferId → Layout, r = (List.range D.size).map (fun i => (⟨i⟩, a ⟨i⟩)) ∧
      (∀ b, b.idx < D.size → a b ∈ domainAt D b) ∧ ∀ c ∈ cs, c.Holds a := by
  let s₀ : Solver := ⟨cs.toArray, D, D⟩
  have hf₀ : s₀.Filled := fun b hb => hD _ (by simp [s₀, domain, Array.getElem?_eq_getElem hb])
  obtain ⟨s₁, h₁, h⟩ := run_bind_eq_ok.1 h
  obtain ⟨s₂, h₂, h⟩ := run_bind_eq_ok.1 h
  obtain ⟨s₃, h₃, h⟩ := run_bind_eq_ok.1 h
  obtain ⟨hn₁, hm₁, hf₁, hr₁⟩ := applyUnary_ok h₁
  have hn₂ := propagate_narrows h₂
  have hc₂ := propagate_all_consistent h₂
  obtain ⟨hn₃, hc₃, hf₃, hu₃⟩ := settle_ok h₃ hc₂ (propagate_filled h₂ (hf₁ hf₀))
  have hn := (hn₁.trans hn₂).trans hn₃
  have hcs : s₃.constraints.toList = cs := by rw [hn.constraints]
  have hsize : s₃.domains.size = D.size := hn.size
  have hr₃ : ∀ op b r, .unary op b r ∈ s₃.constraints.toList → b.idx < s₃.domains.size := by
    intro op b r hc
    rw [hn₃.size, hn₂.size]
    exact hr₁ op b r (by rwa [hn₃.constraints, hn₂.constraints] at hc)
  have hm₃ := requirementsMet_of_narrows (hn₂.trans hn₃) hm₁
  refine ⟨s₃.pick, ?_, fun b hb => (hn.domain b).subset (pick_mem hf₃ hu₃ (hsize ▸ hb)), ?_⟩
  · obtain rfl := Except.ok.inj (Except.ok.inj h)
    rw [hsize, List.filterMap_eq_map_iff_forall_eq_some]
    intro i hi
    rw [← hsize] at hi
    show Option.map _ (s₃.domain ⟨i⟩).getLast? = _
    rw [domain_eq_pick hf₃ hu₃ (List.mem_range.1 hi)]
    rfl
  · rw [← hcs]
    exact holds_pick hc₃ hf₃ hu₃ hm₃ hr₃

/-- **Completeness of the search.** A conflict proves that no assignment drawn from the initial
domains satisfies the constraints. -/
theorem solve_conflict {cs : List Constraint} {D : Array (List Layout)} {c : Conflict}
    (h : (solve cs D).run = .ok (.error c)) : ¬ ∃ a, Solves cs (domainAt D) a := by
  rintro ⟨a, ha⟩
  have ha₀ : Solver.Admits ⟨cs.toArray, D, D⟩ a := ha
  rcases run_bind_eq_error.1 h with h₁ | ⟨s₁, h₁, h⟩
  · exact applyUnary_conflict h₁ ha₀
  obtain ⟨-, hm₁, -, -⟩ := applyUnary_ok h₁
  have ha₁ := applyUnary_admits h₁ ha₀
  rcases run_bind_eq_error.1 h with h₂ | ⟨s₂, h₂, h⟩
  · exact propagate_conflict h₂ ha₁
  rcases run_bind_eq_error.1 h with h₃ | ⟨s₃, -, h⟩
  · exact settle_go_conflict h₃ (propagate_all_consistent h₂)
      (requirementsMet_of_narrows (propagate_narrows h₂) hm₁) (propagate_admits h₂ ha₁)
  · nomatch Except.ok.inj h

/-! ### Whom a conflict blames -/

theorem applyUnary_conflict_names {c : Conflict} (h : s.applyUnary.run = .ok (.error c)) :
    c.NamesOpsOf s.constraints.toList := by
  rw [applyUnary_eq] at h
  obtain ⟨i, t, ht, hs⟩ := run_foldlM_error (fun t => t.constraints = s.constraints)
    (fun _ _ _ ht hs => by
      rcases unaryStep_ok hs with ⟨_, _, _, -, -, rfl⟩ | ⟨-, rfl⟩
      · exact ht
      · exact ht) rfl h
  rw [← ht]
  exact (unaryStep_conflict hs).2

theorem settle_go_conflict_names {fuel : Nat} {c : Conflict}
    (h : (settle.go fuel s).run = .ok (.error c)) : c.NamesOpsOf s.constraints.toList := by
  induction fuel generalizing s with
  | zero => nomatch Except.ok.inj h
  | succ fuel ih =>
    simp only [settle.go] at h
    rcases hu : s.undecided with _ | b
    · simp only [hu] at h
      nomatch Except.ok.inj h
    · simp only [hu] at h
      rcases run_bind_eq_error.1 h with hp | ⟨s₂, hp, hgo⟩
      · have names := propagate_conflict_names hp
        exact names
      · rw [← (narrows_take_one.trans (propagate_narrows hp)).constraints]
        exact ih hgo

/-- A conflict blames only ops that declared constraints of the network. -/
theorem solve_conflict_names {cs : List Constraint} {D : Array (List Layout)} {c : Conflict}
    (h : (solve cs D).run = .ok (.error c)) : c.NamesOpsOf cs := by
  have names : ∀ {t : Solver}, t.constraints = cs.toArray → c.NamesOpsOf t.constraints.toList →
      c.NamesOpsOf cs := fun ht hn => by
    rw [ht] at hn
    exact hn
  rcases run_bind_eq_error.1 h with h₁ | ⟨s₁, h₁, h⟩
  · exact names rfl (applyUnary_conflict_names h₁)
  have hn₁ := (applyUnary_ok h₁).1
  rcases run_bind_eq_error.1 h with h₂ | ⟨s₂, h₂, h⟩
  · exact names hn₁.constraints (propagate_conflict_names h₂)
  rcases run_bind_eq_error.1 h with h₃ | ⟨s₃, -, h⟩
  · exact names ((propagate_narrows h₂).constraints.trans hn₁.constraints) (settle_go_conflict_names h₃)
  · nomatch Except.ok.inj h

end Solver
end TileKernel
