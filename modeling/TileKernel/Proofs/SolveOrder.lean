import TileKernel.Proofs.Solve
import TileKernel.Proofs.ConflictFree

/-!
# Solving does not depend on the order of the constraints

`Solver.solve` works through its constraints in the order it is given them: requirements narrow
the domains one after another, the queue revises arcs in queue order, and each round of the greedy
phase queues the constraints touching the buffer it fixes. The answer does not show that order.

* Requirements only filter, so the unary pass leaves every domain filtered by all the requirements
  on its buffer (`applyUnary_domain`), and fails exactly when that filter empties the domain of a
  buffer that has a requirement (`applyUnary_conflict_unmet`).
* Propagation keeps every arc-consistent choice of candidates within the domains it starts from
  (`QueueStep.within`) and ends arc consistent, so it ends on the greatest such choice
  (`propagate_greatest`); it fails exactly when every such choice empties a domain that had
  candidates (`propagate_conflict_emptied`).
* The greedy phase reads nothing but the domains to choose its buffer (`undecided_congr`).

So solvers that list the same constraints in two orders and hold the same domains (`Reordered`)
give agreeing answers at every phase (`Agree`), and two runs of `solve` on permuted lists that both
answer give the same answer (`solve_perm`).
-/

set_option autoImplicit false

namespace TileKernel

/-- Two filters of one list that keep the same members are the same list. -/
theorem List.filter_eq_of_mem_iff {α : Type} {l : List α} {p q : α → Bool}
    (h : ∀ a, a ∈ l.filter p ↔ a ∈ l.filter q) : l.filter p = l.filter q := by
  refine List.filter_congr fun a ha => Bool.eq_iff_iff.2 ?_
  simpa [ha] using h a

/-- Arc consistency asks about the constraints as a set. -/
theorem ArcConsistent.perm {cs cs' : List Constraint} {D : BufferId → List Layout}
    (hp : cs.Perm cs') (h : ArcConsistent cs D) : ArcConsistent cs' D :=
  fun op x y rel hc => h op x y rel (hp.mem_iff.2 hc)

section Answers

variable {ε α β α₂ β₂ : Type}

/-- A computation bound to a continuation answers (without faulting) either with the first
computation's error, or with what the continuation answers on the first one's result. -/
theorem run_bind_answers {x : ExceptT ε Checked α} {f : α → ExceptT ε Checked β} {r : Except ε β}
    (h : (x >>= f).run = .ok r) :
    (∃ e, x.run = .ok (.error e) ∧ r = .error e) ∨ ∃ a, x.run = .ok (.ok a) ∧ (f a).run = .ok r := by
  rw [ExceptT.run_bind] at h
  rcases hx : x.run with fault | e | a
  · simp [hx, bind, Except.bind] at h
  · simp only [hx, bind, Except.bind, pure, Except.pure, Except.ok.injEq] at h
    exact .inl ⟨e, rfl, h.symm⟩
  · simp only [hx, bind, Except.bind] at h
    exact .inr ⟨a, rfl, h⟩

end Answers

namespace Solver

/-- Two answers agree: both are conflicts, or both succeed with related results. -/
def Agree {α β : Type} (R : α → β → Prop) : Except Conflict α → Except Conflict β → Prop
  | .error _, .error _ => True
  | .ok a, .ok b => R a b
  | _, _ => False

section Agreement

variable {α₁ α₂ β₁ β₂ : Type} {R : α₁ → α₂ → Prop} {S : β₁ → β₂ → Prop}

/-- Agreeing answers stay agreeing through continuations that agree on related results. -/
theorem agree_bind {x₁ : ExceptT Conflict Checked α₁} {x₂ : ExceptT Conflict Checked α₂}
    {f₁ : α₁ → ExceptT Conflict Checked β₁} {f₂ : α₂ → ExceptT Conflict Checked β₂}
    {r₁ : Except Conflict β₁} {r₂ : Except Conflict β₂}
    (hx : ∀ r₁ r₂, x₁.run = .ok r₁ → x₂.run = .ok r₂ → Agree R r₁ r₂)
    (hf : ∀ a₁ a₂ r₁ r₂, R a₁ a₂ → (f₁ a₁).run = .ok r₁ → (f₂ a₂).run = .ok r₂ → Agree S r₁ r₂)
    (h₁ : (x₁ >>= f₁).run = .ok r₁) (h₂ : (x₂ >>= f₂).run = .ok r₂) : Agree S r₁ r₂ := by
  rcases run_bind_answers h₁ with ⟨e₁, hx₁, rfl⟩ | ⟨a₁, hx₁, hf₁⟩ <;>
    rcases run_bind_answers h₂ with ⟨e₂, hx₂, rfl⟩ | ⟨a₂, hx₂, hf₂⟩
  · trivial
  · exact (hx _ _ hx₁ hx₂ : False).elim
  · exact (hx _ _ hx₁ hx₂ : False).elim
  · exact hf a₁ a₂ r₁ r₂ (hx _ _ hx₁ hx₂) hf₁ hf₂

/-- Agreeing answers agree on facts that hold of each side's results. -/
theorem Agree.and {r₁ : Except Conflict α₁} {r₂ : Except Conflict α₂} {P : α₁ → Prop} {Q : α₂ → Prop}
    (h : Agree R r₁ r₂) (hP : ∀ a, r₁ = .ok a → P a) (hQ : ∀ b, r₂ = .ok b → Q b) :
    Agree (fun a b => R a b ∧ P a ∧ Q b) r₁ r₂ := by
  rcases r₁ with _ | a <;> rcases r₂ with _ | b
  · trivial
  · exact (h : False).elim
  · exact (h : False).elim
  · exact ⟨h, hP a rfl, hQ b rfl⟩

/-- Answers that agree on equal results are the same answer, read as options. -/
theorem Agree.toOption_eq {r₁ r₂ : Except Conflict β₁} (h : Agree (· = ·) r₁ r₂) :
    r₁.toOption = r₂.toOption := by
  rcases r₁ with _ | a <;> rcases r₂ with _ | b
  · rfl
  · exact (h : False).elim
  · exact (h : False).elim
  · exact congrArg some h

end Agreement

variable {s s' s₁ s₂ : Solver} {x y b : BufferId} {rel : Relation}

/-! ### Domains that only filter -/

/-- Every domain of `s'` keeps the candidates of `s`'s that some test passes, in their order. -/
def Filters (s s' : Solver) : Prop := ∀ b, ∃ p : Layout → Bool, s'.domain b = (s.domain b).filter p

theorem Filters.refl (s : Solver) : s.Filters s := fun _ => ⟨fun _ => true, by simp⟩

theorem Filters.trans {s'' : Solver} (h : s.Filters s') (h' : s'.Filters s'') : s.Filters s'' := by
  intro b
  obtain ⟨p, hp⟩ := h b
  obtain ⟨q, hq⟩ := h' b
  exact ⟨fun l => q l && p l, by rw [hq, hp, List.filter_filter]⟩

theorem filters_setDomain {p : Layout → Bool} : s.Filters (s.setDomain x ((s.domain x).filter p)) := by
  intro b
  rw [domain_setDomain]
  split_ifs with hb
  · rw [hb.1]
    exact ⟨p, rfl⟩
  · exact ⟨fun _ => true, by simp⟩

theorem filters_revise : s.Filters (s.revise x y rel).1 := filters_setDomain

/-! ### Arc-consistent candidates that propagation keeps -/

/-- The candidates `E` offers lie within the domains `D`. -/
def Within (E D : BufferId → List Layout) : Prop := ∀ b, ∀ l ∈ E b, l ∈ D b

/-- Revising an arc keeps every choice of candidates within the domains that supports the arc. -/
theorem within_revise {E : BufferId → List Layout} (hE : Within E s.domain)
    (hs : Supported E rel x y) : Within E (s.revise x y rel).1.domain := by
  intro b l hl
  rw [domain_revise]
  split_ifs with hb
  · subst hb
    obtain ⟨m, hm, hlm⟩ := hs l hl
    exact List.mem_filter.2 ⟨hE _ l hl, List.any_eq_true.2 ⟨m, hE y m hm, hlm⟩⟩
  · exact hE b l hl

/-- A revision that runs into no conflict leaves a candidate to every buffer that had one. -/
theorem reviseArc_nonempty {q : List Nat} {i : Nat} {r : Solver × List Nat}
    (h : (s.reviseArc q i x y rel).run = .ok (.ok r)) (hb : s.domain b ≠ []) : r.1.domain b ≠ [] := by
  obtain ⟨hr, ⟨hs, -⟩ | ⟨-, hx, -⟩⟩ := reviseArc_ok h
  · rwa [hr, domain_revise_of_not_shrank hs]
  · by_cases hbx : b = x
    · subst hbx
      exact hx
    · rwa [hr, domain_revise, if_neg hbx]

variable {t t' : Solver × List Nat} {E : BufferId → List Layout}

/-- A queue step keeps every arc-consistent choice of candidates within the domains. -/
theorem QueueStep.within (h : QueueStep t t') (hac : ArcConsistent t.1.constraints.toList E)
    (hE : Within E t.1.domain) : Within E t'.1.domain := by
  cases h with
  | @revise s i rest op x y rel r₁ r₂ hc h₁ h₂ =>
    obtain ⟨hxy, hyx⟩ := hac op x y rel (mem_toList_of_getElem? hc)
    have hE₁ : Within E r₁.1.domain := by
      rw [(reviseArc_ok h₁).1]
      exact within_revise hE hxy
    rw [(reviseArc_ok h₂).1]
    exact within_revise hE₁ hyx
  | skip => exact hE

theorem QueueStep.filters (h : QueueStep t t') : t.1.Filters t'.1 := by
  cases h with
  | revise hc h₁ h₂ =>
    rw [(reviseArc_ok h₂).1, (reviseArc_ok h₁).1]
    exact filters_revise.trans filters_revise
  | skip => exact .refl _

theorem QueueStep.nonempty (h : QueueStep t t') (hb : t.1.domain b ≠ []) : t'.1.domain b ≠ [] := by
  cases h with
  | revise hc h₁ h₂ => exact reviseArc_nonempty h₂ (reviseArc_nonempty h₁ hb)
  | skip => exact hb

theorem QueueStep.run_within (h : Relation.ReflTransGen QueueStep t t')
    (hac : ArcConsistent t.1.constraints.toList E) (hE : Within E t.1.domain) :
    Within E t'.1.domain := by
  induction h with
  | refl => exact hE
  | tail run step ih =>
    exact step.within (by rw [(QueueStep.run_narrows run).constraints]; exact hac) ih

theorem QueueStep.run_filters (h : Relation.ReflTransGen QueueStep t t') : t.1.Filters t'.1 := by
  induction h with
  | refl => exact .refl _
  | tail _ step ih => exact ih.trans step.filters

theorem QueueStep.run_nonempty (h : Relation.ReflTransGen QueueStep t t') (hb : t.1.domain b ≠ []) :
    t'.1.domain b ≠ [] := by
  induction h with
  | refl => exact hb
  | tail _ step ih => exact step.nonempty ih

/-- The domain a failing step empties had candidates, and no arc-consistent choice within the
domains offers it any. -/
theorem Empties.emptied (h : Empties t) :
    ∃ x, t.1.domain x ≠ [] ∧
      ∀ E, ArcConsistent t.1.constraints.toList E → Within E t.1.domain → E x = [] := by
  obtain ⟨i, rest, op, x, y, rel, -, hc, hempty⟩ := h
  have arcs := fun E (hac : ArcConsistent t.1.constraints.toList E) =>
    hac op x y rel (mem_toList_of_getElem? hc)
  rcases hempty with ⟨had, hnil⟩ | ⟨had, hnil⟩
  · refine ⟨x, had, fun E hac hE => List.eq_nil_iff_forall_not_mem.2 fun l hl => ?_⟩
    have := within_revise hE (arcs E hac).1 x l hl
    rw [hnil] at this
    exact List.not_mem_nil this
  · refine ⟨y, fun hy => had ?_, fun E hac hE => List.eq_nil_iff_forall_not_mem.2 fun l hl => ?_⟩
    · have sub : List.Sublist ((t.1.revise x y rel).1.domain y) (t.1.domain y) :=
        narrows_revise.domain y
      rw [hy] at sub
      exact List.sublist_nil.1 sub
    · have := within_revise (within_revise hE (arcs E hac).1) (arcs E hac).2 y l hl
      rw [hnil] at this
      exact List.not_mem_nil this

/-! ### What propagation ends on -/

/-- **Propagation ends on the greatest arc-consistent choice.** Started with a queue that holds
every constraint not yet arc consistent, a run that ends without conflict keeps, of each domain,
the candidates that pass some test, is arc consistent, keeps every arc-consistent choice of
candidates within the domains it started from, and leaves a candidate to every buffer that had
one. -/
theorem propagate_greatest {q : List Nat} (h : (s.propagate q).run = .ok (.ok s'))
    (hlen : q.length ≤ s.constraints.size) (hq : ∀ j, j ∉ q → s.Consistent j) :
    s.Filters s' ∧ ArcConsistent s.constraints.toList s'.domain ∧
      (∀ E, ArcConsistent s.constraints.toList E → Within E s.domain → Within E s'.domain) ∧
      ∀ b, s.domain b ≠ [] → s'.domain b ≠ [] := by
  obtain ⟨q', run, -⟩ := go_ok h
  have hcs : s'.constraints = s.constraints := (propagate_narrows h).constraints
  refine ⟨QueueStep.run_filters run, ?_, fun E hac hE => QueueStep.run_within run hac hE,
    fun b hb => QueueStep.run_nonempty run hb⟩
  rw [← hcs]
  exact arcConsistent_of_consistent (propagate_consistent h hlen hq)

/-- A conflict in propagation empties, in every arc-consistent choice within the starting domains,
a buffer that had candidates. -/
theorem propagate_conflict_emptied {q : List Nat} {c : Conflict}
    (h : (s.propagate q).run = .ok (.error c)) :
    ∃ x, s.domain x ≠ [] ∧ ∀ E, ArcConsistent s.constraints.toList E → Within E s.domain → E x = [] := by
  obtain ⟨t, run, empties, -⟩ := go_conflict h
  obtain ⟨x, had, emptied⟩ := empties.emptied
  have hn := QueueStep.run_narrows run
  refine ⟨x, fun hx => had ?_, fun E hac hE => emptied E ?_ (QueueStep.run_within run hac hE)⟩
  · have sub : List.Sublist (t.1.domain x) (s.domain x) := hn.domain x
    rw [hx] at sub
    exact List.sublist_nil.1 sub
  · rw [hn.constraints]
    exact hac

/-! ### Two orders of one network -/

/-- Two solvers list the same constraints in two orders and hold the same domains. -/
structure Reordered (s₁ s₂ : Solver) : Prop where
  perm : s₁.constraints.toList.Perm s₂.constraints.toList
  domains : s₁.domains = s₂.domains

theorem Reordered.domain (h : Reordered s₁ s₂) : s₁.domain = s₂.domain := by
  rw [domain_eq_domainAt, domain_eq_domainAt, h.domains]

theorem domains_eq_of_domain_eq (hsize : s₁.domains.size = s₂.domains.size)
    (h : ∀ b, s₁.domain b = s₂.domain b) : s₁.domains = s₂.domains := by
  refine Array.ext hsize fun i h₁ h₂ => ?_
  simpa [domain, Array.getElem?_eq_getElem h₁, Array.getElem?_eq_getElem h₂] using h ⟨i⟩

/-- Two propagations from reordered solvers, each started with a queue holding every constraint
not yet arc consistent, agree whenever both answer: both end on the greatest arc-consistent choice
within the same domains, and a conflict in one empties in that choice a buffer that the other
keeps filled. -/
theorem propagate_agree {q₁ q₂ : List Nat} {r₁ r₂ : Except Conflict Solver} (hre : Reordered s₁ s₂)
    (hlen₁ : q₁.length ≤ s₁.constraints.size) (hq₁ : ∀ j, j ∉ q₁ → s₁.Consistent j)
    (hlen₂ : q₂.length ≤ s₂.constraints.size) (hq₂ : ∀ j, j ∉ q₂ → s₂.Consistent j)
    (h₁ : (s₁.propagate q₁).run = .ok r₁) (h₂ : (s₂.propagate q₂).run = .ok r₂) :
    Agree Reordered r₁ r₂ := by
  have same := hre.domain
  rcases r₁ with c₁ | t₁ <;> rcases r₂ with c₂ | t₂
  · trivial
  · obtain ⟨x, had, emptied⟩ := propagate_conflict_emptied h₁
    obtain ⟨-, hac, -, keeps⟩ := propagate_greatest h₂ hlen₂ hq₂
    have within : Within t₂.domain s₁.domain := fun b l hl => by
      rw [same]
      exact ((propagate_narrows h₂).domain b).subset hl
    exact keeps x (same ▸ had) (emptied _ (hac.perm hre.perm.symm) within)
  · obtain ⟨x, had, emptied⟩ := propagate_conflict_emptied h₂
    obtain ⟨-, hac, -, keeps⟩ := propagate_greatest h₁ hlen₁ hq₁
    have within : Within t₁.domain s₂.domain := fun b l hl => by
      rw [← same]
      exact ((propagate_narrows h₁).domain b).subset hl
    exact keeps x (same ▸ had) (emptied _ (hac.perm hre.perm) within)
  · obtain ⟨f₁, hac₁, great₁, -⟩ := propagate_greatest h₁ hlen₁ hq₁
    obtain ⟨f₂, hac₂, great₂, -⟩ := propagate_greatest h₂ hlen₂ hq₂
    have hn₁ := propagate_narrows h₁
    have hn₂ := propagate_narrows h₂
    show Reordered t₁ t₂
    refine ⟨by rw [hn₁.constraints, hn₂.constraints]; exact hre.perm,
      domains_eq_of_domain_eq (by rw [hn₁.size, hn₂.size, hre.domains]) fun b => ?_⟩
    -- Each result holds the other, as both are the greatest choice within the same domains.
    have sub₁ := great₂ _ (hac₁.perm hre.perm) fun b l hl => by
      rw [← same]
      exact (hn₁.domain b).subset hl
    have sub₂ := great₁ _ (hac₂.perm hre.perm.symm) fun b l hl => by
      rw [same]
      exact (hn₂.domain b).subset hl
    have mem : ∀ l, l ∈ t₁.domain b ↔ l ∈ t₂.domain b := fun l => ⟨sub₁ b l, sub₂ b l⟩
    obtain ⟨p₁, hp₁⟩ := f₁ b
    obtain ⟨p₂, hp₂⟩ := f₂ b
    rw [hp₁, hp₂, ← same] at mem ⊢
    exact List.filter_eq_of_mem_iff mem

/-! ### The unary pass -/

/-- Whether a layout meets every requirement the constraints place on a buffer. -/
def MeetsAll (cs : List Constraint) (b : BufferId) (l : Layout) : Bool :=
  cs.all fun c => match c with
    | .unary _ x r => x != b || decide (r.admits l = .ok true)
    | .binary .. => true

theorem meetsAll_iff {cs : List Constraint} {l : Layout} :
    MeetsAll cs b l = true ↔ ∀ op r, .unary op b r ∈ cs → r.admits l = .ok true := by
  simp only [MeetsAll, List.all_eq_true]
  constructor
  · intro h op r hc
    simpa using h _ hc
  · intro h c hc
    cases c with
    | unary op x r =>
      by_cases hx : x = b
      · subst hx
        simp [h op r hc]
      · simp [hx]
    | binary => rfl

theorem meetsAll_perm {cs cs' : List Constraint} (hp : cs.Perm cs') : MeetsAll cs b = MeetsAll cs' b :=
  funext fun _ => Bool.eq_iff_iff.2 (by
    rw [meetsAll_iff, meetsAll_iff]
    exact forall₂_congr fun _ _ => imp_congr_left hp.mem_iff)

/-- One step of the unary pass filters the domains and keeps every candidate that meets all the
requirements on its buffer. -/
theorem unaryStep_keeps {t t' : Solver} {i : Nat} (h : (t.unaryStep i).run = .ok (.ok t'))
    (hcs : t.constraints = s.constraints)
    (hkeep : ∀ b, ∀ l ∈ s.domain b, MeetsAll s.constraints.toList b l = true → l ∈ t.domain b) :
    t.Filters t' ∧ t'.constraints = s.constraints ∧
      ∀ b, ∀ l ∈ s.domain b, MeetsAll s.constraints.toList b l = true → l ∈ t'.domain b := by
  rcases unaryStep_ok h with ⟨op, b, r, hc, -, rfl⟩ | ⟨-, rfl⟩
  · have hmem : .unary op b r ∈ s.constraints.toList := hcs ▸ mem_toList_of_getElem? hc
    refine ⟨filters_setDomain, hcs, fun x l hl hm => ?_⟩
    rw [domain_setDomain]
    split_ifs with hx
    · obtain ⟨rfl, -⟩ := hx
      exact List.mem_filter.2 ⟨hkeep _ l hl hm, decide_eq_true (meetsAll_iff.1 hm op r hmem)⟩
    · exact hkeep x l hl hm
  · exact ⟨.refl _, hcs, hkeep⟩

/-- After the unary pass, every domain holds, in order, the candidates of its buffer that meet all
the requirements on it, and a buffer with a requirement keeps some candidate. -/
theorem applyUnary_domain (h : s.applyUnary.run = .ok (.ok s')) :
    (∀ b, s'.domain b = (s.domain b).filter (MeetsAll s.constraints.toList b)) ∧
      ∀ op b r, .unary op b r ∈ s.constraints.toList → s'.domain b ≠ [] := by
  obtain ⟨hn, hmet, -, -⟩ := applyUnary_ok h
  rw [applyUnary_eq] at h
  have run := run_foldlM_ok
    (I := fun done t => s.Filters t ∧ t.constraints = s.constraints ∧
      (∀ b, ∀ l ∈ s.domain b, MeetsAll s.constraints.toList b l = true → l ∈ t.domain b) ∧
      ∀ j ∈ done, ∀ op b r, s.constraints[j]? = some (.unary op b r) → t.domain b ≠ [])
    (fun done i t₁ t₂ ⟨hf, hcs, hkeep, hne⟩ hs => by
      obtain ⟨hf₂, hcs₂, hkeep₂⟩ := unaryStep_keeps hs hcs hkeep
      refine ⟨hf.trans hf₂, hcs₂, hkeep₂, fun j hj op b r hj' => ?_⟩
      -- The requirement just applied left its buffer a candidate; the others' buffers keep theirs.
      rcases unaryStep_ok hs with ⟨op', b', r', hc, hne', rfl⟩ | ⟨hc, rfl⟩
      · rw [domain_setDomain]
        split_ifs with hb
        · exact hne'
        · rcases List.mem_append.1 hj with hj | hj
          · exact hne j hj op b r hj'
          · rw [List.mem_singleton.1 hj, ← hcs, hc] at hj'
            cases hj'
            refine absurd ⟨rfl, Nat.lt_of_not_le fun hb' => hne' ?_⟩ hb
            rw [domain_eq_nil_of_size_le hb']
            rfl
      · rcases List.mem_append.1 hj with hj | hj
        · exact hne j hj op b r hj'
        · rw [List.mem_singleton.1 hj, ← hcs] at hj'
          exact absurd hj' (hc op b r))
    [] ⟨.refl _, rfl, fun _ _ hl _ => hl, by simp⟩ h
  obtain ⟨hf, -, hkeep, hne⟩ := run
  refine ⟨fun b => ?_, fun op b r hc => ?_⟩
  · obtain ⟨p, hp⟩ := hf b
    -- What is left meets every requirement, and everything that meets them is left.
    have mem : ∀ l, l ∈ s'.domain b ↔ l ∈ (s.domain b).filter (MeetsAll s.constraints.toList b) := by
      intro l
      refine ⟨fun hl => List.mem_filter.2 ⟨(hn.domain b).subset hl, meetsAll_iff.2 fun op r hc =>
        hmet op b r (by rw [hn.constraints]; exact hc) l hl⟩, fun hl => ?_⟩
      obtain ⟨hl, hm⟩ := List.mem_filter.1 hl
      exact hkeep b l hl hm
    rw [hp] at mem ⊢
    exact List.filter_eq_of_mem_iff mem
  · obtain ⟨j, hj, hjc⟩ := List.getElem_of_mem hc
    have hjc' : s.constraints[j]? = some (.unary op b r) := by
      simpa [Array.getElem?_toList] using List.getElem?_eq_some_iff.2 ⟨hj, hjc⟩
    exact hne j (by simpa using hj) op b r hjc'

/-- A conflict in the unary pass is a buffer with a requirement none of whose candidates meets all
the requirements on it. -/
theorem applyUnary_conflict_unmet {c : Conflict} (h : s.applyUnary.run = .ok (.error c)) :
    ∃ op b r, .unary op b r ∈ s.constraints.toList ∧
      (s.domain b).filter (MeetsAll s.constraints.toList b) = [] := by
  rw [applyUnary_eq] at h
  obtain ⟨i, t, ⟨hcs, hkeep⟩, hs⟩ := run_foldlM_error
    (I := fun t => t.constraints = s.constraints ∧
      ∀ b, ∀ l ∈ s.domain b, MeetsAll s.constraints.toList b l = true → l ∈ t.domain b)
    (fun _ _ _ ⟨hcs, hkeep⟩ hs => (unaryStep_keeps hs hcs hkeep).2) ⟨rfl, fun _ _ hl _ => hl⟩ h
  obtain ⟨⟨op, b, r, hc, hnil⟩, -⟩ := unaryStep_conflict hs
  have hmem : .unary op b r ∈ s.constraints.toList := hcs ▸ mem_toList_of_getElem? hc
  refine ⟨op, b, r, hmem, List.eq_nil_iff_forall_not_mem.2 fun l hl => ?_⟩
  obtain ⟨hl, hm⟩ := List.mem_filter.1 hl
  -- Such a candidate is still there and passes the failing requirement, which passed nothing.
  have : l ∈ r.admittedPart (t.domain b) :=
    List.mem_filter.2 ⟨hkeep b l hl hm, decide_eq_true (meetsAll_iff.1 hm op r hmem)⟩
  rw [hnil] at this
  exact List.not_mem_nil this

/-- The unary passes of reordered solvers agree whenever both answer. -/
theorem applyUnary_agree {r₁ r₂ : Except Conflict Solver} (hre : Reordered s₁ s₂)
    (h₁ : s₁.applyUnary.run = .ok r₁) (h₂ : s₂.applyUnary.run = .ok r₂) : Agree Reordered r₁ r₂ := by
  have same := hre.domain
  have meets : ∀ b, MeetsAll s₁.constraints.toList b = MeetsAll s₂.constraints.toList b :=
    fun _ => meetsAll_perm hre.perm
  rcases r₁ with c₁ | t₁ <;> rcases r₂ with c₂ | t₂
  · trivial
  · obtain ⟨op, b, r, hmem, hnil⟩ := applyUnary_conflict_unmet h₁
    obtain ⟨hdom, hne⟩ := applyUnary_domain h₂
    exact hne op b r (hre.perm.mem_iff.1 hmem) (by rw [hdom, ← same, ← meets, hnil])
  · obtain ⟨op, b, r, hmem, hnil⟩ := applyUnary_conflict_unmet h₂
    obtain ⟨hdom, hne⟩ := applyUnary_domain h₁
    exact hne op b r (hre.perm.mem_iff.2 hmem) (by rw [hdom, same, meets, hnil])
  · obtain ⟨hdom₁, -⟩ := applyUnary_domain h₁
    obtain ⟨hdom₂, -⟩ := applyUnary_domain h₂
    have hn₁ := (applyUnary_ok h₁).1
    have hn₂ := (applyUnary_ok h₂).1
    show Reordered t₁ t₂
    refine ⟨by rw [hn₁.constraints, hn₂.constraints]; exact hre.perm,
      domains_eq_of_domain_eq (by rw [hn₁.size, hn₂.size, hre.domains]) fun b => ?_⟩
    rw [hdom₁, hdom₂, same, meets]

/-! ### The greedy phase -/

/-- The buffer the greedy phase fixes next depends on the domains alone. -/
theorem undecided_congr (h : s₁.domains = s₂.domains) : s₁.undecided = s₂.undecided := by
  unfold undecided
  rw [h]

/-- Fixing one buffer of reordered solvers to its first candidate keeps them reordered. -/
theorem Reordered.take_one (h : Reordered s₁ s₂) (b : BufferId) :
    Reordered (s₁.setDomain b ((s₁.domain b).take 1)) (s₂.setDomain b ((s₂.domain b).take 1)) :=
  ⟨h.perm, by simp only [setDomain, h.domain, h.domains]⟩

/-- Greedy phases from reordered, arc-consistent solvers agree whenever both answer: they fix the
same buffers to the same candidates, and propagate to agreeing states after each. -/
theorem settle_go_agree {fuel : Nat} :
    ∀ {s₁ s₂ : Solver} {r₁ r₂ : Except Conflict Solver}, Reordered s₁ s₂ →
      (∀ j, s₁.Consistent j) → (∀ j, s₂.Consistent j) →
      (settle.go fuel s₁).run = .ok r₁ → (settle.go fuel s₂).run = .ok r₂ → Agree Reordered r₁ r₂ := by
  induction fuel with
  | zero =>
    intro s₁ s₂ r₁ r₂ hre _ _ h₁ h₂
    obtain rfl := Except.ok.inj h₁
    obtain rfl := Except.ok.inj h₂
    exact hre
  | succ fuel ih =>
    intro s₁ s₂ r₁ r₂ hre hc₁ hc₂ h₁ h₂
    simp only [settle.go] at h₁ h₂
    rw [undecided_congr hre.domains] at h₁
    rcases hu : s₂.undecided with _ | b
    · simp only [hu] at h₁ h₂
      obtain rfl := Except.ok.inj h₁
      obtain rfl := Except.ok.inj h₂
      exact hre
    · simp only [hu] at h₁ h₂
      -- Both propagate from the same fixed buffer; the results are arc consistent again.
      exact agree_bind
        (R := fun t₁ t₂ => Reordered t₁ t₂ ∧ (∀ j, t₁.Consistent j) ∧ ∀ j, t₂.Consistent j)
        (fun r₁ r₂ hp₁ hp₂ => (propagate_agree (hre.take_one b)
            (length_arcsTouching_le none) (consistent_setDomain hc₁)
            (length_arcsTouching_le none) (consistent_setDomain hc₂) hp₁ hp₂).and
          (fun _ ht => propagate_consistent (ht ▸ hp₁) (length_arcsTouching_le none)
            (consistent_setDomain hc₁))
          (fun _ ht => propagate_consistent (ht ▸ hp₂) (length_arcsTouching_le none)
            (consistent_setDomain hc₂)))
        (fun _ _ _ _ hr hg₁ hg₂ => ih hr.1 hr.2.1 hr.2.2 hg₁ hg₂) h₁ h₂

/-! ### Runs that answer -/

/-- A computation answers: it ends with a result or an error of its own, without faulting. -/
def Answers {ε α : Type} (x : ExceptT ε Checked α) : Prop := ∃ r, x.run = .ok r

section Faults

variable {ε α β σ ι : Type}

theorem Answers.bind {x : ExceptT ε Checked α} {f : α → ExceptT ε Checked β} (hx : Answers x)
    (hf : ∀ a, x.run = .ok (.ok a) → Answers (f a)) : Answers (x >>= f) := by
  obtain ⟨r, hr⟩ := hx
  rw [Answers, ExceptT.run_bind, hr]
  rcases r with e | a
  · exact ⟨.error e, rfl⟩
  · exact hf a hr

/-- A fold answers when every step answers from the states the earlier ones reach. -/
theorem answers_foldlM {f : σ → ι → ExceptT ε Checked σ} (I : σ → Prop)
    (step : ∀ i t, I t → Answers (f t i) ∧ ∀ t', (f t i).run = .ok (.ok t') → I t') :
    ∀ {l : List ι} {t : σ}, I t → Answers (l.foldlM f t)
  | [], t, _ => ⟨.ok t, rfl⟩
  | i :: l, t, ht => by
    rw [List.foldlM_cons]
    exact (step i t ht).1.bind fun t' h' => answers_foldlM I step ((step i t ht).2 t' h')

theorem filterAuxM_answers {p : α → Checked Bool} :
    ∀ (l acc : List α), (∀ a ∈ l, ∃ v, p a = .ok v) → ∃ d, List.filterAuxM p l acc = .ok d
  | [], acc, _ => ⟨acc, rfl⟩
  | a :: l, acc, h => by
    obtain ⟨v, hv⟩ := h a List.mem_cons_self
    simp only [List.filterAuxM, hv, bind, Except.bind]
    exact filterAuxM_answers l _ fun x hx => h x (List.mem_cons_of_mem _ hx)

/-- A monadic filter answers when its test answers on every element. -/
theorem filterM_answers {p : α → Checked Bool} {l : List α} (h : ∀ a ∈ l, ∃ v, p a = .ok v) :
    ∃ d, l.filterM p = .ok d := by
  obtain ⟨d, hd⟩ := filterAuxM_answers l [] h
  exact ⟨d.reverse, by simp [List.filterM, hd, bind, Except.bind, pure, Except.pure]⟩

/-- A monadic search that faults faulted on one of the elements. -/
theorem findM?_fault {p : α → Checked Bool} {e : Fault} :
    ∀ {l : List α}, l.findM? p = .error e → ∃ a ∈ l, ∃ e', p a = .error e'
  | [], h => by cases h
  | a :: l, h => by
    rw [List.findM?] at h
    rcases hp : p a with e' | _ | _
    · exact ⟨a, List.mem_cons_self, e', hp⟩
    · simp only [hp, bind, Except.bind] at h
      obtain ⟨x, hx, e'', he⟩ := findM?_fault h
      exact ⟨x, List.mem_cons_of_mem _ hx, e'', he⟩
    · simp [hp, bind, Except.bind, pure, Except.pure] at h

end Faults

/-- Every requirement among the constraints answers, without faulting, on every candidate of its
buffer's domain. -/
def RequirementsAnswer (cs : List Constraint) (D : BufferId → List Layout) : Prop :=
  ∀ op b r, .unary op b r ∈ cs → ∀ l ∈ D b, ∃ v, r.admits l = .ok v

/-- Only a copy into a strip asks a question that can fault: whether a fragment's tile divides
the strip's. -/
theorem Requirement.admits_answers {r : Requirement} (hr : ∀ f, r ≠ .copyInto (some f)) (l : Layout) :
    ∃ v, r.admits l = .ok v := by
  cases l with
  | dense => exact ⟨false, rfl⟩
  | fragment f =>
    cases r with
    | mma operand => exact ⟨_, rfl⟩
    | strip =>
      simp only [Requirement.admits]
      split <;> exact ⟨_, rfl⟩
    | copyInto strip =>
      cases strip with
      | none => exact ⟨false, rfl⟩
      | some g => exact absurd rfl (hr g)

/-- The requirements of a solver's network answer on its initial domains. -/
def Answering (s : Solver) : Prop := RequirementsAnswer s.constraints.toList (domainAt s.initial)

theorem Narrows.answering (h : s.Narrows s') (hs : s.Answering) : s'.Answering := by
  unfold Answering
  rw [h.constraints, h.initial]
  exact hs

theorem Narrows.within_initial (h : s.Narrows s') (hw : Within s.domain (domainAt s.initial)) :
    Within s'.domain (domainAt s'.initial) := by
  intro b l hl
  rw [h.initial]
  exact hw b l ((h.domain b).subset hl)

/-- What a constraint touching the buffer admits of its initial domain is computed without
fault. -/
theorem admitted_answers {j : Nat} (hd : s.Answering)
    (hj : ∀ c, s.constraints[j]? = some c → c.touches b = true) : ∃ d, s.admitted j b = .ok d := by
  unfold admitted
  rcases hc : s.constraints[j]? with _ | ⟨op, x, r⟩ | ⟨op, x, y, rel⟩
  · exact ⟨[], rfl⟩
  · have hx : x = b := by simpa [Constraint.touches] using hj _ hc
    subst hx
    exact filterM_answers (hd op x r (mem_toList_of_getElem? hc))
  · exact ⟨_, rfl⟩

/-- Naming the conflict a constraint touching the buffer ran into never faults: it only asks the
constraints on the buffer what they admit. -/
theorem conflict_answers {i : Nat} (hd : s.Answering)
    (hi : ∀ c, s.constraints[i]? = some c → c.touches b = true) : ∃ c, s.conflict b i = .ok c := by
  obtain ⟨A, hA⟩ := admitted_answers hd hi
  have touching : ∀ j, (∀ c, s.constraints[j]? = some c → (j != i && c.touches b) = true) →
      ∃ d, s.admitted j b = .ok d := by
    intro j hP
    refine admitted_answers hd fun c hc => ?_
    have hjc := hP c hc
    simp only [Bool.and_eq_true] at hjc
    exact hjc.2
  rcases h : s.conflict b i with f | c
  · exfalso
    unfold conflict at h
    simp only [hA, bind, Except.bind] at h
    split at h
    · rename_i heq
      obtain ⟨j, hj, e', he'⟩ := findM?_fault heq
      obtain ⟨L, hL⟩ := touching j fun c hc => by simpa [hc] using (List.mem_filter.1 hj).2
      simp [hL, pure, Except.pure] at he'
    · rename_i v heq
      split at h
      · rename_i j hj
        -- The first side is the constraint found, or the last one on the buffer.
        obtain ⟨L, hL⟩ : ∃ L, s.admitted j b = .ok L := by
          cases v with
          | none =>
            have hjm := List.mem_filter.1 (List.mem_of_getLast? hj)
            exact touching j fun c hc => by simpa [hc] using hjm.2
          | some a =>
            obtain rfl : a = j := Option.some.inj hj
            have hjm := List.mem_filter.1 (findM?_eq_ok_some heq).1
            exact touching _ fun c hc => by simpa [hc] using hjm.2
        simp [hL, pure, Except.pure] at h
      · simp [pure, Except.pure] at h
  · exact ⟨c, rfl⟩

theorem reviseArc_answers {q : List Nat} {i : Nat} (hs : s.Answering)
    (hi : ∀ c, s.constraints[i]? = some c → c.touches x = true) : Answers (s.reviseArc q i x y rel) := by
  have hn : s.Narrows (s.revise x y rel).1 := narrows_revise
  unfold reviseArc
  rcases hr : s.revise x y rel with ⟨s₁, _ | _⟩ <;> simp only
  · exact ⟨_, rfl⟩
  · rw [hr] at hn
    by_cases he : (s₁.domain x).isEmpty = true
    · simp only [Bool.not_true, he, if_true]
      obtain ⟨c, hc⟩ := conflict_answers (hn.answering hs) (hn.constraints ▸ hi)
      exact ⟨.error c, run_liftM_bind_throw_eq_error.2 hc⟩
    · simp only [Bool.not_true, he, Bool.false_eq_true, if_false]
      exact ⟨_, rfl⟩

/-- Propagation never faults when the requirements answer: it only revises arcs and names the
conflicts it runs into. -/
theorem go_answers {fuel : Nat} : ∀ {s : Solver} {q : List Nat}, s.Answering →
    Answers (propagate.go fuel s q) := by
  induction fuel with
  | zero => exact fun _ => ⟨_, rfl⟩
  | succ fuel ih =>
    intro s q hs
    cases q with
    | nil => exact ⟨_, rfl⟩
    | cons i rest =>
      rcases hc : s.constraints[i]? with _ | ⟨_ | ⟨op, x, y, rel⟩⟩ <;> simp only [propagate.go, hc]
      · exact ih hs
      · exact ih hs
      · -- Both arcs of the binary constraint touch the buffer they revise.
        have touches : ∀ {t : Solver} {b}, t.constraints = s.constraints → (b = x ∨ b = y) →
            ∀ c, t.constraints[i]? = some c → c.touches b = true := by
          intro t b ht hb c hc'
          rw [ht, hc] at hc'
          cases hc'
          rcases hb with rfl | rfl <;> simp [Constraint.touches]
        refine (reviseArc_answers hs (touches rfl (.inl rfl))).bind fun r₁ h₁ => ?_
        obtain ⟨s₁, q₁⟩ := r₁
        have hn₁ : s.Narrows s₁ :=
          (show s₁ = (s.revise x y rel).1 from (reviseArc_ok h₁).1) ▸ narrows_revise
        refine (reviseArc_answers (hn₁.answering hs) (touches hn₁.constraints (.inr rfl))).bind
          fun r₂ h₂ => ?_
        obtain ⟨s₂, q₂⟩ := r₂
        exact ih ((QueueStep.revise hc h₁ h₂).narrows.answering hs)

theorem propagate_answers {q : List Nat} (hs : s.Answering) : Answers (s.propagate q) := go_answers hs

theorem unaryStep_narrows {t t' : Solver} {i : Nat} (h : (t.unaryStep i).run = .ok (.ok t')) :
    t.Narrows t' := by
  rcases unaryStep_ok h with ⟨op, b, r, -, -, rfl⟩ | ⟨-, rfl⟩
  · exact narrows_setDomain List.filter_sublist
  · exact .refl _

/-- A requirement is asked only about candidates of its buffer's current domain, which stay
among the initial ones. -/
theorem unaryStep_answers {i : Nat} (hs : s.Answering) (hw : Within s.domain (domainAt s.initial)) :
    Answers (s.unaryStep i) := by
  unfold unaryStep
  split
  · rename_i op b r hc
    obtain ⟨d, hd⟩ := filterM_answers fun l hl => hs op b r (mem_toList_of_getElem? hc) l (hw b l hl)
    refine Answers.bind ⟨.ok d, run_liftM_eq_ok.2 hd⟩ fun d' _ => ?_
    by_cases he : d'.isEmpty = true
    · simp only [he, if_true]
      obtain ⟨c, hcf⟩ := conflict_answers (s := s.setDomain b d') (b := b) hs fun c' hc' => by
        rw [constraints_setDomain, hc] at hc'
        cases hc'
        simp [Constraint.touches]
      exact ⟨.error c, run_liftM_bind_throw_eq_error.2 hcf⟩
    · simp only [he, Bool.false_eq_true, if_false]
      exact ⟨_, rfl⟩
  · exact ⟨_, rfl⟩

theorem applyUnary_answers (hs : s.Answering) (hw : Within s.domain (domainAt s.initial)) :
    Answers s.applyUnary := by
  rw [applyUnary_eq]
  exact answers_foldlM (fun t => t.Answering ∧ Within t.domain (domainAt t.initial))
    (fun _ _ ht => ⟨unaryStep_answers ht.1 ht.2,
      fun _ h => ⟨(unaryStep_narrows h).answering ht.1, (unaryStep_narrows h).within_initial ht.2⟩⟩)
    ⟨hs, hw⟩

theorem settle_go_answers {fuel : Nat} : ∀ {s : Solver}, s.Answering → Answers (settle.go fuel s) := by
  induction fuel with
  | zero => exact fun _ => ⟨_, rfl⟩
  | succ fuel ih =>
    intro s hs
    rcases hu : s.undecided with _ | b <;> simp only [settle.go, hu]
    · exact ⟨_, rfl⟩
    · have hs₁ := (narrows_take_one (b := b)).answering hs
      exact (propagate_answers hs₁).bind fun _ h => ih ((propagate_narrows h).answering hs₁)

/-- The search never faults when every requirement answers on every initial candidate of its
buffer. -/
theorem solve_answers {cs : List Constraint} {D : Array (List Layout)}
    (hd : RequirementsAnswer cs (domainAt D)) : Answers (solve cs D) := by
  have hs : (⟨cs.toArray, D, D⟩ : Solver).Answering := by simpa [Answering] using hd
  refine (applyUnary_answers hs fun _ _ hl => hl).bind fun s₁ h₁ => ?_
  have hs₁ := (applyUnary_ok h₁).1.answering hs
  refine (propagate_answers hs₁).bind fun s₂ h₂ => ?_
  exact (settle_go_answers ((propagate_narrows h₂).answering hs₁)).bind fun _ _ => ⟨_, rfl⟩

/-! ### The whole search -/

/-- A queue of every constraint leaves none unchecked. -/
theorem consistent_of_not_mem_range {j : Nat} (hj : j ∉ List.range s.constraints.size) :
    s.Consistent j :=
  consistent_of_size_le (Nat.le_of_not_lt fun hlt => hj (List.mem_range.2 hlt))

/-- **Solving does not depend on the order of the constraints.** Two runs of the search on two
orders of one list of constraints, from the same initial domains, that both answer give the same
answer: the same layouts for the same buffers, or a conflict both times. -/
theorem solve_perm {cs cs' : List Constraint} (hp : cs.Perm cs') (D : Array (List Layout))
    {r r' : Except Conflict (List (BufferId × Layout))} (h : (solve cs D).run = .ok r)
    (h' : (solve cs' D).run = .ok r') : r.toOption = r'.toOption := by
  have hre : Reordered ⟨cs.toArray, D, D⟩ ⟨cs'.toArray, D, D⟩ := ⟨by simpa using hp, rfl⟩
  refine Agree.toOption_eq (agree_bind (fun _ _ h₁ h₂ => applyUnary_agree hre h₁ h₂)
    (fun s₁ s₂ _ _ hre₁ h₁ h₂ => ?_) h h')
  -- Propagation from a queue of every constraint leaves both sides arc consistent.
  refine agree_bind
    (R := fun t₁ t₂ => Reordered t₁ t₂ ∧ (∀ j, t₁.Consistent j) ∧ ∀ j, t₂.Consistent j)
    (fun _ _ hp₁ hp₂ => (propagate_agree hre₁ (by simp) (fun _ => consistent_of_not_mem_range)
        (by simp) (fun _ => consistent_of_not_mem_range) hp₁ hp₂).and
      (fun _ ht => propagate_all_consistent (ht ▸ hp₁))
      (fun _ ht => propagate_all_consistent (ht ▸ hp₂)))
    (fun t₁ t₂ _ _ hr h₁ h₂ => ?_) h₁ h₂
  obtain ⟨hre₂, hc₁, hc₂⟩ := hr
  -- The greedy phases run one round per buffer, as many on both sides.
  have fuel : t₂.settle = settle.go t₁.domains.size t₂ := by
    rw [hre₂.domains]
    rfl
  refine agree_bind (R := Reordered)
    (fun _ _ hs₁ hs₂ => settle_go_agree hre₂ hc₁ hc₂ hs₁ (fuel ▸ hs₂))
    (fun u₁ u₂ _ _ hre₃ h₁ h₂ => ?_) h₁ h₂
  -- The answer reads the decided domains alone.
  obtain rfl := Except.ok.inj h₁
  obtain rfl := Except.ok.inj h₂
  show _ = _
  rw [hre₃.domains]

/-- **The search answers alike for every order of the constraints.** When every requirement
answers on the initial candidates of its buffer, the search on two orders of one list of
constraints answers both times, without fault, and gives the same layouts or a conflict both
times. -/
theorem solve_order_independent {cs cs' : List Constraint} (hp : cs.Perm cs') {D : Array (List Layout)}
    (hd : RequirementsAnswer cs (domainAt D)) :
    ∃ r r', (solve cs D).run = .ok r ∧ (solve cs' D).run = .ok r' ∧ r.toOption = r'.toOption := by
  obtain ⟨r, h⟩ := solve_answers hd
  obtain ⟨r', h'⟩ := solve_answers fun op b rq hm => hd op b rq (hp.mem_iff.2 hm)
  exact ⟨r, r', h, h', solve_perm hp D h h'⟩

/-- Without the hypothesis the order shows: a copy into a strip asks a matrix-unit fragment with a
zero tile whether its tile divides the strip's, and faults when it comes first, while a product
operand that admits nothing, coming first, ends the search on a conflict before that question is
asked. -/
theorem zero_tile_fault_depends_on_order :
    (∃ e, (solve [.unary ⟨0⟩ ⟨0⟩ (.copyInto (some ⟨.strip 1, (16, 16), (16, 16), 32⟩)),
        .unary ⟨1⟩ ⟨1⟩ (.mma .a)]
      #[[.fragment ⟨.mma .a, (16, 16), (0, 0), 32⟩], [.fragment ⟨.strip 1, (16, 16), (16, 16), 32⟩]]).run
        = .error e) ∧
    ∃ c, (solve [.unary ⟨1⟩ ⟨1⟩ (.mma .a),
        .unary ⟨0⟩ ⟨0⟩ (.copyInto (some ⟨.strip 1, (16, 16), (16, 16), 32⟩))]
      #[[.fragment ⟨.mma .a, (16, 16), (0, 0), 32⟩], [.fragment ⟨.strip 1, (16, 16), (16, 16), 32⟩]]).run
        = .ok (.error c) :=
  ⟨⟨_, rfl⟩, ⟨_, rfl⟩⟩

end Solver
end TileKernel
