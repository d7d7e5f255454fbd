import TileKernel.Proofs.Network
import TileKernel.Assignment.Solver
import Mathlib.Logic.Relation
import Mathlib.Algebra.GroupWithZero.Nat

/-!
# Propagation reaches arc consistency

`Solver.propagate` works through a queue of constraints. Taking a binary constraint off the
queue revises both of its arcs; a buffer whose domain shrank puts back every other binary
constraint touching it. This file follows one queue step (`QueueStep`) and derives what a whole
run keeps:

* domains only narrow (`Narrows`), so every solution inside the domains stays inside them
  (`propagate_admits`), and a run that empties a domain proves there is none
  (`propagate_conflict`);
* the constraints off the queue stay arc consistent. Both relations are symmetric, so revising
  the second arc of a constraint never breaks its first: this is why the queue may skip putting
  back the constraint just revised;
* each step lowers `measure`, the candidates left weighted by the number of constraints plus
  the queue's length, so the fuel `propagationBound` always suffices and every run ends with an
  empty queue (`propagate_consistent`).
-/

set_option autoImplicit false

namespace TileKernel

section Outcome

variable {ε α β : Type}

theorem run_bind_eq_ok {x : ExceptT ε Checked α} {f : α → ExceptT ε Checked β} {b : β} :
    (x >>= f).run = .ok (.ok b) ↔ ∃ a, x.run = .ok (.ok a) ∧ (f a).run = .ok (.ok b) := by
  rw [ExceptT.run_bind]
  rcases x.run with _ | _ | a <;> simp [bind, Except.bind, pure, Except.pure]

theorem run_bind_eq_error {x : ExceptT ε Checked α} {f : α → ExceptT ε Checked β} {e : ε} :
    (x >>= f).run = .ok (.error e) ↔
      x.run = .ok (.error e) ∨ ∃ a, x.run = .ok (.ok a) ∧ (f a).run = .ok (.error e) := by
  rw [ExceptT.run_bind]
  rcases x.run with _ | _ | a <;> simp [bind, Except.bind, pure, Except.pure]

/-- Throwing what a computation answers never succeeds. -/
theorem run_liftM_bind_throw_ne_ok (x : Checked ε) (b : α) :
    ((liftM x >>= throw : ExceptT ε Checked α)).run ≠ .ok (.ok b) := by
  intro h
  obtain ⟨e, -, he⟩ := run_bind_eq_ok.1 h
  simp [ExceptT.run_throw, pure, Except.pure] at he

theorem run_liftM_bind_throw_eq_error {x : Checked ε} {e : ε} :
    ((liftM x >>= throw : ExceptT ε Checked α)).run = .ok (.error e) ↔ x = .ok e := by
  rcases x with f | e'
  · change (Except.error f : Checked _) = _ ↔ _
    simp
  · change (Except.ok (Except.error e') : Checked (Except ε α)) = _ ↔ _
    simp

end Outcome

/-- A sum of `Nat`s with one entry replaced. -/
theorem List.sum_set_add {l : List Nat} {i : Nat} (h : i < l.length) (a : Nat) :
    (l.set i a).sum + l[i] = l.sum + a := by
  induction l generalizing i with
  | nil => simp at h
  | cons x xs ih =>
    cases i with
    | zero => simp; omega
    | succ i =>
      have := ih (i := i) (by simpa using h)
      simp; omega

/-- The ops a conflict blames, on either side, each declared one of the constraints `cs`. -/
def Conflict.NamesOpsOf (c : Conflict) (cs : List Constraint) : Prop :=
  ∀ x, c.first.op = some x ∨ c.second.op = some x → ∃ con ∈ cs, con.op = x

namespace Solver

variable {s s' : Solver} {x y b : BufferId} {rel : Relation} {d : List Layout}

/-! ### Domains -/

@[simp] theorem constraints_setDomain : (s.setDomain x d).constraints = s.constraints := rfl

@[simp] theorem initial_setDomain : (s.setDomain x d).initial = s.initial := rfl

@[simp] theorem size_setDomain : (s.setDomain x d).domains.size = s.domains.size := by
  simp [setDomain]

theorem domain_eq_domainAt : s.domain = domainAt s.domains := rfl

theorem domain_eq_nil_of_size_le (h : s.domains.size ≤ b.idx) : s.domain b = [] := by
  simp [domain, Array.getElem?_eq_none h]

theorem domain_setDomain :
    (s.setDomain x d).domain b = if b = x ∧ x.idx < s.domains.size then d else s.domain b := by
  unfold domain setDomain
  by_cases hb : b = x
  · subst hb
    by_cases h : b.idx < s.domains.size <;> simp [h]
  · have : x.idx ≠ b.idx := fun h => hb (by cases b; cases x; simp_all)
    simp [hb, Array.getElem?_setIfInBounds_ne this]

/-- The layouts of `x` that `y`'s domain supports. -/
def supportedPart (s : Solver) (x y : BufferId) (rel : Relation) : List Layout :=
  (s.domain x).filter fun l => (s.domain y).any (rel.holds l)

@[simp] theorem constraints_revise : (s.revise x y rel).1.constraints = s.constraints := rfl

@[simp] theorem initial_revise : (s.revise x y rel).1.initial = s.initial := rfl

@[simp] theorem size_revise : (s.revise x y rel).1.domains.size = s.domains.size := by
  simp [revise]

theorem domain_revise :
    (s.revise x y rel).1.domain b = if b = x then s.supportedPart x y rel else s.domain b := by
  simp only [revise, domain_setDomain]
  by_cases hb : b = x
  · subst hb
    by_cases h : b.idx < s.domains.size
    · simp [h, supportedPart]
    · simp [h, supportedPart, domain_eq_nil_of_size_le (Nat.le_of_not_lt h)]
  · simp [hb]

theorem shrank_revise :
    (s.revise x y rel).2 = true ↔ (s.supportedPart x y rel).length < (s.domain x).length := by
  have := List.length_filter_le (fun l => (s.domain y).any (rel.holds l)) (s.domain x)
  simp only [revise, supportedPart, bne_iff_ne, ne_eq]
  omega

/-- A revision that did not shrink its buffer changed no domain. -/
theorem domain_revise_of_not_shrank (h : (s.revise x y rel).2 = false) (b : BufferId) :
    (s.revise x y rel).1.domain b = s.domain b := by
  rw [domain_revise]
  split_ifs with hb
  · subst hb
    have hlen : ¬ (s.supportedPart b y rel).length < (s.domain b).length := by
      rw [← shrank_revise, h]; simp
    have hle := List.length_filter_le (fun l => (s.domain y).any (rel.holds l)) (s.domain b)
    unfold supportedPart at hlen ⊢
    exact List.filter_eq_self.2 (List.length_filter_eq_length_iff.1 (by omega))
  · rfl

/-! ### Narrowing, solutions and consistency -/

/-- `s'` narrows `s`: the same network, each domain a sublist of the one before. -/
structure Narrows (s s' : Solver) : Prop where
  constraints : s'.constraints = s.constraints
  initial : s'.initial = s.initial
  size : s'.domains.size = s.domains.size
  domain : ∀ b, List.Sublist (s'.domain b) (s.domain b)

theorem Narrows.refl (s : Solver) : s.Narrows s := ⟨rfl, rfl, rfl, fun _ => List.Sublist.refl _⟩

theorem Narrows.trans {s'' : Solver} (h : s.Narrows s') (h' : s'.Narrows s'') : s.Narrows s'' :=
  ⟨h'.constraints.trans h.constraints, h'.initial.trans h.initial, h'.size.trans h.size,
    fun b => (h'.domain b).trans (h.domain b)⟩

theorem narrows_setDomain (h : List.Sublist d (s.domain x)) : s.Narrows (s.setDomain x d) := by
  refine ⟨rfl, rfl, size_setDomain, fun b => ?_⟩
  rw [domain_setDomain]
  split_ifs with hb
  · rw [hb.1]; exact h
  · exact List.Sublist.refl _

theorem narrows_revise : s.Narrows (s.revise x y rel).1 :=
  narrows_setDomain (List.filter_sublist)

/-- The solutions of the network whose layouts lie in the current domains. -/
def Admits (s : Solver) (a : BufferId → Layout) : Prop := Solves s.constraints.toList s.domain a

/-- Constraint `j` is arc consistent in the current domains; only binary constraints can fail to
be. -/
def Consistent (s : Solver) (j : Nat) : Prop :=
  ∀ op x y rel, s.constraints[j]? = some (.binary op x y rel) →
    Supported s.domain rel x y ∧ Supported s.domain rel y x

theorem arcConsistent_of_consistent (h : ∀ j, s.Consistent j) :
    ArcConsistent s.constraints.toList s.domain := by
  intro op x y rel hc
  obtain ⟨j, hj, hjc⟩ := List.getElem_of_mem hc
  exact h j op x y rel (by simpa [Array.getElem?_toList] using List.getElem?_eq_some_iff.2 ⟨hj, hjc⟩)

/-- Revising `x` against `y` keeps every solution in which the relation holds. -/
theorem admits_revise {a : BufferId → Layout} (ha : s.Admits a) (hx : a x ∈ s.domain x)
    (hy : a y ∈ s.domain y) (hxy : rel.holds (a x) (a y) = true) : (s.revise x y rel).1.Admits a := by
  refine ⟨fun c hc b hb => ?_, ha.holds⟩
  rw [domain_revise]
  split_ifs with hbx
  · subst hbx
    exact List.mem_filter.2 ⟨hx, List.any_eq_true.2 ⟨a y, hy, hxy⟩⟩
  · exact ha.mem c hc b hb

/-- Revising `x` against `y` leaves every layout of `x` related to one of `y`. -/
theorem supported_revise : Supported (s.revise x y rel).1.domain rel x y := by
  intro l hl
  rw [domain_revise, if_pos rfl] at hl
  obtain ⟨hl', hsup⟩ := List.mem_filter.1 hl
  obtain ⟨m, hm, hlm⟩ := List.any_eq_true.1 hsup
  by_cases hyx : y = x
  · -- A relation on one buffer: `l` supports itself.
    subst hyx
    exact ⟨l, by rw [domain_revise, if_pos rfl]; exact hl, rel.holds_self hlm⟩
  · exact ⟨m, by rwa [domain_revise, if_neg hyx], hlm⟩

/-- Revising `y` against `x` keeps the arc from `x` to `y` supported: a layout of `y` supporting
one of `x` is itself supported by it, as the relation is symmetric. -/
theorem supported_revise_of_supported (h : Supported s.domain rel x y) :
    Supported (s.revise y x rel).1.domain rel x y := by
  intro l hl
  by_cases hxy : x = y
  · subst hxy
    rw [domain_revise, if_pos rfl] at hl
    obtain ⟨m, -, hlm⟩ := List.any_eq_true.1 (List.mem_filter.1 hl).2
    exact ⟨l, by rw [domain_revise, if_pos rfl]; exact hl, rel.holds_self hlm⟩
  · rw [domain_revise, if_neg hxy] at hl
    obtain ⟨m, hm, hlm⟩ := h l hl
    refine ⟨m, ?_, hlm⟩
    rw [domain_revise, if_pos rfl]
    exact List.mem_filter.2 ⟨hm, List.any_eq_true.2 ⟨l, hl, by rw [rel.holds_comm]; exact hlm⟩⟩

/-! ### Conflicts -/

theorem mem_toList_of_getElem? {j : Nat} {c : Constraint} (hc : s.constraints[j]? = some c) :
    c ∈ s.constraints.toList := by
  obtain ⟨hj, rfl⟩ := Array.getElem?_eq_some_iff.1 hc
  exact Array.getElem_mem_toList hj

/-- Every op a conflict blames declared one of the solver's constraints. -/
theorem conflict_names {c : Conflict} {i : Nat} (h : s.conflict b i = .ok c) :
    c.NamesOpsOf s.constraints.toList := by
  have opOf : ∀ (j : Nat) (x : OpId), s.constraints[j]?.map Constraint.op = some x →
      ∃ con ∈ s.constraints.toList, con.op = x := by
    intro j x hj
    obtain ⟨con, hc, rfl⟩ := Option.map_eq_some_iff.1 hj
    exact ⟨con, mem_toList_of_getElem? hc, rfl⟩
  intro x hx
  unfold conflict at h
  simp only [bind, Except.bind] at h
  split at h
  · cases h
  split at h
  · cases h
  -- The first side is another constraint on the buffer, or the declaration.
  split at h
  · split at h
    · cases h
    simp only [pure, Except.pure] at h
    obtain rfl := Except.ok.inj h
    rcases hx with hx | hx
    · exact opOf _ x hx
    · exact opOf _ x hx
  · simp only [pure, Except.pure] at h
    obtain rfl := Except.ok.inj h
    rcases hx with hx | hx
    · cases hx
    · exact opOf _ x hx

/-! ### Requeueing -/

theorem mem_arcsTouching {j : Nat} {except : Option Nat} :
    j ∈ s.arcsTouching b except ↔
      some j ≠ except ∧ ∃ c, s.constraints[j]? = some c ∧ c.isBinary = true ∧ c.touches b = true := by
  unfold arcsTouching
  rw [List.mem_filter, List.mem_range]
  constructor
  · rintro ⟨hj, hc⟩
    rcases hjc : s.constraints[j]? with _ | c
    · simp [hjc] at hc
    · simp only [hjc, Bool.and_eq_true, bne_iff_ne, ne_eq] at hc
      exact ⟨hc.1, c, rfl, hc.2⟩
  · rintro ⟨hne, c, hjc, hb, ht⟩
    refine ⟨(Array.getElem?_eq_some_iff.1 hjc).1, ?_⟩
    simp [hjc, hne, hb, ht]

theorem length_arcsTouching_le (except : Option Nat) :
    (s.arcsTouching b except).length ≤ s.constraints.size :=
  Nat.le_trans (List.length_filter_le _ _) (by simp)

variable {q : List Nat} {i : Nat} {r : Solver × List Nat}

/-- A revision that runs into no conflict: the revised state, and the queue with the other
constraints touching `x` put back when `x` shrank, which leaves `x` some layout. -/
theorem reviseArc_ok (h : (s.reviseArc q i x y rel).run = .ok (.ok r)) :
    r.1 = (s.revise x y rel).1 ∧
      ((s.revise x y rel).2 = false ∧ r.2 = q ∨
        (s.revise x y rel).2 = true ∧ r.1.domain x ≠ [] ∧
          r.2 = q ++ (r.1.arcsTouching x (some i)).filter fun j => !q.contains j) := by
  unfold reviseArc at h
  rcases hr : s.revise x y rel with ⟨s₁, _ | _⟩ <;> simp only [hr] at h
  · simp only [Bool.not_false, if_true] at h
    obtain rfl : (s₁, q) = r := Except.ok.inj (Except.ok.inj h)
    simp
  · by_cases he : (s₁.domain x).isEmpty = true
    · simp only [Bool.not_true, he, if_true] at h
      exact absurd h (run_liftM_bind_throw_ne_ok _ _)
    · simp only [Bool.not_true, he, Bool.false_eq_true, if_false] at h
      obtain rfl := Except.ok.inj (Except.ok.inj h)
      simpa using he

/-- A revision fails only by emptying `x`, which had a candidate before, and reports the conflict
it names there. -/
theorem reviseArc_conflict {c : Conflict} (h : (s.reviseArc q i x y rel).run = .ok (.error c)) :
    s.domain x ≠ [] ∧ (s.revise x y rel).1.domain x = [] ∧ (s.revise x y rel).1.conflict x i = .ok c := by
  unfold reviseArc at h
  rcases hr : s.revise x y rel with ⟨s₁, _ | _⟩ <;> simp only [hr] at h
  · nomatch Except.ok.inj h
  · -- Only a revision that shrank `x` can throw, and a domain that shrank was not empty.
    have had : s.domain x ≠ [] := by
      have := shrank_revise.1 (by rw [hr])
      intro hnil
      simp [hnil] at this
    by_cases he : (s₁.domain x).isEmpty = true
    · simp only [Bool.not_true, he, if_true] at h
      exact ⟨had, by simpa using he, run_liftM_bind_throw_eq_error.1 h⟩
    · simp only [Bool.not_true, he, Bool.false_eq_true, if_false] at h
      nomatch Except.ok.inj h

/-- Revision keeps the queue and adds only constraints touching a buffer that shrank. -/
theorem reviseArc_queue (h : (s.reviseArc q i x y rel).run = .ok (.ok r)) : ∀ j ∈ q, j ∈ r.2 := by
  obtain ⟨-, ⟨-, hq⟩ | ⟨-, -, hq⟩⟩ := reviseArc_ok h <;> rw [hq] <;> simp +contextual

/-- A constraint other than `i` left off the queue by a revision has its domains untouched. -/
theorem reviseArc_frame (h : (s.reviseArc q i x y rel).run = .ok (.ok r)) {j : Nat} (hj : j ≠ i)
    (hq : j ∉ r.2) {op : OpId} {u v : BufferId} {rel' : Relation}
    (hc : s.constraints[j]? = some (.binary op u v rel')) :
    r.1.domain u = s.domain u ∧ r.1.domain v = s.domain v := by
  obtain ⟨hr, ⟨hs, -⟩ | ⟨-, -, hq'⟩⟩ := reviseArc_ok h
  · rw [hr]
    exact ⟨domain_revise_of_not_shrank hs u, domain_revise_of_not_shrank hs v⟩
  · -- Had the constraint touched `x`, the revision would have queued it.
    have untouched : ∀ w, w = u ∨ w = v → w ≠ x := by
      rintro w hw rfl
      apply hq
      rw [hq', List.mem_append, List.mem_filter, mem_arcsTouching, hr]
      by_cases hjq : j ∈ q
      · exact Or.inl hjq
      · refine Or.inr ⟨⟨by simpa using hj, _, hc, rfl, ?_⟩, by simpa using hjq⟩
        rcases hw with rfl | rfl <;> simp [Constraint.touches]
    rw [hr, domain_revise, domain_revise, if_neg (untouched u (.inl rfl)),
      if_neg (untouched v (.inr rfl))]
    exact ⟨rfl, rfl⟩

/-- Every buffer of the solver has a candidate left. -/
def Filled (s : Solver) : Prop := ∀ b, b.idx < s.domains.size → s.domain b ≠ []

/-- A revision that runs into no conflict leaves every domain that had a candidate with one. -/
theorem reviseArc_filled (h : (s.reviseArc q i x y rel).run = .ok (.ok r)) (hf : s.Filled) :
    r.1.Filled := by
  intro b hb
  obtain ⟨hr, ⟨hs, -⟩ | ⟨-, hx, -⟩⟩ := reviseArc_ok h
  · rw [hr, domain_revise_of_not_shrank hs]
    exact hf b (by rwa [hr, size_revise] at hb)
  · by_cases hbx : b = x
    · subst hbx; exact hx
    · rw [hr, domain_revise, if_neg hbx]
      exact hf b (by rwa [hr, size_revise] at hb)

/-! ### The measure every step lowers -/

/-- The number of candidates left over all buffers. -/
def weight (s : Solver) : Nat := (s.domains.toList.map List.length).sum

theorem foldl_add_length (l : List (List Layout)) (n : Nat) :
    l.foldl (fun n d => n + d.length) n = n + (l.map List.length).sum := by
  induction l generalizing n with
  | nil => simp
  | cons d l ih => simp [ih]; omega

theorem propagationBound_eq :
    s.propagationBound = (s.weight + 1) * (s.constraints.size + 1) + 1 := by
  simp only [propagationBound, weight, foldl_add_length, Nat.zero_add]

theorem weight_setDomain (hx : x.idx < s.domains.size) :
    (s.setDomain x d).weight + (s.domain x).length = s.weight + d.length := by
  have := List.sum_set_add (l := s.domains.toList.map List.length) (i := x.idx) (by simpa using hx)
    d.length
  simp only [List.getElem_map, Array.getElem_toList] at this
  simpa [weight, setDomain, domain, Array.getElem?_eq_getElem hx] using this

theorem weight_revise :
    (s.revise x y rel).1.weight + (s.domain x).length = s.weight + (s.supportedPart x y rel).length := by
  show (s.setDomain x (s.supportedPart x y rel)).weight + _ = _
  by_cases hx : x.idx < s.domains.size
  · exact weight_setDomain hx
  · have hnil := domain_eq_nil_of_size_le (Nat.le_of_not_lt hx)
    simp [weight, setDomain, Array.setIfInBounds, hx, supportedPart, hnil]

/-- What every queue step lowers: the candidates left, each worth more than a full queue, plus
the length of the queue. -/
def measure (s : Solver) (q : List Nat) : Nat := s.weight * (s.constraints.size + 1) + q.length

theorem reviseArc_measure_le (h : (s.reviseArc q i x y rel).run = .ok (.ok r)) :
    measure r.1 r.2 ≤ measure s q := by
  have hw : (s.revise x y rel).1.weight + (s.domain x).length =
      s.weight + (s.supportedPart x y rel).length := weight_revise
  obtain ⟨hr, ⟨hs, hq⟩ | ⟨hs, -, hq⟩⟩ := reviseArc_ok h
  · have : (s.supportedPart x y rel).length = (s.domain x).length := by
      have kept : ¬ (s.supportedPart x y rel).length < (s.domain x).length := by
        rw [← shrank_revise, hs]; simp
      have := List.length_filter_le (fun l => (s.domain y).any (rel.holds l)) (s.domain x)
      simp only [supportedPart] at *
      omega
    simp only [measure, hr, hq, constraints_revise]
    have : (s.revise x y rel).1.weight = s.weight := by omega
    rw [this]
  · -- A shrink frees at least one candidate, worth more than the constraints it queues.
    have fewer : (s.revise x y rel).1.weight + 1 ≤ s.weight := by
      have := shrank_revise.1 hs
      omega
    have queued : r.2.length ≤ q.length + s.constraints.size := by
      rw [hq, List.length_append]
      have := List.length_filter_le (fun j => !q.contains j) (r.1.arcsTouching x (some i))
      have := length_arcsTouching_le (s := r.1) (b := x) (some i)
      simp only [hr, constraints_revise] at *
      omega
    have := Nat.mul_le_mul_right (s.constraints.size + 1) fewer
    rw [Nat.succ_mul] at this
    simp only [measure, hr, constraints_revise] at *
    omega

/-! ### One queue step -/

/-- One step of propagation that runs no domain empty: a binary constraint taken off the queue
revises both of its arcs; any other constraint is dropped. -/
inductive QueueStep : Solver × List Nat → Solver × List Nat → Prop
  | revise {s : Solver} {i : Nat} {rest : List Nat} {op : OpId} {x y : BufferId} {rel : Relation}
      {r₁ r₂ : Solver × List Nat} (hc : s.constraints[i]? = some (.binary op x y rel))
      (h₁ : (s.reviseArc rest i x y rel).run = .ok (.ok r₁))
      (h₂ : (r₁.1.reviseArc r₁.2 i y x rel).run = .ok (.ok r₂)) :
      QueueStep (s, i :: rest) r₂
  | skip {s : Solver} {i : Nat} {rest : List Nat}
      (hc : ∀ op x y rel, s.constraints[i]? ≠ some (.binary op x y rel)) :
      QueueStep (s, i :: rest) (s, rest)

/-- The step taking a binary constraint off the queue empties one of its domains, which had a
candidate before its revision. -/
def Empties (t : Solver × List Nat) : Prop :=
  ∃ i rest op x y rel, t.2 = i :: rest ∧ t.1.constraints[i]? = some (.binary op x y rel) ∧
    ((t.1.domain x ≠ [] ∧ (t.1.revise x y rel).1.domain x = []) ∨
      ((t.1.revise x y rel).1.domain y ≠ [] ∧
        ((t.1.revise x y rel).1.revise y x rel).1.domain y = []))

variable {t t' : Solver × List Nat} {a : BufferId → Layout}

theorem QueueStep.narrows (h : QueueStep t t') : t.1.Narrows t'.1 := by
  cases h with
  | revise hc h₁ h₂ =>
    rw [(reviseArc_ok h₂).1, (reviseArc_ok h₁).1]
    exact narrows_revise.trans narrows_revise
  | skip => exact .refl _

/-- A step keeps every solution inside the domains. -/
theorem QueueStep.admits (h : QueueStep t t') (ha : t.1.Admits a) : t'.1.Admits a := by
  cases h with
  | @revise s i rest op x y rel r₁ r₂ hc h₁ h₂ =>
    have hmem := mem_toList_of_getElem? hc
    have hxy : rel.holds (a x) (a y) = true := ha.holds _ hmem
    have touch : ∀ b, b = x ∨ b = y → (Constraint.binary op x y rel).touches b = true := by
      rintro b (rfl | rfl) <;> simp [Constraint.touches]
    have ha₁ : r₁.1.Admits a := by
      rw [(reviseArc_ok h₁).1]
      exact admits_revise ha (ha.mem _ hmem x (touch x (.inl rfl)))
        (ha.mem _ hmem y (touch y (.inr rfl))) hxy
    have hmem₁ : Constraint.binary op x y rel ∈ r₁.1.constraints.toList := by
      rwa [(reviseArc_ok h₁).1, constraints_revise]
    rw [(reviseArc_ok h₂).1]
    exact admits_revise ha₁ (ha₁.mem _ hmem₁ y (touch y (.inr rfl)))
      (ha₁.mem _ hmem₁ x (touch x (.inl rfl))) (by rw [rel.holds_comm]; exact hxy)
  | skip => exact ha

theorem QueueStep.filled (h : QueueStep t t') (hf : t.1.Filled) : t'.1.Filled := by
  cases h with
  | revise hc h₁ h₂ => exact reviseArc_filled h₂ (reviseArc_filled h₁ hf)
  | skip => exact hf

theorem QueueStep.measure_lt (h : QueueStep t t') : measure t'.1 t'.2 < measure t.1 t.2 := by
  cases h with
  | revise hc h₁ h₂ =>
    have := reviseArc_measure_le h₁
    have := reviseArc_measure_le h₂
    simp only [measure, List.length_cons] at *
    omega
  | skip => simp [measure]

/-- A constraint whose two domains are unchanged keeps its arc consistency. -/
theorem consistent_of_domains {j : Nat} (hcs : s'.constraints = s.constraints) (h : s.Consistent j)
    (hdom : ∀ op u v rel, s.constraints[j]? = some (.binary op u v rel) →
      s'.domain u = s.domain u ∧ s'.domain v = s.domain v) : s'.Consistent j := by
  intro op u v rel hc
  rw [hcs] at hc
  obtain ⟨hu, hv⟩ := hdom op u v rel hc
  unfold Supported
  rw [hu, hv]
  exact h op u v rel hc

/-- A step keeps every constraint off the queue arc consistent. -/
theorem QueueStep.consistent (h : QueueStep t t') (hq : ∀ j, j ∉ t.2 → t.1.Consistent j) :
    ∀ j, j ∉ t'.2 → t'.1.Consistent j := by
  cases h with
  | @revise s i rest op x y rel r₁ _ hc h₁ h₂ =>
    intro j hj
    have hr₁ := (reviseArc_ok h₁).1
    have hr₂ := (reviseArc_ok h₂).1
    by_cases hji : j = i
    · -- The constraint just revised: the second revision keeps the first arc supported.
      subst hji
      intro op' u v rel' hc'
      rw [hr₂, constraints_revise, hr₁, constraints_revise, hc] at hc'
      cases hc'
      rw [hr₂]
      refine ⟨supported_revise_of_supported ?_, supported_revise⟩
      rw [hr₁]
      exact supported_revise
    · have hj₁ : j ∉ r₁.2 := fun h => hj (reviseArc_queue h₂ j h)
      have hj₀ : j ∉ i :: rest := by
        simp only [List.mem_cons, not_or]
        exact ⟨hji, fun h => hj₁ (reviseArc_queue h₁ j h)⟩
      have hcs₁ : r₁.1.constraints = s.constraints := by rw [hr₁, constraints_revise]
      have hcs₂ : t'.1.constraints = r₁.1.constraints := by rw [hr₂, constraints_revise]
      refine consistent_of_domains (hcs₂.trans hcs₁) (hq j hj₀) fun op' u v rel' hc' => ?_
      obtain ⟨hu₁, hv₁⟩ := reviseArc_frame h₁ hji hj₁ hc'
      obtain ⟨hu₂, hv₂⟩ := reviseArc_frame h₂ hji hj (by rwa [hcs₁])
      exact ⟨hu₂.trans hu₁, hv₂.trans hv₁⟩
  | @skip s i rest hc =>
    intro j hj
    by_cases hji : j = i
    · subst hji
      intro op x y rel hc'
      exact absurd hc' (hc op x y rel)
    · exact hq j (by simp [hji, hj])

theorem Empties.not_admits (h : Empties t) (ha : t.1.Admits a) : False := by
  obtain ⟨i, rest, op, x, y, rel, -, hc, hempty⟩ := h
  have hmem := mem_toList_of_getElem? hc
  have hxy : rel.holds (a x) (a y) = true := ha.holds _ hmem
  have touch : ∀ b, b = x ∨ b = y → (Constraint.binary op x y rel).touches b = true := by
    rintro b (rfl | rfl) <;> simp [Constraint.touches]
  have ha₁ := admits_revise ha (ha.mem _ hmem x (touch x (.inl rfl)))
    (ha.mem _ hmem y (touch y (.inr rfl))) hxy
  rcases hempty with ⟨-, hx⟩ | ⟨-, hy⟩
  · have := ha₁.mem _ hmem x (touch x (.inl rfl))
    rw [hx] at this
    exact List.not_mem_nil this
  · have ha₂ := admits_revise ha₁ (ha₁.mem _ hmem y (touch y (.inr rfl)))
      (ha₁.mem _ hmem x (touch x (.inl rfl))) (by rw [rel.holds_comm]; exact hxy)
    have := ha₂.mem _ hmem y (touch y (.inr rfl))
    rw [hy] at this
    exact List.not_mem_nil this

/-! ### Whole runs -/

/-- A run that ends without a conflict is a sequence of queue steps, which empties the queue
when the fuel covers the measure. -/
theorem go_ok {fuel : Nat} (h : (propagate.go fuel s q).run = .ok (.ok s')) :
    ∃ q', Relation.ReflTransGen QueueStep (s, q) (s', q') ∧ (measure s q ≤ fuel → q' = []) := by
  induction fuel generalizing s q with
  | zero =>
    obtain rfl : s = s' := Except.ok.inj (Except.ok.inj h)
    exact ⟨q, .refl, fun hm => List.eq_nil_of_length_eq_zero (by simp only [measure] at hm; omega)⟩
  | succ fuel ih =>
    cases q with
    | nil =>
      obtain rfl : s = s' := Except.ok.inj (Except.ok.inj h)
      exact ⟨[], .refl, fun _ => rfl⟩
    | cons i rest =>
      rcases hc : s.constraints[i]? with _ | ⟨_ | ⟨op, x, y, rel⟩⟩
      · simp only [propagate.go, hc] at h
        obtain ⟨q', run, done⟩ := ih h
        have step : QueueStep (s, i :: rest) (s, rest) := .skip (by simp [hc])
        exact ⟨q', .head step run, fun hm => done (by have := step.measure_lt; simp at this; omega)⟩
      · simp only [propagate.go, hc] at h
        obtain ⟨q', run, done⟩ := ih h
        have step : QueueStep (s, i :: rest) (s, rest) := .skip (by simp [hc])
        exact ⟨q', .head step run, fun hm => done (by have := step.measure_lt; simp at this; omega)⟩
      · simp only [propagate.go, hc] at h
        obtain ⟨r₁, h₁, h⟩ := run_bind_eq_ok.1 h
        obtain ⟨r₂, h₂, h⟩ := run_bind_eq_ok.1 h
        obtain ⟨q', run, done⟩ := ih h
        have step : QueueStep (s, i :: rest) r₂ := .revise hc h₁ h₂
        exact ⟨q', .head step run, fun hm => done (by have := step.measure_lt; simp only at this; omega)⟩

/-- A failing run reaches a step that empties a domain; the conflict it reports names ops of
the network's constraints. -/
theorem go_conflict {fuel : Nat} {c : Conflict} (h : (propagate.go fuel s q).run = .ok (.error c)) :
    ∃ t, Relation.ReflTransGen QueueStep (s, q) t ∧ Empties t ∧
      c.NamesOpsOf s.constraints.toList := by
  induction fuel generalizing s q with
  | zero => nomatch Except.ok.inj h
  | succ fuel ih =>
    cases q with
    | nil => nomatch Except.ok.inj h
    | cons i rest =>
      rcases hc : s.constraints[i]? with _ | ⟨_ | ⟨op, x, y, rel⟩⟩
      · simp only [propagate.go, hc] at h
        obtain ⟨t, run, empties, names⟩ := ih h
        exact ⟨t, .head (.skip (by simp [hc])) run, empties, names⟩
      · simp only [propagate.go, hc] at h
        obtain ⟨t, run, empties, names⟩ := ih h
        exact ⟨t, .head (.skip (by simp [hc])) run, empties, names⟩
      · simp only [propagate.go, hc] at h
        rcases run_bind_eq_error.1 h with h₁ | ⟨r₁, h₁, h⟩
        · obtain ⟨had, hnil, hconf⟩ := reviseArc_conflict h₁
          exact ⟨_, .refl, ⟨i, rest, op, x, y, rel, rfl, hc, .inl ⟨had, hnil⟩⟩, by
            simpa using conflict_names hconf⟩
        rcases run_bind_eq_error.1 h with h₂ | ⟨r₂, h₂, h⟩
        · obtain ⟨had, hnil, hconf⟩ := reviseArc_conflict h₂
          rw [(reviseArc_ok h₁).1] at had hnil hconf
          exact ⟨_, .refl, ⟨i, rest, op, x, y, rel, rfl, hc, .inr ⟨had, hnil⟩⟩, by
            simpa using conflict_names hconf⟩
        obtain ⟨t, run, empties, names⟩ := ih h
        have hcs : r₂.1.constraints = s.constraints := (QueueStep.revise hc h₁ h₂).narrows.constraints
        exact ⟨t, .head (.revise hc h₁ h₂) run, empties, hcs ▸ names⟩

theorem QueueStep.run_narrows (h : Relation.ReflTransGen QueueStep t t') : t.1.Narrows t'.1 := by
  induction h with
  | refl => exact .refl _
  | tail _ step ih => exact ih.trans step.narrows

theorem QueueStep.run_admits (h : Relation.ReflTransGen QueueStep t t') (ha : t.1.Admits a) :
    t'.1.Admits a := by
  induction h with
  | refl => exact ha
  | tail _ step ih => exact step.admits ih

theorem QueueStep.run_consistent (h : Relation.ReflTransGen QueueStep t t')
    (hq : ∀ j, j ∉ t.2 → t.1.Consistent j) : ∀ j, j ∉ t'.2 → t'.1.Consistent j := by
  induction h with
  | refl => exact hq
  | tail _ step ih => exact step.consistent ih

theorem QueueStep.run_filled (h : Relation.ReflTransGen QueueStep t t') (hf : t.1.Filled) :
    t'.1.Filled := by
  induction h with
  | refl => exact hf
  | tail _ step ih => exact step.filled ih

theorem propagate_filled (h : (s.propagate q).run = .ok (.ok s')) (hf : s.Filled) : s'.Filled := by
  obtain ⟨q', run, -⟩ := go_ok h
  exact QueueStep.run_filled run hf

theorem propagate_narrows (h : (s.propagate q).run = .ok (.ok s')) : s.Narrows s' := by
  obtain ⟨q', run, -⟩ := go_ok h
  exact QueueStep.run_narrows run

theorem propagate_admits (h : (s.propagate q).run = .ok (.ok s')) (ha : s.Admits a) :
    s'.Admits a := by
  obtain ⟨q', run, -⟩ := go_ok h
  exact QueueStep.run_admits run ha

/-- A conflict proves that no solution lies inside the domains. -/
theorem propagate_conflict_names {c : Conflict} (h : (s.propagate q).run = .ok (.error c)) :
    c.NamesOpsOf s.constraints.toList := by
  obtain ⟨-, -, -, names⟩ := go_conflict h
  exact names

theorem propagate_conflict {c : Conflict} (h : (s.propagate q).run = .ok (.error c))
    (ha : s.Admits a) : False := by
  obtain ⟨t, run, empties, -⟩ := go_conflict h
  exact empties.not_admits (QueueStep.run_admits run ha)

/-- **Propagation reaches arc consistency**: started with a queue that holds every constraint
not yet arc consistent, a run that ends without conflict leaves every constraint arc
consistent. -/
theorem propagate_consistent (h : (s.propagate q).run = .ok (.ok s'))
    (hlen : q.length ≤ s.constraints.size) (hq : ∀ j, j ∉ q → s.Consistent j) :
    ∀ j, s'.Consistent j := by
  obtain ⟨q', run, done⟩ := go_ok h
  -- The fuel exceeds the measure, so the run stops on an empty queue.
  have fuel : measure s q ≤ s.propagationBound := by
    rw [propagationBound_eq, measure, Nat.succ_mul]
    omega
  intro j
  have := QueueStep.run_consistent run hq j
  rw [done fuel] at this
  exact this (List.not_mem_nil)

end Solver
end TileKernel
