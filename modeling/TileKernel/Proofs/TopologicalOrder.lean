import TileKernel.Proofs.Reach
import Mathlib.Data.Finset.Card
import Mathlib.Data.List.Lex

/-!
# Kahn's algorithm answers the least topological order

`Kernel.topologicalOrder` appends, again and again, the first live op in handle order that is not
ordered yet and whose live dependencies all are. Its answer is characterised completely by
`Kernel.topologicalOrder_least`: it succeeds exactly when no chain of live dependencies returns
to its start, and then answers the topological order of the live ops (each live op once, after
each of its live dependencies) that is lexicographically least by handle; otherwise it reports a
cycle, having ordered fewer ops than there are live ones.

Minimality needs no exchange of ops. Two orders that agree on their first `i` positions have
ordered the same ops before position `i`; the op the other order puts at `i` was then ready when
the algorithm made its `i`-th choice, and the algorithm took the least ready handle
(`Kernel.KahnList`).
-/

set_option autoImplicit false

namespace TileKernel

/-- Erasing duplicates keeps the first occurrence of each member, in order. -/
theorem eraseDups_sublist {α : Type} [BEq α] : ∀ l : List α, l.eraseDups.Sublist l
  | [] => by rw [List.eraseDups_nil]
  | a :: as => by
    rw [List.eraseDups_cons]
    exact ((eraseDups_sublist _).trans List.filter_sublist).cons_cons a
termination_by l => l.length
decreasing_by exact Nat.lt_succ_of_le (List.length_filter_le _ _)

/-- Lists of numbers of one length compare as they do at their first difference: a list no
greater than the other wherever they agree before, is no greater. -/
theorem le_of_le_past_common_start : ∀ {l₁ l₂ : List Nat}, l₁.length = l₂.length →
    (∀ i (h₁ : i < l₁.length) (h₂ : i < l₂.length), l₁.take i = l₂.take i → l₁[i] ≤ l₂[i]) →
    l₁ ≤ l₂
  | [], [], _, _ => le_refl _
  | [], _ :: _, hlen, _ | _ :: _, [], hlen, _ => by simp at hlen
  | a :: as, b :: bs, hlen, h => by
    have hab : a ≤ b := h 0 (by simp) (by simp) rfl
    rcases Nat.lt_or_eq_of_le hab with hlt | rfl
    · exact le_of_lt (List.Lex.rel hlt)
    · -- Equal heads: the tails compare as the lists do.
      refine List.cons_le_cons a (le_of_le_past_common_start (by simpa using hlen)
        fun i h₁ h₂ ht => ?_)
      have hi := h (i + 1) (by simpa using h₁) (by simpa using h₂) (by simp [ht])
      rwa [List.getElem_cons_succ, List.getElem_cons_succ] at hi

namespace Kernel

variable {k : Kernel}

/-! ### Handles in order -/

/-- `sortedIds` lists handles in strictly increasing order. -/
theorem sortedIds_pairwise (hs : List OpId) : (sortedIds hs).Pairwise (·.idx < ·.idx) := by
  unfold sortedIds
  rw [List.pairwise_map]
  have sorted := @List.pairwise_mergeSort _ (fun a b : Nat => decide (a ≤ b))
    (fun a b c hab hbc => by simp only [decide_eq_true_eq] at *; omega)
    (fun a b => by simp only [Bool.or_eq_true, decide_eq_true_eq]; omega) (hs.map (·.idx))
  refine ((sorted.sublist (eraseDups_sublist _)).and (nodup_eraseDups _)).imp ?_
  rintro a b ⟨hab, hne⟩
  exact Nat.lt_of_le_of_ne (by simpa using hab) hne

theorem length_sortedIds (hs : List OpId) : (sortedIds hs).length = hs.toFinset.card := by
  rw [← List.toFinset_card_of_nodup (nodup_sortedIds hs)]
  congr 1
  ext x
  simp [mem_sortedIds]

/-- In a list sorted by handle, the first op with a property has the least handle among the ops
of the list with it. -/
theorem idx_le_of_find? {l : List OpId} (hl : l.Pairwise (·.idx < ·.idx)) {p : OpId → Bool}
    {g y : OpId} (hg : l.find? p = some g) (hy : y ∈ l) (hpy : p y = true) : g.idx ≤ y.idx := by
  obtain ⟨-, as, bs, rfl, has⟩ := List.find?_eq_some_iff_append.1 hg
  rcases List.mem_append.1 hy with hy | hy
  · exact absurd hpy (by simpa using has y hy)
  · rcases List.mem_cons.1 hy with rfl | hy
    · exact Nat.le_refl _
    · exact Nat.le_of_lt (List.rel_of_pairwise_cons (List.pairwise_append.1 hl).2.1 hy)

/-! ### Orders of the live ops -/

/-- `x` may be ordered after the ops `done`: it is live, not ordered yet, and every live
dependency of it is. -/
def ReadyAfter (k : Kernel) (done : List OpId) (x : OpId) : Prop :=
  x ∈ k.liveOps ∧ x ∉ done ∧ ∀ d ∈ (k.op x).deps, d ∈ k.liveOps → d ∈ done

/-- `order` lists live ops, each once and after each of its live dependencies. -/
structure ReadyList (k : Kernel) (order : List OpId) : Prop where
  nodup : order.Nodup
  live : ∀ x ∈ order, x ∈ k.liveOps
  after : ∀ pre x post, order = pre ++ x :: post → ∀ d ∈ (k.op x).deps, d ∈ k.liveOps → d ∈ pre

/-- A topological order of the live ops: every live op, once, after each of its live
dependencies. -/
structure TopoOrder (k : Kernel) (order : List OpId) : Prop extends k.ReadyList order where
  complete : ∀ x ∈ k.liveOps, x ∈ order

theorem ReadyList.nil (k : Kernel) : k.ReadyList [] :=
  ⟨List.nodup_nil, fun _ h => absurd h List.not_mem_nil, fun pre x post h => by simp at h⟩

/-- An op ready after a list may follow it. -/
theorem ReadyList.snoc {done : List OpId} {x : OpId} (hr : k.ReadyList done)
    (hx : k.ReadyAfter done x) : k.ReadyList (done ++ [x]) where
  nodup := List.nodup_append.2 ⟨hr.nodup, List.nodup_singleton x, fun a ha b hb hab => by
    rw [List.mem_singleton.1 hb] at hab
    exact hx.2.1 (hab ▸ ha)⟩
  live y hy := (List.mem_append.1 hy).elim (hr.live y) fun h => List.mem_singleton.1 h ▸ hx.1
  after pre y post h := by
    -- Either `y` is the op appended, after all of `done`, or it was ordered before.
    rcases List.eq_nil_or_concat post with rfl | ⟨post', z, rfl⟩
    · obtain ⟨rfl, rfl⟩ : done = pre ∧ x = y := by simpa using h
      exact hx.2.2
    · have h' : done ++ [x] = (pre ++ y :: post') ++ [z] := by simpa using h
      exact hr.after pre y post' (List.append_inj' h' rfl).1

/-- An op of a topological order is ready after the ops before it. -/
theorem TopoOrder.readyAfter {order : List OpId} (ht : k.TopoOrder order) {i : Nat}
    (hi : i < order.length) : k.ReadyAfter (order.take i) order[i] := by
  have split : order = order.take i ++ order[i] :: order.drop (i + 1) := by
    rw [← List.drop_eq_getElem_cons hi, List.take_append_drop]
  have hnd := ht.nodup
  rw [split] at hnd
  exact ⟨ht.live _ (List.getElem_mem hi),
    fun hmem => (List.nodup_append.1 hnd).2.2 _ hmem _ List.mem_cons_self rfl,
    ht.after _ _ _ split⟩

/-- A list of live ops, each once, has at most as many members as there are live ops. -/
theorem ReadyList.length_le {order : List OpId} (hr : k.ReadyList order) :
    order.length ≤ k.liveOps.toFinset.card := by
  rw [← List.toFinset_card_of_nodup hr.nodup]
  exact Finset.card_le_card fun x hx => List.mem_toFinset.2 (hr.live x (List.mem_toFinset.1 hx))

/-- A list of live ops, each once, with as many members as there are live ops, holds them all. -/
theorem ReadyList.topoOrder {order : List OpId} (hr : k.ReadyList order)
    (hlen : order.length = k.liveOps.toFinset.card) : k.TopoOrder order := by
  refine ⟨hr, fun x hx => List.mem_toFinset.1 ?_⟩
  have hsub : order.toFinset ⊆ k.liveOps.toFinset :=
    fun y hy => List.mem_toFinset.2 (hr.live y (List.mem_toFinset.1 hy))
  have hcard : k.liveOps.toFinset.card ≤ order.toFinset.card := by
    rw [List.toFinset_card_of_nodup hr.nodup, hlen]
  rw [Finset.eq_of_subset_of_card_le hsub hcard]
  exact List.mem_toFinset.2 hx

theorem TopoOrder.length {order : List OpId} (ht : k.TopoOrder order) :
    order.length = k.liveOps.toFinset.card := by
  rw [← List.toFinset_card_of_nodup ht.nodup]
  congr 1
  ext x
  simp only [List.mem_toFinset]
  exact ⟨ht.live x, ht.complete x⟩

/-- Along live dependencies positions in a topological order fall, so none returns to its
start. -/
theorem TopoOrder.acyclic {order : List OpId} (ht : k.TopoOrder order) :
    ∀ a, ¬ Relation.TransGen k.WaitsLive a a := by
  have step : ∀ {a b}, k.WaitsLive a b → a ∈ order →
      b ∈ order ∧ order.idxOf b < order.idxOf a := by
    intro a b hab ha
    obtain ⟨pre, post, split⟩ := List.append_of_mem ha
    have hb : b ∈ pre := ht.after pre a post split b hab.2 hab.1
    have ha' : a ∉ pre := fun h => (List.nodup_append.1 (split ▸ ht.nodup)).2.2 _ h _
      List.mem_cons_self rfl
    refine ⟨ht.complete b hab.1, ?_⟩
    rw [split, List.idxOf_append, List.idxOf_append, if_pos hb, if_neg ha', List.idxOf_cons_self]
    have := List.idxOf_lt_length_of_mem hb
    omega
  have falls : ∀ {a b}, Relation.TransGen k.WaitsLive a b → a ∈ order →
      b ∈ order ∧ order.idxOf b < order.idxOf a := by
    intro a b hab ha
    induction hab with
    | single h => exact step h ha
    | tail _ hbc ih =>
      obtain ⟨hb, hlt⟩ := ih
      obtain ⟨hc, hlt'⟩ := step hbc hb
      exact ⟨hc, Nat.lt_trans hlt' hlt⟩
  intro a hcyc
  obtain ⟨b, -, hba⟩ := Relation.TransGen.tail'_iff.1 hcyc
  exact Nat.lt_irrefl _ (falls hcyc (ht.complete a hba.1)).2

/-! ### The algorithm's choices -/

/-- The lists Kahn's algorithm builds: each op appended is ready after the ops before it, and
has the least handle among the ops ready there. -/
inductive KahnList (k : Kernel) : List OpId → Prop
  | nil : KahnList k []
  | snoc {done : List OpId} {x : OpId} : KahnList k done → k.ReadyAfter done x →
      (∀ y, k.ReadyAfter done y → x.idx ≤ y.idx) → KahnList k (done ++ [x])

theorem KahnList.readyList {order : List OpId} (hk : k.KahnList order) : k.ReadyList order := by
  induction hk with
  | nil => exact ReadyList.nil k
  | snoc _ hx _ ih => exact ih.snoc hx

/-- Each op of the algorithm's list has the least handle among the ops ready after the ops
before it. -/
theorem KahnList.least {order : List OpId} (hk : k.KahnList order) :
    ∀ i (hi : i < order.length) y, k.ReadyAfter (order.take i) y → order[i].idx ≤ y.idx := by
  induction hk with
  | nil => intro i hi; simp at hi
  | @snoc done x _ _ hleast ih =>
    intro i hi y hy
    rcases Nat.lt_or_ge i done.length with h | h
    · rw [List.take_append_of_le_length (Nat.le_of_lt h)] at hy
      rw [List.getElem_append_left h]
      exact ih i h y hy
    · obtain rfl : i = done.length := by simp at hi; omega
      rw [List.take_left] at hy
      simpa using hleast y hy

/-- Whether `h` may be ordered next, as the algorithm asks it. -/
theorem ready_iff {live done : List OpId} (hlive : ∀ x, x ∈ live ↔ x ∈ k.liveOps) {h : OpId} :
    (!done.contains h && (k.op h).deps.all fun d => !live.contains d || done.contains d) = true ↔
      h ∉ done ∧ ∀ d ∈ (k.op h).deps, d ∈ k.liveOps → d ∈ done := by
  simp [hlive, imp_iff_not_or]

/-- Each round of the algorithm extends its list by its choice. -/
theorem kahnList_go {live : List OpId} {ready : List OpId → OpId → Bool}
    (hlive : ∀ x, x ∈ live ↔ x ∈ k.liveOps) (hsorted : live.Pairwise (·.idx < ·.idx))
    (hready : ∀ done h, ready done h =
      (!done.contains h && (k.op h).deps.all fun d => !live.contains d || done.contains d)) :
    ∀ (fuel : Nat) {done : List OpId}, k.KahnList done →
      k.KahnList (topologicalOrder.go live ready fuel done)
  | 0, done, hk => by simpa [topologicalOrder.go] using hk
  | fuel + 1, done, hk => by
    rw [topologicalOrder.go]
    rcases hfind : live.find? (ready done) with _ | x
    · exact hk
    · dsimp only
      -- The op found is ready, and no ready op has a smaller handle.
      have readyAfter : ∀ y ∈ live, ready done y = true → k.ReadyAfter done y := fun y hy hr => by
        rw [hready, ready_iff hlive] at hr
        exact ⟨(hlive y).1 hy, hr⟩
      refine kahnList_go hlive hsorted hready fuel (hk.snoc
        (readyAfter x (List.mem_of_find?_eq_some hfind) (List.find?_some hfind)) fun y hy => ?_)
      refine idx_le_of_find? hsorted hfind ((hlive y).2 hy.1) ?_
      rw [hready, ready_iff hlive]
      exact hy.2

/-- The algorithm's answer: its list if it ordered every live op, else the cycle error. -/
theorem topologicalOrder_kahnList (k : Kernel) : ∃ order, k.KahnList order ∧
    k.topologicalOrder = if order.length = k.liveOps.toFinset.card then .ok order
      else .error (.cycle order.length k.liveOps.toFinset.card) := by
  unfold topologicalOrder
  dsimp only
  rw [length_sortedIds]
  exact ⟨_, kahnList_go (fun _ => mem_sortedIds) (sortedIds_pairwise _) (fun _ _ => rfl) _ .nil, rfl⟩

/-! ### The least order -/

/-- The algorithm's list is lexicographically no greater, by handle, than any topological
order. -/
theorem KahnList.le_of_topoOrder {order other : List OpId} (hk : k.KahnList order)
    (hlen : order.length = k.liveOps.toFinset.card) (ht : k.TopoOrder other) :
    order.map (·.idx) ≤ other.map (·.idx) := by
  have same : order.length = other.length := hlen.trans ht.length.symm
  refine le_of_le_past_common_start (by simp [same]) fun i h₁ h₂ hpre => ?_
  have h₁' : i < order.length := by simpa using h₁
  have h₂' : i < other.length := by simpa using h₂
  -- Agreeing on the first `i` positions, both have ordered the same ops before `i`.
  have hpre' : order.take i = other.take i := by
    rw [← List.map_take, ← List.map_take] at hpre
    exact List.map_injective_iff.2 (fun a b h => by cases a; cases b; cases h; rfl) hpre
  have hready := ht.readyAfter h₂'
  rw [← hpre'] at hready
  simpa using hk.least i h₁' other[i] hready

/-- **Kahn's algorithm answers the least topological order.** It succeeds exactly when no
chain of live dependencies returns to its start. Its answer is then the topological order of
the live ops (each live op once, after each of its live dependencies) that is lexicographically
least by handle, and no other list is. Otherwise it reports a cycle after ordering fewer ops than
the live ones it counts. -/
theorem topologicalOrder_least (k : Kernel) :
    (∀ order, k.topologicalOrder = .ok order ↔
      k.TopoOrder order ∧ ∀ other, k.TopoOrder other → order.map (·.idx) ≤ other.map (·.idx)) ∧
    ((∃ order, k.topologicalOrder = .ok order) ↔ ∀ a, ¬ Relation.TransGen k.WaitsLive a a) ∧
    ∀ e, k.topologicalOrder = .error e →
      ∃ visited, e = .cycle visited k.liveOps.toFinset.card ∧
        visited < k.liveOps.toFinset.card := by
  obtain ⟨kahn, hk, hrun⟩ := topologicalOrder_kahnList k
  -- An answer is the algorithm's list, a topological order no greater than any other.
  have answer : ∀ order, k.topologicalOrder = .ok order →
      k.TopoOrder order ∧ ∀ other, k.TopoOrder other → order.map (·.idx) ≤ other.map (·.idx) := by
    intro order h
    rw [hrun] at h
    split_ifs at h with hlen
    obtain rfl := Except.ok.inj h
    exact ⟨hk.readyList.topoOrder hlen, fun other => hk.le_of_topoOrder hlen⟩
  refine ⟨fun order => ⟨answer order, fun ⟨ht, hleast⟩ => ?_⟩,
    ⟨fun ⟨order, h⟩ => (answer order h).1.acyclic, topologicalOrder_ok⟩, fun e h => ?_⟩
  · -- A least topological order is the answer: two least orders compare both ways.
    obtain ⟨answered, hans⟩ := topologicalOrder_ok ht.acyclic
    obtain ⟨hta, hleast'⟩ := answer answered hans
    have both := le_antisymm (hleast' order ht) (hleast answered hta)
    rw [List.map_inj_right (fun a b h => by cases a; cases b; cases h; rfl)] at both
    rw [hans, both]
  · rw [hrun] at h
    split_ifs at h with hlen
    obtain rfl := (Except.error.inj h).symm
    exact ⟨_, rfl, Nat.lt_of_le_of_ne hk.readyList.length_le hlen⟩

end Kernel

end TileKernel
