import TileKernel.Proofs.Pipelining
import Mathlib.Order.WellFoundedSet
import Mathlib.Data.List.Perm.Subperm

/-!
# Dependencies as a graph

An op waits for the ops listed among its dependencies (`Kernel.Waits`). `Kernel.dependsOn`
searches this graph breadth first, one round per op of the arena, and `Kernel.topologicalOrder`
orders the live ops by Kahn's algorithm. Both answer what the graph says:

* `Kernel.dependsOn_iff`: when every dependency names an op of the arena, `h` depends on `t`
  exactly when a chain of dependencies leads from `h` to `t`;
* `Kernel.topologicalOrder_ok`: when no chain of dependencies between live ops returns to its
  start, every live op is ordered and the cycle error is never raised.

The search needs the arena bound. A round that goes on adds an op the search had not seen, and an
op seen is the start or an op of the arena, so the rounds run out of new ops before they run out
of fuel. Kahn's algorithm needs the absence of cycles in the form of a minimal element: among the
live ops not yet ordered, one has all of its live dependencies ordered already.
-/

set_option autoImplicit false

namespace TileKernel

/-- Erasing duplicates leaves no duplicate. -/
theorem nodup_eraseDups {α : Type} [BEq α] [LawfulBEq α] : ∀ l : List α, l.eraseDups.Nodup
  | [] => List.nodup_nil
  | a :: as => by
    rw [List.eraseDups_cons]
    refine List.nodup_cons.2 ⟨fun h => ?_, nodup_eraseDups _⟩
    simpa using (List.mem_filter.1 (List.mem_eraseDups.1 h)).2
termination_by l => l.length
decreasing_by exact Nat.lt_succ_of_le (List.length_filter_le _ _)

namespace Kernel

variable {k : Kernel}

/-- `a` waits directly for `b`: `b` is among the dependencies of `a`. -/
def Waits (k : Kernel) (a b : OpId) : Prop := b ∈ (k.op a).deps

/-- Every dependency names an op of the arena. -/
def DepsExist (k : Kernel) : Prop := ∀ x, ∀ d ∈ (k.op x).deps, d.idx < k.ops.size

/-! ### The breadth-first search -/

/-- An op found in a round of the search is a dependency of an op of the frontier, and new. -/
theorem mem_next {frontier seen : List OpId} {x : OpId}
    (hx : x ∈ ((frontier.flatMap fun h => (k.op h).deps).eraseDups.filter fun h => !seen.contains h)) :
    (∃ f ∈ frontier, k.Waits f x) ∧ x ∉ seen := by
  obtain ⟨hx, hnew⟩ := List.mem_filter.1 hx
  obtain ⟨f, hf, hfx⟩ := List.mem_flatMap.1 (List.mem_eraseDups.1 hx)
  exact ⟨⟨f, hf, hfx⟩, by simpa using hnew⟩

/-- Everything the search sees is reachable from its start. -/
theorem reaches_of_mem_go {start : OpId} :
    ∀ (fuel : Nat) (frontier seen : List OpId),
      (∀ x ∈ seen, Relation.ReflTransGen k.Waits start x) →
      (∀ x ∈ frontier, Relation.ReflTransGen k.Waits start x) →
      ∀ x ∈ ancestors.go k fuel frontier seen, Relation.ReflTransGen k.Waits start x
  | 0, _, _, hs, _ => by simpa [ancestors.go] using hs
  | fuel + 1, frontier, seen, hs, hf => by
    rw [ancestors.go]
    split
    · exact hs
    · -- The next frontier holds dependencies of reachable ops.
      have hnext : ∀ x ∈ ((frontier.flatMap fun h => (k.op h).deps).eraseDups.filter
          fun h => !seen.contains h), Relation.ReflTransGen k.Waits start x := fun x hx => by
        obtain ⟨⟨f, hfm, hfx⟩, -⟩ := mem_next hx
        exact (hf f hfm).tail hfx
      refine reaches_of_mem_go fuel _ _ (fun x hx => ?_) hnext
      rcases List.mem_append.1 hx with hx | hx
      · exact hs x hx
      · exact hnext x hx

/-- A state of the search from `start`: the frontier was seen, the dependencies of every seen op
off the frontier were seen, nothing was seen twice, and what was seen is the start or an op of
the arena. -/
structure SearchState (k : Kernel) (start : OpId) (frontier seen : List OpId) : Prop where
  frontier_seen : ∀ x ∈ frontier, x ∈ seen
  closed : ∀ x ∈ seen, x ∉ frontier → ∀ d ∈ (k.op x).deps, d ∈ seen
  nodup : seen.Nodup
  bounded : ∀ x ∈ seen, x = start ∨ x.idx < k.ops.size

/-- The search sees at most the start and every op of the arena. -/
theorem SearchState.length_le {start : OpId} {frontier seen : List OpId}
    (s : SearchState k start frontier seen) : seen.length ≤ k.ops.size + 1 := by
  have hnd : (seen.map (·.idx)).Nodup :=
    s.nodup.map (fun a b h => by cases a; cases b; cases h; rfl)
  have hsub : seen.map (·.idx) ⊆ start.idx :: List.range k.ops.size := by
    intro n hn
    obtain ⟨x, hx, rfl⟩ := List.mem_map.1 hn
    rcases s.bounded x hx with rfl | hlt
    · exact List.mem_cons_self
    · exact List.mem_cons_of_mem _ (List.mem_range.2 hlt)
  simpa using (hnd.subperm hsub).length_le

/-- With enough fuel the search ends closed under dependencies, with every op it had seen. -/
theorem go_closed (hd : k.DepsExist) {start : OpId} :
    ∀ (fuel : Nat) (frontier seen : List OpId), SearchState k start frontier seen →
      k.ops.size + 2 ≤ seen.length + fuel →
      (∀ x ∈ seen, x ∈ ancestors.go k fuel frontier seen) ∧
      ∀ x ∈ ancestors.go k fuel frontier seen, ∀ d ∈ (k.op x).deps,
        d ∈ ancestors.go k fuel frontier seen
  | 0, _, _, s, hfuel => absurd s.length_le (by omega)
  | fuel + 1, frontier, seen, s, hfuel => by
    rw [ancestors.go]
    split
    · rename_i hempty
      -- No new op: the dependencies of the frontier were all seen.
      refine ⟨fun x hx => hx, fun x hx d hdx => ?_⟩
      by_cases hxf : x ∈ frontier
      · by_contra hds
        have hin : d ∈ ((frontier.flatMap fun h => (k.op h).deps).eraseDups.filter
            fun h => !seen.contains h) :=
          List.mem_filter.2 ⟨List.mem_eraseDups.2 (List.mem_flatMap.2 ⟨x, hxf, hdx⟩), by simpa using hds⟩
        rw [List.isEmpty_iff.1 hempty] at hin
        cases hin
      · exact s.closed x hx hxf d hdx
    · rename_i hne
      set next := (frontier.flatMap fun h => (k.op h).deps).eraseDups.filter
        fun h => !seen.contains h
      have hpos : 0 < next.length := List.length_pos_of_ne_nil (by simpa using hne)
      have s' : SearchState k start next (seen ++ next) := by
        refine ⟨fun x hx => List.mem_append_right _ hx, fun x hx hxn d hdx => ?_, ?_, fun x hx => ?_⟩
        · have hxs : x ∈ seen := (List.mem_append.1 hx).resolve_right hxn
          by_cases hxf : x ∈ frontier
          · by_cases hds : d ∈ seen
            · exact List.mem_append_left _ hds
            · exact List.mem_append_right _ (List.mem_filter.2
                ⟨List.mem_eraseDups.2 (List.mem_flatMap.2 ⟨x, hxf, hdx⟩), by simpa using hds⟩)
          · exact List.mem_append_left _ (s.closed x hxs hxf d hdx)
        · refine List.nodup_append.2 ⟨s.nodup, (nodup_eraseDups _).filter _, ?_⟩
          intro a ha b hb hab
          subst hab
          exact (mem_next hb).2 ha
        · rcases List.mem_append.1 hx with hx | hx
          · exact s.bounded x hx
          · obtain ⟨⟨f, -, hfx⟩, -⟩ := mem_next hx
            exact .inr (hd f x hfx)
      obtain ⟨hsub, hclosed⟩ := go_closed hd fuel next (seen ++ next) s'
        (by rw [List.length_append]; omega)
      exact ⟨fun x hx => hsub x (List.mem_append_left _ hx), hclosed⟩

/-- Every op reachable from `a` is among its ancestors. -/
theorem mem_ancestors_of_reaches (hd : k.DepsExist) {a b : OpId}
    (h : Relation.ReflTransGen k.Waits a b) : b ∈ k.ancestors a := by
  have start : SearchState k a [a] [a] :=
    ⟨fun x hx => hx, fun x hx hxf => absurd hx hxf, List.nodup_singleton a,
      fun x hx => .inl (List.mem_singleton.1 hx)⟩
  obtain ⟨hself, hclosed⟩ := go_closed hd (k.ops.size + 1) [a] [a] start (by simp; omega)
  induction h with
  | refl => exact hself a List.mem_cons_self
  | tail _ hbc ih => exact hclosed _ ih _ hbc

/-- **The dependency search is exact.** When every dependency names an op of the arena, `a`
depends on `b` exactly when a chain of dependencies leads from `a` to `b`. -/
theorem dependsOn_iff (hd : k.DepsExist) {a b : OpId} :
    k.dependsOn a b = true ↔ Relation.ReflTransGen k.Waits a b := by
  unfold dependsOn
  rw [List.contains_iff_mem]
  refine ⟨fun h => ?_, mem_ancestors_of_reaches hd⟩
  refine reaches_of_mem_go _ [a] [a] (fun x hx => ?_) (fun x hx => ?_) b h
  all_goals rw [List.mem_singleton.1 hx]

/-! ### Kahn's algorithm -/

/-- `a` waits directly for the live op `b`. -/
def WaitsLive (k : Kernel) (a b : OpId) : Prop := b ∈ k.liveOps ∧ b ∈ (k.op a).deps

theorem mem_sortedIds {hs : List OpId} {x : OpId} : x ∈ sortedIds hs ↔ x ∈ hs := by
  unfold sortedIds
  simp only [List.mem_map, List.mem_eraseDups, List.mem_mergeSort]
  constructor
  · rintro ⟨n, ⟨y, hy, rfl⟩, rfl⟩
    exact hy
  · exact fun hx => ⟨x.idx, ⟨x, hx, rfl⟩, rfl⟩

theorem nodup_sortedIds (hs : List OpId) : (sortedIds hs).Nodup :=
  (nodup_eraseDups _).map fun a b h => by cases h; rfl

/-- Without a cycle of live dependencies, some live op not yet ordered has every live dependency
ordered. -/
theorem exists_ready {live done : List OpId} (hlive : ∀ x, x ∈ live ↔ x ∈ k.liveOps)
    (hacyc : ∀ a, ¬ Relation.TransGen k.WaitsLive a a) {x : OpId} (hx : x ∈ live) (hxd : x ∉ done) :
    ∃ a ∈ live, a ∉ done ∧ ∀ d ∈ (k.op a).deps, d ∈ live → d ∈ done := by
  -- "`b` lies below `a`" is a strict order on the finitely many live ops.
  let below := fun b a => Relation.TransGen k.WaitsLive a b
  have strict : IsStrictOrder OpId below :=
    { irrefl := fun a => hacyc a
      trans := fun _ _ _ hcb hba => hba.trans hcb }
  have wf : Set.WellFoundedOn {y | y ∈ live} below := (List.finite_toSet live).wellFoundedOn
  by_contra hnone
  push Not at hnone
  -- Every live op is ordered: an unordered one would have an unordered live op below it.
  have ordered : ∀ y ∈ live, y ∈ done := fun y hy =>
    wf.induction (P := fun y => y ∈ done) hy fun y hy ih => by
      by_contra hyd
      obtain ⟨d, hdy, hdl, hdd⟩ := hnone y hy hyd
      exact hdd (ih d hdl (Relation.TransGen.single ⟨(hlive d).1 hdl, hdy⟩))
  exact hxd (ordered x hx)

/-- Each round of Kahn's algorithm orders one more live op, as long as some are left. -/
theorem length_topologicalOrder_go {live : List OpId} {ready : List OpId → OpId → Bool}
    (hlive : ∀ x, x ∈ live ↔ x ∈ k.liveOps) (hnd : live.Nodup)
    (hready : ∀ done h, ready done h =
      (!done.contains h && (k.op h).deps.all fun d => !live.contains d || done.contains d))
    (hacyc : ∀ a, ¬ Relation.TransGen k.WaitsLive a a) :
    ∀ (fuel : Nat) (done : List OpId), done.Nodup → (∀ x ∈ done, x ∈ live) →
      done.length + fuel ≤ live.length →
      (topologicalOrder.go live ready fuel done).length = done.length + fuel
  | 0, done, _, _, _ => by simp [topologicalOrder.go]
  | fuel + 1, done, hdn, hdl, hlen => by
    -- Some live op is not ordered yet, so some live op is ready.
    obtain ⟨x, hx, hxd⟩ : ∃ x ∈ live, x ∉ done := by
      by_contra hall
      push Not at hall
      have := (hnd.subperm hall).length_le
      omega
    obtain ⟨a, ha, had, haready⟩ := exists_ready hlive hacyc hx hxd
    have hreadya : ready done a = true := by
      rw [hready]
      simp only [Bool.and_eq_true, Bool.not_eq_true', List.contains_iff_mem, List.all_eq_true,
        Bool.or_eq_true]
      refine ⟨by simpa using had, fun d hd => ?_⟩
      by_cases hdl' : d ∈ live
      · exact .inr (by simpa using haready d hd hdl')
      · exact .inl (by simpa using hdl')
    rw [topologicalOrder.go]
    rcases hfind : live.find? (ready done) with _ | h
    · exact absurd hreadya (by simpa using List.find?_eq_none.1 hfind a ha)
    · have hh : ready done h = true := List.find?_some hfind
      have hhl : h ∈ live := List.mem_of_find?_eq_some hfind
      have hhd : h ∉ done := by
        rw [hready] at hh
        simp only [Bool.and_eq_true, Bool.not_eq_true'] at hh
        simpa using hh.1
      dsimp only
      rw [length_topologicalOrder_go hlive hnd hready hacyc fuel (done ++ [h])
        (List.nodup_append.2 ⟨hdn, List.nodup_singleton h, fun x hx y hy hxy => by
          rw [List.mem_singleton.1 hy] at hxy
          exact hhd (hxy ▸ hx)⟩)
        (fun x hx => by
          rcases List.mem_append.1 hx with hx | hx
          · exact hdl x hx
          · rw [List.mem_singleton.1 hx]
            exact hhl)
        (by rw [List.length_append, List.length_singleton]; omega)]
      simp only [List.length_append, List.length_singleton]
      omega

/-- **Kahn's algorithm never reports a cycle that is not there.** When no chain of dependencies
between live ops returns to its start, every live op is ordered. -/
theorem topologicalOrder_ok (hacyc : ∀ a, ¬ Relation.TransGen k.WaitsLive a a) :
    ∃ order, k.topologicalOrder = .ok order := by
  unfold topologicalOrder
  dsimp only
  rw [if_pos]
  · exact ⟨_, rfl⟩
  · rw [length_topologicalOrder_go (fun x => mem_sortedIds) (nodup_sortedIds _) (fun _ _ => rfl)
      hacyc _ [] List.nodup_nil (fun x hx => by cases hx) (by simp)]
    simp

end Kernel

end TileKernel
