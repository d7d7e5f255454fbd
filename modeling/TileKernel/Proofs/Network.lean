import TileKernel.Assignment.Constraint
import Mathlib.Logic.Basic
import Mathlib.Data.Nat.Find

/-!
# Layout constraint networks

A network is a list of constraints and a domain of candidate layouts per buffer. An assignment
`a : BufferId → Layout` *solves* it (`Solves`) when every buffer a constraint touches takes a
layout of its domain and every constraint holds: a requirement admits the layout of its buffer,
a relation holds between the layouts of its two buffers.

Both relations are partial equivalences. `equal` is equality; `sameInnermost` relates two dense
layouts with the same unit-stride dimension, so it is the kernel of `Layout.innermost?` on the
dense layouts and relates no fragment. The main statement, `exists_solves_of_arcConsistent`, is
what makes greedy solving complete on such networks: once every arc is supported, every
requirement is met by every candidate and every touched domain is non-empty, any candidate of
any buffer extends to a solution. The solution is built by `extension`, which only looks at the
members of a domain.
-/

set_option autoImplicit false

namespace TileKernel

/-- The unit-stride dimension of a dense layout; fragments have none. -/
def Layout.innermost? (l : Layout) : Option Nat := l.asDense?.map DenseLayout.innermost

namespace Relation

theorem holds_equal_iff {a b : Layout} : Relation.equal.holds a b = true ↔ a = b := by
  simp [holds]

theorem holds_sameInnermost_iff {a b : Layout} :
    Relation.sameInnermost.holds a b = true ↔ ∃ n, a.innermost? = some n ∧ b.innermost? = some n := by
  cases a <;> cases b <;> simp [holds, Layout.innermost?, Layout.asDense?]
  exact eq_comm

theorem holds_comm (r : Relation) (a b : Layout) : r.holds a b = r.holds b a := by
  cases r
  · simp [holds, eq_comm]
  · rw [Bool.eq_iff_iff, holds_sameInnermost_iff, holds_sameInnermost_iff]
    exact exists_congr fun _ => and_comm

theorem holds_trans (r : Relation) {a b c : Layout} (hab : r.holds a b = true)
    (hbc : r.holds b c = true) : r.holds a c = true := by
  cases r
  · rw [holds_equal_iff] at *
    exact hab.trans hbc
  · rw [holds_sameInnermost_iff] at *
    obtain ⟨n, ha, hb⟩ := hab
    obtain ⟨m, hb', hc⟩ := hbc
    exact ⟨n, ha, by rw [hc, ← hb', hb]⟩

/-- A layout related to anything is related to itself. -/
theorem holds_self (r : Relation) {a b : Layout} (h : r.holds a b = true) : r.holds a a = true :=
  r.holds_trans h (by rwa [holds_comm])

end Relation

/-- The domain of a buffer in domains indexed by handle; a handle past their end has none. -/
def domainAt (D : Array (List Layout)) (b : BufferId) : List Layout := D[b.idx]?.getD []

/-- Whether an assignment meets a constraint: the requirement admits the layout of its buffer, or
the relation holds between the layouts of its two buffers. -/
def Constraint.Holds (a : BufferId → Layout) : Constraint → Prop
  | .unary _ b r => r.admits (a b) = .ok true
  | .binary _ x y rel => rel.holds (a x) (a y) = true

/-- An assignment solves a network: every buffer a constraint touches takes a layout of its
domain, and every constraint holds. -/
structure Solves (cs : List Constraint) (D : BufferId → List Layout) (a : BufferId → Layout) :
    Prop where
  mem : ∀ c ∈ cs, ∀ b, c.touches b = true → a b ∈ D b
  holds : ∀ c ∈ cs, c.Holds a

/-- Every layout of `x`'s domain is related to some layout of `y`'s. -/
def Supported (D : BufferId → List Layout) (rel : Relation) (x y : BufferId) : Prop :=
  ∀ l ∈ D x, ∃ m ∈ D y, rel.holds l m = true

/-- Both arcs of every binary constraint are supported. -/
def ArcConsistent (cs : List Constraint) (D : BufferId → List Layout) : Prop :=
  ∀ op x y rel, Constraint.binary op x y rel ∈ cs → Supported D rel x y ∧ Supported D rel y x

/-- Every candidate of a buffer meets every requirement placed on the buffer. -/
def RequirementsMet (cs : List Constraint) (D : BufferId → List Layout) : Prop :=
  ∀ op b r, Constraint.unary op b r ∈ cs → ∀ l ∈ D b, r.admits l = .ok true

/-- Two arcs of `equal` supported both ways: the two domains have the same members. -/
theorem mem_iff_of_supported_equal {D : BufferId → List Layout} {x y : BufferId}
    (hxy : Supported D .equal x y) (hyx : Supported D .equal y x) (l : Layout) :
    l ∈ D x ↔ l ∈ D y := by
  constructor
  · intro hl
    obtain ⟨m, hm, he⟩ := hxy l hl
    rwa [Relation.holds_equal_iff.1 he]
  · intro hl
    obtain ⟨m, hm, he⟩ := hyx l hl
    rwa [Relation.holds_equal_iff.1 he]

section Extension

variable (v : Layout)

open Classical in
/-- The layout taken from a domain (given by its members `S`) by the solution that extends the
choice of `v`: `v` itself if `S` holds it; else a member with `v`'s unit-stride dimension; else a
dense member with the least unit-stride dimension of `S`; else any member. -/
noncomputable def extension (S : Layout → Prop) : Layout :=
  if S v then v
  else if h : ∃ w, S w ∧ ∃ n, w.innermost? = some n ∧ v.innermost? = some n then Classical.choose h
  else if h : ∃ n, ∃ w, S w ∧ w.innermost? = some n then
    Classical.choose (Nat.find_spec h)
  else if h : ∃ w, S w then Classical.choose h
  else v

variable {v}

theorem extension_of_mem {S : Layout → Prop} (h : S v) : extension v S = v := by
  simp [extension, h]

theorem extension_mem {S : Layout → Prop} (h : ∃ w, S w) : S (extension v S) := by
  classical
  unfold extension
  split_ifs with h1 h2 h3
  · exact h1
  · exact (Classical.choose_spec h2).1
  · exact (Classical.choose_spec (Nat.find_spec h3)).1
  · exact Classical.choose_spec h

theorem extension_innermost_of_offered {S : Layout → Prop} {n : Nat} (hv : v.innermost? = some n)
    (offered : ∃ w, S w ∧ w.innermost? = some n) : (extension v S).innermost? = some n := by
  obtain ⟨w, hw, hwn⟩ := offered
  have h2 : ∃ w, S w ∧ ∃ m, w.innermost? = some m ∧ v.innermost? = some m := ⟨w, hw, n, hwn, hv⟩
  unfold extension
  by_cases h1 : S v
  · simp [h1, hv]
  · rw [if_neg h1, dif_pos h2]
    obtain ⟨-, m, hm, hvm⟩ := Classical.choose_spec h2
    rw [hm, ← hvm, hv]

open Classical in
theorem extension_innermost_least {S : Layout → Prop} (dense : ∀ w, S w → ∃ n, w.innermost? = some n)
    (h : ∃ n, ∃ w, S w ∧ w.innermost? = some n)
    (unoffered : ∀ n, v.innermost? = some n → ¬ ∃ w, S w ∧ w.innermost? = some n) :
    (extension v S).innermost? = some (Nat.find h) := by
  have h1 : ¬ S v := fun hs => by
    obtain ⟨m, hm⟩ := dense v hs
    exact unoffered m hm ⟨v, hs, hm⟩
  have h2 : ¬ ∃ w, S w ∧ ∃ m, w.innermost? = some m ∧ v.innermost? = some m := by
    rintro ⟨w, hw, m, hwm, hvm⟩
    exact unoffered m hvm ⟨w, hw, hwm⟩
  unfold extension
  rw [if_neg h1, dif_neg h2, dif_pos h]
  exact (Classical.choose_spec (Nat.find_spec h)).2

/-- Two domains of dense layouts offering the same unit-stride dimensions have extensions with the
same unit-stride dimension. -/
theorem extension_sameInnermost {S T : Layout → Prop} (hS : ∃ w, S w)
    (denseS : ∀ w, S w → ∃ n, w.innermost? = some n) (denseT : ∀ w, T w → ∃ n, w.innermost? = some n)
    (same : ∀ n, (∃ w, S w ∧ w.innermost? = some n) ↔ (∃ w, T w ∧ w.innermost? = some n)) :
    Relation.sameInnermost.holds (extension v S) (extension v T) = true := by
  classical
  rw [Relation.holds_sameInnermost_iff]
  by_cases hv : ∃ n, v.innermost? = some n ∧ ∃ w, S w ∧ w.innermost? = some n
  · obtain ⟨n, hvn, hSn⟩ := hv
    exact ⟨n, extension_innermost_of_offered hvn hSn,
      extension_innermost_of_offered hvn ((same n).1 hSn)⟩
  · -- Neither domain offers `v`'s dimension, so both take the least dimension they offer.
    have unS : ∀ n, v.innermost? = some n → ¬ ∃ w, S w ∧ w.innermost? = some n :=
      fun n hn hs => hv ⟨n, hn, hs⟩
    have unT : ∀ n, v.innermost? = some n → ¬ ∃ w, T w ∧ w.innermost? = some n :=
      fun n hn ht => hv ⟨n, hn, (same n).2 ht⟩
    obtain ⟨w, hw⟩ := hS
    obtain ⟨n, hn⟩ := denseS w hw
    have hS' : ∃ n, ∃ w, S w ∧ w.innermost? = some n := ⟨n, w, hw, hn⟩
    have hT' : ∃ n, ∃ w, T w ∧ w.innermost? = some n := ⟨n, (same n).1 ⟨w, hw, hn⟩⟩
    refine ⟨Nat.find hS', extension_innermost_least denseS hS' unS, ?_⟩
    rw [extension_innermost_least denseT hT' unT]
    exact congrArg some (Nat.find_congr' fun {n} => (same n).symm)

end Extension

/-- A supported arc of `sameInnermost` leaves only dense layouts in its source domain. -/
theorem innermost_of_supported_sameInnermost {D : BufferId → List Layout} {y z : BufferId}
    (h : Supported D .sameInnermost y z) {w : Layout} (hw : w ∈ D y) : ∃ n, w.innermost? = some n := by
  obtain ⟨m, -, hwm⟩ := h w hw
  obtain ⟨n, hn, -⟩ := Relation.holds_sameInnermost_iff.1 hwm
  exact ⟨n, hn⟩

/-- A supported arc of `sameInnermost` finds every unit-stride dimension of its source domain in
its target domain. -/
theorem offers_of_supported_sameInnermost {D : BufferId → List Layout} {y z : BufferId}
    (h : Supported D .sameInnermost y z) {n : Nat} (offered : ∃ w, w ∈ D y ∧ w.innermost? = some n) :
    ∃ m, m ∈ D z ∧ m.innermost? = some n := by
  obtain ⟨w, hw, hwn⟩ := offered
  obtain ⟨m, hm, hwm⟩ := h w hw
  obtain ⟨n', hw', hm'⟩ := Relation.holds_sameInnermost_iff.1 hwm
  exact ⟨m, hm, by rw [hm', ← hw', hwn]⟩

/-- **Arc consistency is global consistency.** On an arc-consistent network whose candidates all
meet the requirements on their buffers and whose touched domains are non-empty, every candidate
`v` of every buffer `x` extends to a solution. -/
theorem exists_solves_of_arcConsistent {cs : List Constraint} {D : BufferId → List Layout}
    (consistent : ArcConsistent cs D) (met : RequirementsMet cs D)
    (nonempty : ∀ c ∈ cs, ∀ b, c.touches b = true → D b ≠ []) {x : BufferId} {v : Layout}
    (hv : v ∈ D x) : ∃ a, Solves cs D a ∧ a x = v := by
  have inhabited : ∀ c ∈ cs, ∀ b, c.touches b = true → ∃ w, w ∈ D b :=
    fun c hc b hb => List.exists_mem_of_ne_nil _ (nonempty c hc b hb)
  refine ⟨fun b => extension v (· ∈ D b), ⟨?_, ?_⟩, extension_of_mem hv⟩
  · intro c hc b hb
    exact extension_mem (inhabited c hc b hb)
  · intro c hc
    cases c with
    | unary op b r =>
      exact met op b r hc _ (extension_mem (inhabited _ hc b (by simp [Constraint.touches])))
    | binary op y z rel =>
      obtain ⟨hyz, hzy⟩ := consistent op y z rel hc
      cases rel with
      | equal =>
        -- Related by `equal`, the two domains have the same members, hence the same extension.
        have same : (· ∈ D y) = (· ∈ D z) :=
          funext fun l => propext (mem_iff_of_supported_equal hyz hzy l)
        show Relation.equal.holds (extension v (· ∈ D y)) (extension v (· ∈ D z)) = true
        rw [same, Relation.holds_equal_iff]
      | sameInnermost =>
        exact extension_sameInnermost (inhabited _ hc y (by simp [Constraint.touches]))
          (fun _ hw => innermost_of_supported_sameInnermost hyz hw)
          (fun _ hw => innermost_of_supported_sameInnermost hzy hw)
          (fun _ => ⟨offers_of_supported_sameInnermost hyz, offers_of_supported_sameInnermost hzy⟩)

end TileKernel
