import TileKernel.Proofs.Layout.Fragment
import TileKernel.Proofs.Simplification
import TileKernel.Analysis.Access
import TileKernel.Proofs.Granularity

/-!
# Copies cover their region once

An access pattern lists, instruction by instruction, the offsets each lane touches in a dense
buffer. For a copy it should touch the operand's region, the layout offsets of the tile's indices
from the region's origin, each exactly once, whichever builder made it:

* a cooperative sweep takes `vector`-element chunks along an axis the vector divides, in the order
  of an auxiliary dense layout of the chunk counts, which is a bijection onto the grid of chunks
  (`Site.Sweep.covers`);
* a fragment sweep takes one register group of every lane per instruction; the registers of a
  group hold consecutive elements along the fragment's contiguous axis, and the fragment's slots
  are a bijection onto its shape (`Site.FragmentRun.covers`).

Both are read off the code as specifications of a run that answers (`cooperativeSweep_spec`,
`fragmentSweep_spec`). A fragment sweep covers the fragment's whole shape, whatever windows the
copy's operands have: the region it covers is the operand's only when the operand's tile is the
fragment's shape.
-/

set_option autoImplicit false

namespace TileKernel

/-! ### Runs that answer -/

section Answers

variable {α β : Type}

theorem OptionT.run_bind_eq_some {x : OptionT Checked α} {f : α → OptionT Checked β} {b : β}
    (h : (x >>= f).run = .ok (some b)) : ∃ a, x.run = .ok (some a) ∧ (f a).run = .ok (some b) := by
  rw [OptionT.run_bind] at h
  rcases hx : x.run with e | _ | a
  · rw [hx] at h
    cases h
  · rw [hx] at h
    cases h
  · rw [hx] at h
    exact ⟨a, rfl, h⟩

theorem OptionT.run_liftM_eq_some {x : Checked α} {a : α}
    (h : (liftM x : OptionT Checked α).run = .ok (some a)) : x = .ok a := by
  cases x with
  | error e => cases h
  | ok b => cases h; rfl

/-- A stepped map that answers has one result per step, each the answer at its position. -/
theorem mapStepsM.go_eq_some {step : Nat} {f : Nat → OptionT Checked α} :
    ∀ {count i : Nat} {acc res : List α}, (mapStepsM.go step f count i acc).run = .ok (some res) →
      ∃ ys, res = acc.reverse ++ ys ∧ ys.length = count ∧
        ∀ j (hj : j < ys.length), (f (i + j * step)).run = .ok (some ys[j])
  | 0, i, acc, res, h => by
    rw [mapStepsM.go] at h
    obtain rfl : acc.reverse = res := Option.some.inj (Except.ok.inj h)
    exact ⟨[], by simp, rfl, fun j hj => absurd hj (Nat.not_lt_zero j)⟩
  | count + 1, i, acc, res, h => by
    rw [mapStepsM.go] at h
    obtain ⟨y, hy, h⟩ := OptionT.run_bind_eq_some h
    obtain ⟨ys, rfl, hlen, hys⟩ := go_eq_some h
    refine ⟨y :: ys, by simp, by simp [hlen], fun j hj => ?_⟩
    cases j with
    | zero => simpa using hy
    | succ j =>
      have hj' : j < ys.length := by simpa using hj
      simpa [Nat.succ_mul, Nat.add_assoc, Nat.add_comm step] using hys j hj'

theorem mapStepsM_eq_some {n step : Nat} {f : Nat → OptionT Checked α} {res : List α}
    (h : (mapStepsM n step f).run = .ok (some res)) :
    res.length = (n + step - 1) / step ∧
      ∀ j (hj : j < res.length), (f (j * step)).run = .ok (some res[j]) := by
  obtain ⟨ys, rfl, hlen, hys⟩ := mapStepsM.go_eq_some h
  simpa [hlen] using hys

end Answers

/-- Cutting a list into groups and joining them back gives the list. -/
theorem BankModel.flatten_chunks {α : Type} (n : Nat) (xs : List α) :
    (BankModel.chunks n xs).flatten = xs := by
  fun_induction BankModel.chunks n xs <;> simp_all

theorem Checked.get_eq_ok {α : Type} {xs : List α} {i : Nat} {a : α} :
    Checked.get xs i = .ok a ↔ xs[i]? = some a := by
  unfold Checked.get
  split <;> simp_all

theorem DenseLayout.withOrder_eq_ok {shape order : List Nat} {d : DenseLayout}
    (h : DenseLayout.withOrder shape order = .ok d) : d = ⟨shape, order⟩ := by
  unfold DenseLayout.withOrder at h
  split_ifs at h
  exact (Except.ok.inj h).symm

/-- A running product that computes is the product, and fits. -/
theorem Word.foldlM_mul_of_eq_ok {w : Word} : ∀ {xs : List Nat} {a n : Nat},
    xs.foldlM w.mul a = .ok n → a < w.bound → n = a * xs.prod ∧ n < w.bound
  | [], a, n, h, ha => by
    obtain rfl : a = n := Except.ok.inj h
    simpa using ha
  | x :: xs, a, n, h, _ => by
    rw [List.foldlM_cons] at h
    rcases hm : w.mul a x with e | m
    · rw [hm] at h
      cases h
    · rw [hm] at h
      obtain ⟨rfl, hlt⟩ := Word.mul_eq_ok_iff.1 hm
      obtain ⟨rfl, hn⟩ := foldlM_mul_of_eq_ok h hlt
      exact ⟨by rw [List.prod_cons, Nat.mul_assoc], hn⟩

/-- An element count that computes is the number of elements, and fits in 64 bits. -/
theorem Shape.count_of_eq_ok {s : Shape} {n : Nat} (h : s.count = .ok n) :
    n = s.elements ∧ n < Word.u64.bound := by
  obtain ⟨rfl, hn⟩ := @Word.foldlM_mul_of_eq_ok _ s 1 n h (by decide)
  exact ⟨by rw [Nat.one_mul, Shape.elements_eq_prod], hn⟩

/-- Indices below a tile within a shape are below the shape. -/
theorem forall₂_lt_of_le {idx tile shape : List Nat} (hidx : List.Forall₂ (· < ·) idx tile)
    (hle : List.Forall₂ (· ≤ ·) tile shape) : List.Forall₂ (· < ·) idx shape := by
  induction hidx generalizing shape with
  | nil => cases hle; exact .nil
  | cons hlt _ ih =>
    cases hle with
    | cons hle' hrest => exact .cons (Nat.lt_of_lt_of_le hlt hle') (ih hrest)

/-- With every other dimension first, a chosen dimension last lists every dimension once. -/
theorem filter_ne_append_perm {a r : Nat} (ha : a < r) :
    ((List.range r).filter (· ≠ a) ++ [a]).Perm (List.range r) := by
  have herase : (List.range r).filter (· ≠ a) = (List.range r).erase a := by
    rw [List.nodup_range.erase_eq_filter]
    refine List.filter_congr fun x _ => ?_
    by_cases hx : x = a <;> simp [hx]
  rw [herase]
  exact (List.perm_append_singleton _ _).trans (List.perm_cons_erase (List.mem_range.2 ha)).symm

/-- The site offset at an origin of zeros is the layout's. -/
theorem Site.offset_of_zero_origin {s : Site} {pos : List Nat} {x : Nat}
    (ho : s.origin = List.replicate pos.length 0) (h : s.offset pos = .ok (some x)) :
    s.dense.offset pos = .ok (some x) := by
  unfold Site.offset at h
  rw [ho] at h
  simp only [bind, Except.bind] at h
  split at h
  · cases h
  rename_i index hindex
  -- Adding a zero in 32 bits gives the entry back, so the shifted index is the index.
  suffices hzero : ∀ {pos index : List Nat}, List.Forall₂ (fun x y => Word.u32.add x.1 x.2 = .ok y)
      (pos.zip (List.replicate pos.length 0)) index → index = pos by
    rw [← hzero (List.Forall₂.imp (fun _ _ hxy => by simpa using hxy) (mapM_eq_ok hindex))]
    exact h
  intro pos
  induction pos with
  | nil => intro index hi; cases hi; rfl
  | cons p ps ih =>
    intro index hi
    cases hi with
    | cons hp hrest =>
      simp only [Word.add, Word.fit, Nat.add_zero] at hp
      split at hp
      · rw [ih hrest, ← Except.ok.inj hp]
      · cases hp

/-! ### Dense layouts along their innermost axis -/

namespace DenseLayout

theorem encode_append_singleton (s : Shape) (idx L : List Nat) (a : Nat) :
    encode s idx (L ++ [a]) = encode s idx L * s[a]?.getD 0 + idx[a]?.getD 0 := by
  induction L with
  | nil => simp [encode]
  | cons x xs ih =>
    simp only [List.cons_append, encode, ih, span, List.map_append, List.prod_append]
    simp only [List.map_cons, List.map_nil, List.prod_cons, List.prod_nil, Nat.mul_one]
    ring

theorem encode_set_of_not_mem (s : Shape) (idx : List Nat) {a c : Nat} :
    ∀ {L : List Nat}, a ∉ L → encode s (idx.set a c) L = encode s idx L
  | [], _ => rfl
  | x :: xs, h => by
    have hax : a ≠ x := fun e => h (e ▸ List.mem_cons_self)
    have hxs : a ∉ xs := fun hm => h (List.mem_cons_of_mem x hm)
    rw [encode, encode, encode_set_of_not_mem s idx hxs, List.getElem?_set_ne hax]

/-- The entry of the innermost dimension counts single elements: setting it adds to the offset
of the index with that entry zero. -/
theorem Fits.encode_set_innermost {d : DenseLayout} (h : d.Fits) {idx : List Nat}
    (hlen : d.innermost < idx.length) (hne : d.shape ≠ []) (c : Nat) :
    encode d.shape (idx.set d.innermost c) d.order =
      encode d.shape (idx.set d.innermost 0) d.order + c := by
  have hord : d.order ≠ [] := fun e => hne (List.length_eq_zero_iff.1
    (by simpa [e] using h.perm.length_eq.symm))
  have hlast : d.innermost = d.order.getLast hord := by
    simp [innermost, List.getLast?_eq_some_getLast hord]
  have hsplit := List.dropLast_append_getLast hord
  have hnot : d.order.getLast hord ∉ d.order.dropLast := by
    have hn : (d.order.dropLast ++ [d.order.getLast hord]).Nodup := by
      rw [hsplit]
      exact h.nodup
    exact fun hm => List.disjoint_of_nodup_append hn hm (List.mem_singleton_self _)
  rw [← hsplit, encode_append_singleton, encode_append_singleton, ← hlast,
    encode_set_of_not_mem _ _ (hlast ▸ hnot), encode_set_of_not_mem _ _ (hlast ▸ hnot),
    List.getElem?_set_self hlen, List.getElem?_set_self hlen]
  simp

/-- Two in-range indices with one offset are one index. -/
theorem Fits.offset_inj {d : DenseLayout} (h : d.Fits) {i j : List Nat} {x : Nat}
    (hi : d.offset i = .ok (some x)) (hj : d.offset j = .ok (some x)) : i = j := by
  have hinv := h.offset_indexOf.2.2.2.2.2.1
  have := ((hinv x i).2 hi).symm.trans ((hinv x j).2 hj)
  exact Option.some.inj (Except.ok.inj this)

/-- Stepping the innermost entry of an index by `e` steps its offset by `e`. -/
theorem Fits.encode_step_innermost {d : DenseLayout} (h : d.Fits) {idx : List Nat}
    (hlen : d.innermost < idx.length) (hne : d.shape ≠ []) (e : Nat) :
    encode d.shape (idx.set d.innermost (idx[d.innermost]?.getD 0 + e)) d.order =
      encode d.shape idx d.order + e := by
  have hself : idx.set d.innermost (idx[d.innermost]?.getD 0) = idx := by
    rw [List.getElem?_eq_getElem hlen, Option.getD_some, List.set_getElem_self]
  conv_rhs => rw [← hself]
  rw [h.encode_set_innermost hlen hne, h.encode_set_innermost hlen hne (idx[d.innermost]?.getD 0)]
  omega

end DenseLayout

/-! ### What a pattern covers -/

/-- The offsets a lane access covers: `elems` consecutive offsets from its own. -/
def LaneAccess.elements (a : LaneAccess) : List Nat := (List.range a.elems).map (a.offset + ·)

/-- The offsets a pattern covers, access by access, with repetitions. -/
def AccessPattern.covered (p : AccessPattern) : List Nat :=
  p.phases.flatten.flatMap LaneAccess.elements

theorem LaneAccess.mem_elements {a : LaneAccess} {x : Nat} :
    x ∈ a.elements ↔ ∃ e < a.elems, a.offset + e = x := by
  simp [elements]

theorem LaneAccess.nodup_elements (a : LaneAccess) : a.elements.Nodup :=
  List.nodup_range.map fun _ _ h => Nat.add_left_cancel h

theorem mem_flatMap_elements {accesses : List LaneAccess} {x : Nat} :
    x ∈ accesses.flatMap LaneAccess.elements ↔
      ∃ n, ∃ hn : n < accesses.length, ∃ e < accesses[n].elems, accesses[n].offset + e = x := by
  constructor
  · rintro hx
    obtain ⟨a, ha, hx⟩ := List.mem_flatMap.1 hx
    obtain ⟨n, hn, rfl⟩ := List.mem_iff_getElem.1 ha
    exact ⟨n, hn, LaneAccess.mem_elements.1 hx⟩
  · rintro ⟨n, hn, hx⟩
    exact List.mem_flatMap.2 ⟨_, List.getElem_mem hn, LaneAccess.mem_elements.2 hx⟩

theorem mem_flatten_flatMap_elements {phases : List (List LaneAccess)} {x : Nat} :
    x ∈ phases.flatten.flatMap LaneAccess.elements ↔
      ∃ g, ∃ hg : g < phases.length, ∃ lane, ∃ hl : lane < phases[g].length,
        ∃ e < phases[g][lane].elems, phases[g][lane].offset + e = x := by
  constructor
  · intro hx
    obtain ⟨a, ha, hx⟩ := List.mem_flatMap.1 hx
    obtain ⟨ph, hph, ha⟩ := List.mem_flatten.1 ha
    obtain ⟨g, hg, rfl⟩ := List.mem_iff_getElem.1 hph
    obtain ⟨lane, hl, rfl⟩ := List.mem_iff_getElem.1 ha
    exact ⟨g, hg, lane, hl, LaneAccess.mem_elements.1 hx⟩
  · rintro ⟨g, hg, lane, hl, hx⟩
    refine List.mem_flatMap.2 ⟨_, List.mem_flatten.2 ⟨_, List.getElem_mem hg, List.getElem_mem hl⟩,
      LaneAccess.mem_elements.2 hx⟩

/-- Accesses cover no offset twice when an offset, with its place in an access, determines the
access. -/
theorem nodup_flatMap_elements {accesses : List LaneAccess}
    (hinj : ∀ i j (hi : i < accesses.length) (hj : j < accesses.length) e e',
      e < accesses[i].elems → e' < accesses[j].elems →
        accesses[i].offset + e = accesses[j].offset + e' → i = j) :
    (accesses.flatMap LaneAccess.elements).Nodup := by
  refine List.nodup_flatMap.2 ⟨fun a _ => a.nodup_elements,
    List.pairwise_iff_getElem.2 fun i j hi hj hij => ?_⟩
  rw [Function.onFun, List.disjoint_left]
  intro x hxi hxj
  obtain ⟨e, he, rfl⟩ := LaneAccess.mem_elements.1 hxi
  obtain ⟨e', he', hx⟩ := LaneAccess.mem_elements.1 hxj
  exact Nat.ne_of_lt hij (hinj i j hi hj e e' he he' hx.symm)

/-! ### Chunks along an axis -/

/-- The counts of `vector`-element chunks of a tile along `axis`. -/
def chunkCounts (tile : Shape) (axis vector : Nat) : Shape :=
  tile.set axis (tile[axis]?.getD 0 / vector)

/-- The index of element `e` of the chunk at `pos` in the grid of chunks along `axis`. -/
def chunkIndex (axis vector : Nat) (pos : List Nat) (e : Nat) : List Nat :=
  pos.set axis (pos[axis]?.getD 0 * vector + e)

section Chunks

variable {tile : Shape} {axis vector : Nat}

theorem length_chunkIndex (pos : List Nat) (e : Nat) :
    (chunkIndex axis vector pos e).length = pos.length := List.length_set

/-- Every element of a chunk of the grid is in the tile. -/
theorem chunkIndex_lt (hdvd : vector ∣ tile[axis]?.getD 0) {pos : List Nat} {e : Nat}
    (hpos : List.Forall₂ (· < ·) pos (chunkCounts tile axis vector)) (he : e < vector) :
    List.Forall₂ (· < ·) (chunkIndex axis vector pos e) tile := by
  obtain ⟨hlen, hlt⟩ := DenseLayout.forall₂_lt_iff.1 hpos
  simp only [chunkCounts, List.length_set] at hlen hlt
  refine DenseLayout.forall₂_lt_iff.2 ⟨by rw [length_chunkIndex, hlen], fun x hx => ?_⟩
  have hx' := hlt x hx
  by_cases hxa : axis = x
  · subst hxa
    have hq : pos[axis]?.getD 0 < tile[axis]?.getD 0 / vector := by
      simpa [List.getElem?_set_self hx] using hx'
    have hin := (radix_compose hq he).1
    rw [Nat.div_mul_cancel hdvd] at hin
    simpa [chunkIndex, List.getElem?_set_self (hlen ▸ hx)] using hin
  · simpa [chunkIndex, List.getElem?_set_ne hxa] using hx'

/-- Two chunk elements are one index only as the same element of the same chunk. -/
theorem chunkIndex_inj {pos pos' : List Nat} {e e' : Nat} (hlen : pos.length = pos'.length)
    (hax : axis < pos.length) (he : e < vector) (he' : e' < vector)
    (h : chunkIndex axis vector pos e = chunkIndex axis vector pos' e') : pos = pos' ∧ e = e' := by
  have hat := congrArg (·[axis]?) h
  simp only [chunkIndex, List.getElem?_set_self hax, List.getElem?_set_self (hlen ▸ hax),
    Option.some.injEq] at hat
  obtain ⟨-, hq, hr⟩ := radix_compose (m := pos[axis]?.getD 0 + 1) (Nat.lt_succ_self _) he
  obtain ⟨-, hq', hr'⟩ := radix_compose (m := pos'[axis]?.getD 0 + 1) (Nat.lt_succ_self _) he'
  refine ⟨List.ext_getElem? fun x => ?_, by rw [← hr, hat, hr']⟩
  by_cases hxa : axis = x
  · subst hxa
    have hsame : pos[axis]?.getD 0 = pos'[axis]?.getD 0 := by rw [← hq, hat, hq']
    rw [List.getElem?_eq_getElem hax, List.getElem?_eq_getElem (hlen ▸ hax)] at hsame ⊢
    simpa using hsame
  · have := congrArg (·[x]?) h
    simpa [chunkIndex, List.getElem?_set_ne hxa] using this

/-- Every index of the tile is an element of the chunk at its place in the grid. -/
theorem exists_chunkIndex (hdvd : vector ∣ tile[axis]?.getD 0)
    (hax : axis < tile.length) {idx : List Nat} (hidx : List.Forall₂ (· < ·) idx tile) :
    List.Forall₂ (· < ·) (idx.set axis (idx[axis]?.getD 0 / vector))
        (chunkCounts tile axis vector) ∧
      chunkIndex axis vector (idx.set axis (idx[axis]?.getD 0 / vector))
        (idx[axis]?.getD 0 % vector) = idx := by
  obtain ⟨hlen, hlt⟩ := DenseLayout.forall₂_lt_iff.1 hidx
  have hax' : axis < idx.length := hlen ▸ hax
  refine ⟨DenseLayout.forall₂_lt_iff.2 ⟨by simp [chunkCounts, hlen], fun x hx => ?_⟩, ?_⟩
  · simp only [chunkCounts, List.length_set] at hx
    by_cases hxa : axis = x
    · subst hxa
      simpa [chunkCounts, List.getElem?_set_self hax, List.getElem?_set_self hax'] using
        Nat.div_lt_div_of_lt_of_dvd hdvd (hlt axis hx)
    · simpa [chunkCounts, List.getElem?_set_ne hxa] using hlt x hx
  · refine List.ext_getElem? fun x => ?_
    by_cases hxa : axis = x
    · subst hxa
      simp [chunkIndex, List.getElem?_set_self hax', Nat.div_add_mod',
        List.getElem?_eq_getElem hax']
    · simp [chunkIndex, List.getElem?_set_ne hxa]

end Chunks

/-! ### Cooperative sweeps -/

/-- What a cooperative sweep that answers did at a site: `vector`-element chunks along `axis`, a
dimension of the tile that the vector divides (one element off the layout's innermost axis), are
taken in the order of the dense layout `sweep` of the chunk counts, `axis` innermost; access `n`
is the chunk at the `n`-th position of `sweep`, from the site offset of its first element. -/
structure Site.Sweep (s : Site) (axis vector : Nat) (sweep : DenseLayout)
    (accesses : List LaneAccess) : Prop where
  axis_lt : axis < s.tile.length
  vector_pos : 0 < vector
  vector_dvd : vector ∣ s.tile[axis]?.getD 0
  vector_one : s.dense.innermost ≠ axis → vector = 1
  sweep_eq : DenseLayout.withOrder (chunkCounts s.tile axis vector)
    ((List.range s.tile.length).filter (· ≠ axis) ++ [axis]) = .ok sweep
  count : sweep.extent = .ok accesses.length
  access : ∀ n (hn : n < accesses.length), accesses[n].elems = vector ∧ ∃ pos,
    sweep.indexOf n = .ok (some pos) ∧
      s.offset (pos.set axis (pos[axis]?.getD 0 * vector)) = .ok (some accesses[n].offset)

/-- A cooperative sweep that answers is a `Site.Sweep`, its instructions the accesses in order. -/
theorem cooperativeSweep_spec {s : Site} {op : TileOp} {partner : Option DenseLayout}
    {t : Target} {p : AccessPattern} (h : (cooperativeSweep s op partner t).run = .ok (some p)) :
    ∃ axis vector sweep accesses, s.Sweep axis vector sweep accesses ∧
      p.phases.flatten = accesses := by
  unfold cooperativeSweep at h
  extract_lets rank axis order lanes at h
  obtain ⟨E, hE, hrun⟩ := OptionT.run_bind_eq_some h
  clear h
  extract_lets jp at hrun
  -- The three ways of choosing the vector meet in the join point.
  have hv : ∃ v, (s.dense.innermost ≠ axis → v = 1) ∧ (jp v).run = .ok (some p) := by
    split at hrun
    · exact ⟨1, fun _ => rfl, by simpa using hrun⟩
    · split at hrun
      · exact ⟨_, fun hne => absurd hne ‹_›, by simpa using hrun⟩
      · obtain ⟨v, -, hrun⟩ := OptionT.run_bind_eq_some hrun
        exact ⟨v, fun hne => absurd hne ‹_›, hrun⟩
  clear hrun
  obtain ⟨v, hv1, h⟩ := hv
  simp only [jp] at h
  have hE : s.tile[axis]? = some E := Checked.get_eq_ok.1 (OptionT.run_liftM_eq_some hE)
  split at h
  · cases h
  rename_i hdiv
  split at h
  · rename_i W hW
    obtain ⟨N, hN, h⟩ := OptionT.run_bind_eq_some h
    obtain ⟨acc, hacc, h⟩ := OptionT.run_bind_eq_some h
    obtain rfl := (Option.some.inj (Except.ok.inj h)).symm
    obtain ⟨hlen, hat⟩ := mapStepsM_eq_some hacc
    simp only [Nat.add_sub_cancel, Nat.div_one, Nat.mul_one] at hlen hat
    have hv0 : 0 < v := Nat.pos_of_ne_zero fun h0 => hdiv (.inl h0)
    refine ⟨axis, v, W, acc, ⟨(List.getElem?_eq_some_iff.1 hE).1, hv0, ?_, hv1, ?_, ?_, ?_⟩,
      BankModel.flatten_chunks _ _⟩
    · rw [hE, Option.getD_some]
      exact Nat.dvd_of_mod_eq_zero (by omega)
    · rw [chunkCounts, hE]
      exact hW
    · rw [hlen]
      exact OptionT.run_liftM_eq_some hN
    · intro n hn
      obtain ⟨pos, hpos, hoff⟩ := OptionT.run_bind_eq_some (hat n hn)
      obtain ⟨off, hoff, hacc⟩ := OptionT.run_bind_eq_some hoff
      rw [← Option.some.inj (Except.ok.inj hacc)]
      exact ⟨rfl, pos, hpos, hoff⟩
  · cases h

namespace Site.Sweep

variable {s : Site} {axis vector : Nat} {sweep : DenseLayout} {accesses : List LaneAccess}
  (hs : s.Sweep axis vector sweep accesses)
include hs

/-- The positions the sweep visits are the chunks of the grid, each at exactly one access. -/
theorem positions :
    (∀ n, n < accesses.length → ∀ pos, sweep.indexOf n = .ok (some pos) →
      List.Forall₂ (· < ·) pos (chunkCounts s.tile axis vector)) ∧
    (∀ pos, List.Forall₂ (· < ·) pos (chunkCounts s.tile axis vector) →
      ∃ n < accesses.length, sweep.indexOf n = .ok (some pos)) ∧
    (∀ m n pos, m < accesses.length → n < accesses.length → sweep.indexOf m = .ok (some pos) →
      sweep.indexOf n = .ok (some pos) → m = n) := by
  obtain rfl := DenseLayout.withOrder_eq_ok hs.sweep_eq
  obtain ⟨hN, hfit⟩ := Shape.count_of_eq_ok hs.count
  dsimp only at hN hfit
  by_cases hz : ∀ c ∈ chunkCounts s.tile axis vector, 0 < c
  · -- Positive counts: the sweep is a dense layout that fits, a bijection onto the grid.
    have hW : DenseLayout.Fits ⟨chunkCounts s.tile axis vector,
        (List.range s.tile.length).filter (· ≠ axis) ++ [axis]⟩ :=
      ⟨by simpa [chunkCounts] using filter_ne_append_perm hs.axis_lt, hz, hN ▸ hfit⟩
    have hinv := hW.offset_indexOf.2.2.2.2.2.1
    refine ⟨fun n _ pos hpos => ?_, fun pos hpos => ?_, fun m n pos _ _ hm hn => ?_⟩
    · have hoff := (hinv n pos).1 hpos
      rw [hW.offset_eq] at hoff
      by_contra hout
      rw [if_neg hout] at hoff
      cases hoff
    · obtain ⟨hoff, hlt⟩ := hW.offset_of_forall₂ hpos
      exact ⟨_, hN ▸ hlt, (hinv _ pos).2 hoff⟩
    · have := ((hinv m pos).1 hm).symm.trans ((hinv n pos).1 hn)
      exact Option.some.inj (Except.ok.inj this)
  · -- An empty count: there are no accesses and no chunks.
    simp only [not_forall, not_lt, Nat.le_zero] at hz
    obtain ⟨c, hc, rfl⟩ := hz
    have hempty : accesses.length = 0 := by
      rw [hN, Shape.elements_eq_prod]
      exact List.prod_eq_zero hc
    refine ⟨fun n hn => absurd hn (by omega), fun pos hpos => ?_,
      fun m n pos hm => absurd hm (by omega)⟩
    obtain ⟨i, hi, hci⟩ := List.mem_iff_getElem.1 hc
    have := (DenseLayout.forall₂_lt_iff.1 hpos).2 i hi
    simp [List.getElem?_eq_getElem hi, hci] at this

variable (hd : s.dense.Fits) (hle : List.Forall₂ (· ≤ ·) s.tile s.dense.shape)
  (ho : s.origin = List.replicate s.tile.length 0)
include hd hle ho

/-- Element `e` of access `n` is at the layout offset of element `e` of its chunk. -/
theorem offset_chunkIndex {n : Nat} (hn : n < accesses.length) {pos : List Nat}
    (hpos : sweep.indexOf n = .ok (some pos)) {e : Nat} (he : e < vector) :
    s.dense.offset (chunkIndex axis vector pos e) = .ok (some (accesses[n].offset + e)) := by
  have hgrid := hs.positions.1 n hn pos hpos
  have hlen : pos.length = s.tile.length := by simpa [chunkCounts] using hgrid.length_eq
  obtain ⟨-, pos', hpos', hoff⟩ := hs.access n hn
  obtain rfl : pos' = pos := Option.some.inj (Except.ok.inj (hpos'.symm.trans hpos))
  -- The access is at the chunk's first element.
  have hfirst : s.dense.offset (chunkIndex axis vector pos' 0) = .ok (some accesses[n].offset) :=
    Site.offset_of_zero_origin (by rw [length_chunkIndex, hlen, ho]) hoff
  have hin : ∀ e, e < vector →
      List.Forall₂ (· < ·) (chunkIndex axis vector pos' e) s.dense.shape :=
    fun e he => forall₂_lt_of_le (chunkIndex_lt hs.vector_dvd hgrid he) hle
  by_cases hv1 : vector = 1
  · obtain rfl : e = 0 := by omega
    simpa using hfirst
  -- Past one element the chunk runs along the innermost axis, where offsets are consecutive.
  have hinner : s.dense.innermost = axis := by
    by_contra hne
    exact hv1 (hs.vector_one hne)
  have hne : s.dense.shape ≠ [] := fun h0 => by
    have := hle.length_eq ▸ hs.axis_lt
    simp [h0] at this
  have hax : s.dense.innermost < pos'.length := hinner ▸ hlen ▸ hs.axis_lt
  have h0 := (hd.offset_of_forall₂ (hin 0 hs.vector_pos)).1
  rw [hfirst] at h0
  rw [(hd.offset_of_forall₂ (hin e he)).1, Option.some.inj (Except.ok.inj h0)]
  simp only [chunkIndex, ← hinner]
  have hstart := hd.encode_set_innermost hax hne (pos'[s.dense.innermost]?.getD 0 * vector + 0)
  rw [hd.encode_set_innermost hax hne (_ + e), hstart]
  congr 2
  omega

/-- **A cooperative sweep covers its region once.** The elements of its accesses are the layout
offsets of the indices of the tile, each exactly once. -/
theorem covers :
    (accesses.flatMap LaneAccess.elements).Nodup ∧
      ∀ x, x ∈ accesses.flatMap LaneAccess.elements ↔
        ∃ idx, List.Forall₂ (· < ·) idx s.tile ∧ s.dense.offset idx = .ok (some x) := by
  obtain ⟨hvisit, hall, hinj⟩ := hs.positions
  have hpos : ∀ n, n < accesses.length → ∃ pos, sweep.indexOf n = .ok (some pos) :=
    fun n hn => (hs.access n hn).2.imp fun _ h => h.1
  have hlen : ∀ n (hn : n < accesses.length) pos, sweep.indexOf n = .ok (some pos) →
      pos.length = s.tile.length := fun n hn pos hp => by
    simpa [chunkCounts] using (hvisit n hn pos hp).length_eq
  refine ⟨nodup_flatMap_elements fun i j hi hj e e' he he' hx => ?_,
    fun x => ⟨fun hx => ?_, fun hx => ?_⟩⟩
  · -- Two accesses share an element only at one chunk, so only as one access.
    rw [(hs.access i hi).1] at he
    rw [(hs.access j hj).1] at he'
    obtain ⟨p, hp⟩ := hpos i hi
    obtain ⟨q, hq⟩ := hpos j hj
    have hsame := hd.offset_inj (hs.offset_chunkIndex hd hle ho hi hp he)
      (hx ▸ hs.offset_chunkIndex hd hle ho hj hq he')
    obtain ⟨rfl, -⟩ := chunkIndex_inj ((hlen i hi p hp).trans (hlen j hj q hq).symm)
      ((hlen i hi p hp).symm ▸ hs.axis_lt) he he' hsame
    exact hinj i j p hi hj hp hq
  · obtain ⟨n, hn, e, he, rfl⟩ := mem_flatMap_elements.1 hx
    obtain ⟨pos, hp⟩ := hpos n hn
    rw [(hs.access n hn).1] at he
    exact ⟨_, chunkIndex_lt hs.vector_dvd (hvisit n hn pos hp) he,
      hs.offset_chunkIndex hd hle ho hn hp he⟩
  · -- An index of the tile is an element of the chunk at its place in the grid.
    obtain ⟨idx, hidx, hx⟩ := hx
    obtain ⟨hgrid, hidx_eq⟩ := exists_chunkIndex hs.vector_dvd hs.axis_lt hidx
    obtain ⟨n, hn, hp⟩ := hall _ hgrid
    have he : idx[axis]?.getD 0 % vector < vector := Nat.mod_lt _ hs.vector_pos
    have hat := hs.offset_chunkIndex hd hle ho hn hp he
    rw [hidx_eq, hx] at hat
    refine mem_flatMap_elements.2 ⟨n, hn, _, ?_, (Option.some.inj (Except.ok.inj hat)).symm⟩
    rw [(hs.access n hn).1]
    exact he

end Site.Sweep

/-! ### Runs of a lane -/

/-- Steps of `v` through a multiple of `v` number exactly its quotient. -/
theorem steps_of_dvd {v R : Nat} (hv : 0 < v) (h : v ∣ R) : (R + v - 1) / v = R / v := by
  obtain ⟨k, rfl⟩ := h
  rw [Nat.mul_div_cancel_left k hv]
  apply Nat.div_eq_of_lt_le
  · rw [Nat.mul_comm]
    omega
  · rw [Nat.succ_mul, Nat.mul_comm]
    omega

/-- Within a run of `n` positions, `n` dividing `P`, a step of `e < n` moves only the remainder
by `P`. -/
theorem div_mod_add_of_dvd {n P g e : Nat} (hdvd : n ∣ P) (he : e < n) :
    (g * n + e) / P = g * n / P ∧ (g * n + e) % P = g * n % P + e := by
  obtain ⟨m, rfl⟩ := hdvd
  rcases Nat.eq_zero_or_pos m with rfl | hm
  · simp
  -- The run starts `g % m` runs into block `g / m` of `m` runs.
  have hP : 0 < n * m := Nat.mul_pos (by omega) hm
  have place : ∀ e, e < n → (g * n + e) / (n * m) = g / m ∧ (g * n + e) % (n * m) = g % m * n + e :=
    fun e he => by
      have hsplit : g * n + e = (g % m * n + e) + g / m * (n * m) := by
        conv_lhs => rw [← Nat.mod_add_div g m]
        ring
      have hlt : g % m * n + e < n * m := by
        rw [Nat.mul_comm n m]
        exact (radix_compose (Nat.mod_lt g hm) he).1
      rw [hsplit, Nat.add_mul_div_right _ _ hP, Nat.add_mul_mod_self_right, Nat.div_eq_of_lt hlt,
        Nat.mod_eq_of_lt hlt, Nat.zero_add]
      exact ⟨rfl, rfl⟩
  obtain ⟨hdiv, hmod⟩ := place e he
  obtain ⟨hdiv0, hmod0⟩ := place 0 (Nat.lt_of_le_of_lt (Nat.zero_le e) he)
  rw [Nat.add_zero] at hdiv0 hmod0
  rw [hdiv, hmod, hdiv0, hmod0]
  exact ⟨rfl, rfl⟩

namespace Fragment

/-- A strip that passes `validate` has runs that divide the rows of its tile. -/
theorem validate_strip_dvd {f : Fragment} {t : Target} {v : Nat}
    (h : (f.validate t).run = .ok (.ok ())) (hk : f.kind = .strip v) : v ∣ f.tile.2 := by
  obtain ⟨kind, ⟨s0, s1⟩, ⟨r, c⟩, L⟩ := f
  dsimp only at hk
  subst hk
  unfold Fragment.validate at h
  simp only [ExceptT.run] at h
  split at h
  · cases h
  split at h
  · cases h
  split at h
  · cases h
  split at h
  · cases h
  rename_i hv
  simp only [not_or, Decidable.not_not] at hv
  exact Nat.dvd_of_mod_eq_zero hv.2

theorem contiguousAxis_lt_two (f : Fragment) : f.contiguousAxis < 2 := by
  unfold contiguousAxis
  split <;> decide

/-- Inside a tile, the registers of one run of a lane hold consecutive elements along the
contiguous axis. -/
theorem elementInTile_run {f : Fragment} (hstrip : ∀ v, f.kind = .strip v → v ∣ f.tile.2)
    (lane g : Nat) {e : Nat} (he : e < f.laneRun) :
    f.elementInTile lane (g * f.laneRun + e) =
      if f.contiguousAxis = 0 then
        ((f.elementInTile lane (g * f.laneRun)).1 + e, (f.elementInTile lane (g * f.laneRun)).2)
      else
        ((f.elementInTile lane (g * f.laneRun)).1,
          (f.elementInTile lane (g * f.laneRun)).2 + e) := by
  unfold elementInTile contiguousAxis laneRun at *
  cases hk : f.kind with
  | strip v =>
    simp only [hk] at he ⊢
    -- The lane's run and the register's place in it make one run of the strip's numbering.
    have hrun := div_mod_add_of_dvd (g := lane + g) (hstrip v hk) he
    rw [Nat.add_mul] at hrun
    simp only [if_neg (by decide : (1 : Nat) ≠ 0)]
    rw [← Nat.add_assoc, hrun.1, hrun.2]
  | mma operand =>
    simp only [hk] at he ⊢
    have hpair := div_mod_add_of_dvd (g := g) (Nat.dvd_refl 2) he
    rw [Nat.mul_div_cancel _ (by decide), Nat.mul_mod_left] at hpair
    cases operand <;> simp [atomElement, hpair.1, hpair.2]

section Tiled

variable {f : Fragment} (h : f.Tiled)
include h

theorem Tiled.laneRun_dvd_perTile : f.laneRun ∣ f.perTile := by
  unfold laneRun
  split
  · rename_i v hk
    rw [(h.perTile_strip hk).1]
  · rename_i operand hk
    obtain ⟨a, b, -, -, -, hpt⟩ := h.perTile_atoms hk
    exact ⟨a * b, hpt⟩

variable (hstrip : ∀ v, f.kind = .strip v → v ∣ f.tile.2)
include hstrip

/-- The registers of one run of a lane hold consecutive elements along the contiguous axis. -/
theorem Tiled.element_run (lane g : Nat) {e : Nat} (he : e < f.laneRun) :
    f.element lane (g * f.laneRun + e) =
      if f.contiguousAxis = 0 then
        ((f.element lane (g * f.laneRun)).1 + e, (f.element lane (g * f.laneRun)).2)
      else
        ((f.element lane (g * f.laneRun)).1, (f.element lane (g * f.laneRun)).2 + e) := by
  obtain ⟨m, hm⟩ := h.laneRun_dvd_perTile
  -- The run lies in one tile, at run `g % m` of the lane's registers there.
  obtain ⟨hdiv, hmod⟩ := div_mod_add_of_dvd (g := g) h.laneRun_dvd_perTile he
  have hin : g * f.laneRun % f.perTile = g % m * f.laneRun := by
    rw [hm, Nat.mul_comm f.laneRun m, Nat.mul_mod_mul_right]
  simp only [element, hdiv, hmod, hin, elementInTile_run hstrip lane (g % m) he]
  split <;> simp [Nat.add_assoc]

end Tiled

end Fragment

/-! ### Fragment sweeps -/

/-- What a fragment sweep that answers did: `vector` is the fragment's lane run when the layout's
innermost axis is the fragment's contiguous one, and one element otherwise; instruction `g` takes
register `g * vector` of every lane, at the site offset of the element that register holds. -/
structure Site.FragmentRun (s : Site) (f : Fragment) (vector : Nat)
    (phases : List (List LaneAccess)) : Prop where
  vector_eq : vector = if s.dense.innermost = f.contiguousAxis then f.laneRun else 1
  vector_pos : 0 < vector
  count : ∃ regs, f.regsPerLane = .ok regs ∧ phases.length = (regs + vector - 1) / vector
  lanes : ∀ g (hg : g < phases.length), phases[g].length = f.lanes
  access : ∀ g (hg : g < phases.length) lane (hl : lane < phases[g].length),
    phases[g][lane].elems = vector ∧ ∃ rc, f.unmap lane (g * vector) = .ok (some rc) ∧
      s.offset [rc.1, rc.2] = .ok (some phases[g][lane].offset)

/-- A fragment sweep that answers is a `Site.FragmentRun`. -/
theorem fragmentSweep_spec {s : Site} {f : Fragment} {p : AccessPattern}
    (h : (fragmentSweep s f).run = .ok (some p)) : s.FragmentRun f p.vector p.phases := by
  unfold fragmentSweep at h
  extract_lets vector at h
  obtain ⟨regs, hregs, hrun⟩ := OptionT.run_bind_eq_some h
  clear h
  extract_lets jp at hrun
  split at hrun
  · cases hrun
  rename_i hv
  simp only [jp] at hrun
  obtain ⟨phases, hph, hrun⟩ := OptionT.run_bind_eq_some hrun
  obtain rfl := (Option.some.inj (Except.ok.inj hrun)).symm
  obtain ⟨hlen, hat⟩ := mapStepsM_eq_some hph
  refine ⟨rfl, Nat.pos_of_ne_zero hv, ⟨regs, OptionT.run_liftM_eq_some hregs, hlen⟩,
    fun g hg => ?_, fun g hg lane hl => ?_⟩
  · simpa using (mapStepsM_eq_some (hat g hg)).1
  · have hlane := (mapStepsM_eq_some (hat g hg)).2 lane hl
    rw [Nat.mul_one] at hlane
    obtain ⟨⟨r, c⟩, hrc, hlane⟩ := OptionT.run_bind_eq_some hlane
    obtain ⟨off, hoff, hlane⟩ := OptionT.run_bind_eq_some hlane
    rw [← Option.some.inj (Except.ok.inj hlane)]
    exact ⟨rfl, (r, c), hrc, hoff⟩

namespace Site.FragmentRun

variable {s : Site} {f : Fragment} {vector : Nat} {phases : List (List LaneAccess)} {t : Target}
  (hs : s.FragmentRun f vector phases) (hf : (Layout.fragment f).Addressable t)
include hs hf

/-- The groups step through every register of a lane: `phases.length` groups of `vector`. -/
theorem registers :
    phases.length * vector = (f.shape.1 / f.tile.1) * (f.shape.2 / f.tile.2) * f.perTile ∧
      vector ∣ f.perTile := by
  obtain ⟨htiled, -⟩ := Fragment.validate_tiled hf.1
  obtain ⟨regs, hregs, hlen⟩ := hs.count
  rw [Fragment.regsPerLane_eq hf.2, htiled.regs_eq] at hregs
  obtain rfl := Except.ok.inj hregs
  have hdvd : vector ∣ f.perTile := by
    rw [hs.vector_eq]
    split
    · exact htiled.laneRun_dvd_perTile
    · exact Nat.one_dvd _
  rw [hlen, steps_of_dvd hs.vector_pos (Nat.dvd_trans hdvd (Nat.dvd_mul_left _ _)),
    Nat.div_mul_cancel (Nat.dvd_trans hdvd (Nat.dvd_mul_left _ _))]
  exact ⟨rfl, hdvd⟩

variable (hd : s.dense.Fits) (htile : s.tile = [f.shape.1, f.shape.2])
  (hle : List.Forall₂ (· ≤ ·) s.tile s.dense.shape) (ho : s.origin = List.replicate s.tile.length 0)
include hd htile hle ho

/-- Element `e` of the access of lane `lane` in group `g` is at the layout offset of the element
its register `g * vector + e` holds. -/
theorem offset_element {g : Nat} (hg : g < phases.length) {lane : Nat}
    (hl : lane < phases[g].length) {e : Nat} (he : e < vector) :
    s.dense.offset [(f.element lane (g * vector + e)).1, (f.element lane (g * vector + e)).2] =
      .ok (some (phases[g][lane].offset + e)) := by
  obtain ⟨htiled, -⟩ := Fragment.validate_tiled hf.1
  obtain ⟨hregs, -⟩ := hs.registers hf
  have hlane : lane < f.lanes := hs.lanes g hg ▸ hl
  have hreg : g * vector + e < (f.shape.1 / f.tile.1) * (f.shape.2 / f.tile.2) * f.perTile :=
    hregs ▸ (radix_compose hg he).1
  have hreg0 : g * vector < (f.shape.1 / f.tile.1) * (f.shape.2 / f.tile.2) * f.perTile :=
    Nat.lt_of_le_of_lt (Nat.le_add_right _ e) hreg
  -- Every element a register of the lane holds is in the tile, so in the layout.
  have hin : ∀ reg, reg < (f.shape.1 / f.tile.1) * (f.shape.2 / f.tile.2) * f.perTile →
      List.Forall₂ (· < ·) [(f.element lane reg).1, (f.element lane reg).2] s.dense.shape :=
    fun reg hr => by
      obtain ⟨hrow, hcol, -⟩ := htiled.element_spec hlane hr
      exact forall₂_lt_of_le (htile ▸ .cons hrow (.cons hcol .nil)) hle
  obtain ⟨-, rc, hrc, hoff⟩ := hs.access g hg lane hl
  rw [htiled.unmap_eq hf.2, if_neg (by omega)] at hrc
  obtain rfl := (Option.some.inj (Except.ok.inj hrc)).symm
  have hstart := Site.offset_of_zero_origin (by rw [ho, htile]; rfl) hoff
  by_cases hv1 : vector = 1
  · obtain rfl : e = 0 := by omega
    simpa using hstart
  -- Past one element the run lies along the innermost axis, where offsets are consecutive.
  have hrun : s.dense.innermost = f.contiguousAxis ∧ vector = f.laneRun := by
    have hveq := hs.vector_eq
    split at hveq
    · exact ⟨‹_›, hveq⟩
    · exact absurd hveq hv1
  obtain ⟨hinner, hvec⟩ := hrun
  have hstrip : ∀ v, f.kind = .strip v → v ∣ f.tile.2 := fun v hk =>
    Fragment.validate_strip_dvd hf.1 hk
  have hstep : [(f.element lane (g * vector + e)).1, (f.element lane (g * vector + e)).2] =
      [(f.element lane (g * vector)).1, (f.element lane (g * vector)).2].set s.dense.innermost
        ([(f.element lane (g * vector)).1,
          (f.element lane (g * vector)).2][s.dense.innermost]?.getD 0 + e) := by
    rw [hinner, hvec, htiled.element_run hstrip lane g (hvec ▸ he)]
    have h2 := f.contiguousAxis_lt_two
    by_cases h0 : f.contiguousAxis = 0
    · simp [h0]
    · obtain h1 : f.contiguousAxis = 1 := by omega
      simp [h1]
  have hne : s.dense.shape ≠ [] := fun h0 => by
    have := hle.length_eq
    simp [h0, htile] at this
  have hax : s.dense.innermost < 2 := hinner ▸ f.contiguousAxis_lt_two
  have h0 := (hd.offset_of_forall₂ (hin _ hreg0)).1
  rw [hstart] at h0
  rw [(hd.offset_of_forall₂ (hin _ hreg)).1, Option.some.inj (Except.ok.inj h0), hstep,
    hd.encode_step_innermost (by simpa using hax) hne]

/-- **A fragment sweep covers its region once.** The elements of its accesses are the layout
offsets of the indices of the fragment's shape, each exactly once. -/
theorem covers :
    (phases.flatten.flatMap LaneAccess.elements).Nodup ∧
      ∀ x, x ∈ phases.flatten.flatMap LaneAccess.elements ↔
        ∃ idx, List.Forall₂ (· < ·) idx s.tile ∧ s.dense.offset idx = .ok (some x) := by
  obtain ⟨htiled, -⟩ := Fragment.validate_tiled hf.1
  obtain ⟨hregs, -⟩ := hs.registers hf
  have hreg : ∀ g, g < phases.length → ∀ e, e < vector →
      g * vector + e < (f.shape.1 / f.tile.1) * (f.shape.2 / f.tile.2) * f.perTile :=
    fun g hg e he => hregs ▸ (radix_compose hg he).1
  -- An offset of two accesses names one element, so one register of one lane.
  have decode : ∀ g g' (hg : g < phases.length) (hg' : g' < phases.length) lane lane'
      (hl : lane < phases[g].length) (hl' : lane' < phases[g'].length) e e', e < vector →
      e' < vector → phases[g][lane].offset + e = phases[g'][lane'].offset + e' →
        g = g' ∧ lane = lane' := by
    intro g g' hg hg' lane lane' hl hl' e e' he he' hx
    have hsame := hd.offset_inj (hs.offset_element hf hd htile hle ho hg hl he)
      (hx ▸ hs.offset_element hf hd htile hle ho hg' hl' he')
    simp only [List.cons.injEq, and_true] at hsame
    have hslot := congrArg (fun rc : Nat × Nat => f.slot rc.1 rc.2) (Prod.ext hsame.1 hsame.2)
    simp only [(htiled.element_spec (hs.lanes g hg ▸ hl) (hreg g hg e he)).2.2,
      (htiled.element_spec (hs.lanes g' hg' ▸ hl') (hreg g' hg' e' he')).2.2,
      Prod.mk.injEq] at hslot
    obtain ⟨-, hq, -⟩ := radix_compose hg he
    obtain ⟨-, hq', -⟩ := radix_compose hg' he'
    exact ⟨by rw [← hq, hslot.2, hq'], hslot.1⟩
  refine ⟨?_, fun x => ⟨fun hx => ?_, fun hx => ?_⟩⟩
  · -- Within a group the lanes differ; across groups the registers do.
    have hflat : ∀ L : List (List LaneAccess), L.flatten.flatMap LaneAccess.elements =
        L.flatMap fun ph => ph.flatMap LaneAccess.elements := fun L => by
      induction L with
      | nil => rfl
      | cons ph L ih => rw [List.flatten_cons, List.flatMap_append, ih, List.flatMap_cons]
    rw [hflat]
    refine List.nodup_flatMap.2 ⟨fun ph hph => ?_,
      List.pairwise_iff_getElem.2 fun g g' hg hg' hlt => ?_⟩
    · obtain ⟨g, hg, rfl⟩ := List.mem_iff_getElem.1 hph
      refine nodup_flatMap_elements fun i j hi hj e e' he he' hx => ?_
      rw [(hs.access g hg i hi).1] at he
      rw [(hs.access g hg j hj).1] at he'
      exact (decode g g hg hg i j hi hj e e' he he' hx).2
    · rw [Function.onFun, List.disjoint_left]
      intro x hx hx'
      obtain ⟨i, hi, e, he, rfl⟩ := mem_flatMap_elements.1 hx
      obtain ⟨j, hj, e', he', hx⟩ := mem_flatMap_elements.1 hx'
      rw [(hs.access g hg i hi).1] at he
      rw [(hs.access g' hg' j hj).1] at he'
      exact Nat.ne_of_lt hlt (decode g g' hg hg' i j hi hj e e' he he' hx.symm).1
  · obtain ⟨g, hg, lane, hl, e, he, rfl⟩ := mem_flatten_flatMap_elements.1 hx
    rw [(hs.access g hg lane hl).1] at he
    obtain ⟨hrow, hcol, -⟩ := htiled.element_spec (hs.lanes g hg ▸ hl) (hreg g hg e he)
    exact ⟨_, htile ▸ .cons hrow (.cons hcol .nil), hs.offset_element hf hd htile hle ho hg hl he⟩
  · -- An index of the shape is the element of its slot, in the group of its register.
    obtain ⟨idx, hidx, hx⟩ := hx
    rw [htile] at hidx
    obtain ⟨r, c, rfl⟩ := List.length_eq_two.1 (by simpa using hidx.length_eq)
    simp only [List.forall₂_cons, List.Forall₂.nil, and_true] at hidx
    obtain ⟨hlane, hreg', helem⟩ := htiled.slot_spec hidx.1 hidx.2
    generalize f.slot r c = slot at hlane hreg' helem
    obtain ⟨lane, reg⟩ := slot
    -- Register `reg` is element `reg % vector` of group `reg / vector`.
    have hg : reg / vector < phases.length :=
      Nat.div_lt_of_lt_mul (by rwa [Nat.mul_comm, hregs])
    have hl : lane < phases[reg / vector].length := (hs.lanes _ hg).symm ▸ hlane
    have he : reg % vector < vector := Nat.mod_lt _ hs.vector_pos
    have hat := hs.offset_element hf hd htile hle ho hg hl he
    rw [Nat.div_add_mod', helem, hx] at hat
    refine mem_flatten_flatMap_elements.2 ⟨_, hg, lane, hl, _, ?_,
      (Option.some.inj (Except.ok.inj hat)).symm⟩
    rw [(hs.access _ hg lane hl).1]
    exact he

end Site.FragmentRun

/-! ### Copies -/

/-- The first index of a region in iteration 0 is all zeros. -/
theorem Operand.origin_zero (o : Operand) (rank : Nat) :
    o.origin rank 0 = .ok (List.replicate rank 0) := by
  unfold Operand.origin
  rcases o.step with _ | w
  · rfl
  · by_cases hw : w.axis < rank
    · have hb : 0 < Word.u32.bound := by decide
      simp [hw, hb, Word.mul, Word.fit, pure, Except.pure, bind, Except.bind]
    · simp [hw, pure, Except.pure]

theorem zipWith_replicate_zero_add : ∀ {idx : List Nat} {n : Nat}, idx.length = n →
    List.zipWith (· + ·) (List.replicate n 0) idx = idx
  | [], _, rfl => rfl
  | i :: idx, _, rfl => by
    rw [List.length_cons, List.replicate_succ, List.zipWith_cons_cons, Nat.zero_add,
      zipWith_replicate_zero_add rfl]

/-- Setting an entry to at most itself keeps a list entrywise below the original. -/
theorem forall₂_set_le : ∀ {l : List Nat} {i x : Nat}, (∀ n, l[i]? = some n → x ≤ n) →
    List.Forall₂ (· ≤ ·) (l.set i x) l
  | [], _, _, _ => .nil
  | a :: l, 0, x, h => .cons (h a rfl) (List.forall₂_same.2 fun _ _ => Nat.le_refl _)
  | a :: l, i + 1, x, h => .cons (Nat.le_refl a) (forall₂_set_le (by simpa using h))

/-- An operand that passes the window checks has its tile within its buffer, when the buffer's
extents are positive. -/
theorem tileShape_le {k : Kernel} {op : TileOp} (hw : k.checkWindows op = .ok ()) {o : Operand}
    (ho : o ∈ op.operands) (hpos : ∀ n ∈ (k.buffer o.buffer).shape, 0 < n) :
    List.Forall₂ (· ≤ ·) (o.tileShape (k.buffer o.buffer).shape) (k.buffer o.buffer).shape := by
  have hc := forM_except_eq_ok_iff.1 hw o ho
  rcases hbf : k.tryBuffer o.buffer with e | bf
  · rw [hbf] at hc
    cases hc
  rw [hbf] at hc
  obtain ⟨-, rfl⟩ := tryBuffer_ok hbf
  simp only [bind, Except.bind] at hc
  unfold Operand.tileShape
  rcases hst : o.step with _ | w
  · exact List.forall₂_same.2 fun _ _ => Nat.le_refl _
  · rw [hst] at hc
    dsimp only at hc
    refine forall₂_set_le fun n hn => ?_
    -- The window tiles its axis: it is a positive divisor of the extent.
    rw [hn] at hc
    dsimp only at hc
    split at hc
    · rename_i hfits
      simp only [Bool.and_eq_true, decide_eq_true_eq, beq_iff_eq] at hfits
      exact Nat.le_of_dvd (hpos n (List.mem_of_getElem? hn)) (Nat.dvd_of_mod_eq_zero hfits.2)
    · cases hc

/-- **Copies cover their region once.** In a formed kernel, the access pattern of a live copy
against a buffer with a dense layout that fits covers the operand's region in iteration 0 once:
its offsets repeat none, and they are exactly the layout offsets of the origin plus an index of the
tile. A register fragment on the other side of the copy is swept whole, so it must pass validation
and have the tile's shape. -/
theorem copyPattern_covers_region_once {k : Kernel} {t : Target} {h : OpId} {b : BufferId}
    {d : DenseLayout} {o : Operand} {p : AccessPattern} (hF : k.Formed) (hlive : h ∈ k.liveOps)
    (hcopy : ∃ v m, (k.op h).kind = .copy v m)
    (hl : (k.buffer b).layout = some (.dense d)) (hd : d.Fits) (hs : d.shape = (k.buffer b).shape)
    (ho : operandOn (k.op h) b = some o)
    (hfrag : ∀ f, ((k.op h).operands.find? (·.buffer != b)).bind
        (fun o => (k.buffer o.buffer).layout) = some (.fragment f) →
      (Layout.fragment f).Addressable t ∧ o.tileShape (k.buffer b).shape = [f.shape.1, f.shape.2])
    (hp : (accessPattern k t h b).run = .ok (some p)) :
    ∃ origin, o.origin (k.buffer b).shape.length 0 = .ok origin ∧ p.covered.Nodup ∧
      ∀ x, x ∈ p.covered ↔ ∃ idx, List.Forall₂ (· < ·) idx (o.tileShape (k.buffer b).shape) ∧
        d.offset (List.zipWith (· + ·) origin idx) = .ok (some x) := by
  obtain ⟨v, m, hk⟩ := hcopy
  refine ⟨_, Operand.origin_zero o _, ?_⟩
  have hmem : o ∈ (k.op h).operands := List.mem_of_find?_eq_some ho
  have hbuf : o.buffer = b := by simpa using List.find?_some ho
  have hw := Kernel.checkWindows_of_checkOperands
    (hF.operandsChecked h (hF.placedExist h (hF.liveOps_eq ▸ hlive)))
  have hle := hbuf ▸ tileShape_le hw hmem (hbuf ▸ hs ▸ hd.pos)
  -- A copy gathers no atoms, so its pattern is a fragment sweep or a cooperative one.
  unfold accessPattern at hp
  simp only [hl, Layout.asDense?, ho, hk] at hp
  obtain ⟨origin, horigin, hp⟩ := OptionT.run_bind_eq_some hp
  obtain ⟨g, hg, hp⟩ := OptionT.run_bind_eq_some hp
  obtain rfl : g = none := (Option.some.inj (Except.ok.inj hg)).symm
  obtain rfl : origin = List.replicate (k.buffer b).shape.length 0 :=
    Except.ok.inj ((OptionT.run_liftM_eq_some horigin).symm.trans (Operand.origin_zero o _))
  -- The site's region is the tile's indices from the zero origin.
  have hrank : (o.tileShape (k.buffer b).shape).length = (k.buffer b).shape.length := hle.length_eq
  have hle' : List.Forall₂ (· ≤ ·) (o.tileShape (k.buffer b).shape) d.shape := hs ▸ hle
  have hregion : ∀ x, (∃ idx, List.Forall₂ (· < ·) idx (o.tileShape (k.buffer b).shape) ∧
      d.offset idx = .ok (some x)) ↔
        ∃ idx, List.Forall₂ (· < ·) idx (o.tileShape (k.buffer b).shape) ∧
          d.offset (List.zipWith (· + ·) (List.replicate (k.buffer b).shape.length 0) idx) =
            .ok (some x) := fun x =>
    exists_congr fun idx => and_congr_right fun hidx => by
      rw [zipWith_replicate_zero_add (hidx.length_eq.trans hrank)]
  split at hp
  · rename_i heq
    cases heq
  · rename_i f _ hpartner
    obtain ⟨hf, htile⟩ := hfrag f hpartner
    obtain ⟨hnd, hmem⟩ := (fragmentSweep_spec hp).covers hf hd htile hle' (by rw [hrank])
    exact ⟨hnd, fun x => (hmem x).trans (hregion x)⟩
  · obtain ⟨axis, vector, sweep, accesses, hsw, hflat⟩ := cooperativeSweep_spec hp
    obtain ⟨hnd, hmem⟩ := hsw.covers hd hle' (by rw [hrank])
    rw [AccessPattern.covered, hflat]
    exact ⟨hnd, fun x => (hmem x).trans (hregion x)⟩

set_option maxRecDepth 10000 in
/-- The window load of `windowLoad` covers the 64 × 32 window of its source once. -/
theorem windowLoad_source_covered :
    ∃ p, (accessPattern windowLoad Target.sm80 ⟨0⟩ ⟨0⟩).run = .ok (some p) ∧
      ∃ origin, (Operand.stepped ⟨0⟩ 1 32).origin 2 0 = .ok origin ∧ p.covered.Nodup ∧
        ∀ x, x ∈ p.covered ↔ ∃ idx,
          List.Forall₂ (· < ·) idx ((Operand.stepped ⟨0⟩ 1 32).tileShape [64, 128]) ∧
            (DenseLayout.rowMajor [64, 128]).offset (List.zipWith (· + ·) origin idx) =
              .ok (some x) := by
  obtain ⟨p, hp⟩ : ∃ p, (accessPattern windowLoad Target.sm80 ⟨0⟩ ⟨0⟩).run = .ok (some p) :=
    ⟨_, by with_unfolding_all rfl⟩
  exact ⟨p, hp, copyPattern_covers_region_once windowLoad_built.formed (by decide)
    ⟨none, false, rfl⟩ rfl ⟨List.Perm.refl _, by decide, by decide⟩ rfl rfl
    (fun f hf => by cases hf) hp⟩

/-- A register strip stored into a window of a shared buffer: both operands are the left half of
their buffers. -/
def windowStore : Kernel where
  name := "c"
  buffers := #[
    { name := "f", shape := [16, 32], dtype := .f32, scope := .fragment,
      layout := some (.fragment ⟨.strip 4, (16, 32), (4, 32), 32⟩) },
    { name := "s", shape := [16, 32], dtype := .f32, scope := .shared,
      layout := some (.dense (DenseLayout.rowMajor [16, 32])) }]
  ops := #[TileOp.copy "store" (.stepped ⟨0⟩ 1 16) (.stepped ⟨1⟩ 1 16)]
  body := [.op ⟨0⟩]

theorem windowStore_built : windowStore.Built :=
  ⟨"c", .head (Kernel.Call.addBuffer
      (b := { name := "f", shape := [16, 32], dtype := .f32, scope := .fragment })
      (by with_unfolding_all rfl)) <|
    .head (Kernel.Call.addBuffer
      (b := { name := "s", shape := [16, 32], dtype := .f32, scope := .shared })
      (by with_unfolding_all rfl)) <|
    .head (Kernel.Call.attachLayout (b := ⟨0⟩) (l := .fragment ⟨.strip 4, (16, 32), (4, 32), 32⟩)
      (by with_unfolding_all rfl)) <|
    .head (Kernel.Call.attachLayout (b := ⟨1⟩) (l := .dense (DenseLayout.rowMajor [16, 32]))
      (by with_unfolding_all rfl)) <|
    .head (Kernel.Call.addOp (o := TileOp.copy "store" (.stepped ⟨0⟩ 1 16) (.stepped ⟨1⟩ 1 16))
      (by with_unfolding_all rfl)) <|
    .single (Kernel.Call.push (h := ⟨0⟩) (by with_unfolding_all rfl))⟩

set_option maxRecDepth 10000 in
/-- The store's pattern on the shared buffer sweeps the whole fragment, so it covers offset 16, the
first element right of the window, which no index of the window reaches. -/
theorem windowStore_covers_outside_window : windowStore.Formed ∧ ⟨0⟩ ∈ windowStore.liveOps ∧
    ∃ p, (accessPattern windowStore Target.sm80 ⟨0⟩ ⟨1⟩).run = .ok (some p) ∧
      ∃ origin, (Operand.stepped ⟨1⟩ 1 16).origin 2 0 = .ok origin ∧ 16 ∈ p.covered ∧
        ¬ ∃ idx, List.Forall₂ (· < ·) idx ((Operand.stepped ⟨1⟩ 1 16).tileShape [16, 32]) ∧
          (DenseLayout.rowMajor [16, 32]).offset (List.zipWith (· + ·) origin idx) =
            .ok (some 16) := by
  refine ⟨windowStore_built.formed, by decide, _, by with_unfolding_all rfl, _,
    Operand.origin_zero _ _, by with_unfolding_all decide, ?_⟩
  rintro ⟨idx, hidx, hoff⟩
  -- An index of the window has a column below 16, and its row-major offset is `32 r + c`.
  have hfits : (DenseLayout.rowMajor [16, 32]).Fits := ⟨List.Perm.refl _, by decide, by decide⟩
  obtain ⟨r, c, rfl⟩ := List.length_eq_two.1
    (by simpa [Operand.tileShape, Operand.stepped] using hidx.length_eq)
  simp only [Operand.tileShape, Operand.stepped, List.set, List.forall₂_cons,
    List.Forall₂.nil, and_true] at hidx
  rw [zipWith_replicate_zero_add (n := 2) rfl, hfits.offset_eq,
    if_pos (.cons (Nat.lt_of_lt_of_le hidx.1 (by decide))
      (.cons (Nat.lt_of_lt_of_le hidx.2 (by decide)) .nil))]
    at hoff
  have henc : DenseLayout.encode [16, 32] [r, c] [0, 1] = 16 := Option.some.inj (Except.ok.inj hoff)
  simp [DenseLayout.encode, DenseLayout.span] at henc
  omega

end TileKernel
