import ActQuant.KvCache.SlotSearch

namespace ActQuant.KvCache.Cache
open ActQuant.Lib ActQuant.Batch

/-! The operations keep the heads in their streams. -/

/-- All streams have so many cells, and the heads are at one of them or behind the last. -/
structure Fits (n : Nat) (k : Cache) : Prop where
  size : ∀ t, (k.cells t).size = n
  head : ∀ t, k.head t ≤ n

namespace Fits
variable {p : Params} {k k' : Cache}

theorem headsFit (hk : Fits n k) : HeadsFit k := fun t => (hk.size t).symm ▸ hk.head t

theorem create (n : Nat) : Fits n (create n) := ⟨fun _ => rfl, fun _ => Nat.zero_le n⟩

theorem setStream {d : Cells} (hk : Fits n k) (hd : d.size = n) (hh : h ≤ n) (t : Nat) :
    Fits n (k.setStream t d h) := by
  constructor
  · intro t'
    rw [Cache.setStream]
    dsimp only
    by_cases ht : t' = t
    · subst ht
      rwa [Function.update_self]
    · rw [Function.update_of_ne ht]
      exact hk.size t'
  · intro t'
    rw [Cache.setStream]
    dsimp only
    by_cases ht : t' = t
    · subst ht
      rwa [Function.update_self]
    · rw [Function.update_of_ne ht]
      exact hk.head t'

/-- A pass keeps the size, and the head that it proposes is within. -/
theorem sweep_size {turn : Cells → Nat → Option (Cells × Bool)} {c d : Cells}
    (hturn : ∀ {c i d b}, turn c i = some (d, b) → d.size = c.size)
    (h : c.sweep turn = some (d, m)) : d.size = c.size ∧ m ≤ c.size := by
  refine sweep_invariant (I := fun st : Cells × Nat => st.1.size = c.size ∧ st.2 ≤ c.size) ?_
    ⟨rfl, le_rfl⟩ h
  rintro ⟨e, m⟩ i st' hi ⟨hsize, hm⟩ h
  obtain ⟨⟨e', b⟩, hr, rfl⟩ := Option.map_eq_some_iff.1 h
  refine ⟨(hturn hr).trans hsize, ?_⟩
  dsimp only
  split_ifs
  · exact (List.mem_range.1 hi).le
  · exact hm

theorem lowerHead {d : Cells} (hk : Fits n k) (hd : d.size = n) (hm : m ≤ n) (t : Nat) :
    Fits n (k.lowerHead t d m) := by
  rw [Cache.lowerHead]
  apply hk.setStream hd
  split_ifs
  · exact hm
  · exact hk.head t

theorem clear (hk : Fits n k) (p : Params) : Fits n (k.clear p) := by
  constructor
  · intro t
    rw [Cache.clear]
    dsimp only
    split_ifs
    · exact hk.size t
    · exact hk.size t
  · intro t
    rw [Cache.clear]
    dsimp only
    split_ifs
    · exact Nat.zero_le n
    · exact hk.head t

theorem update (hk : Fits n k) (p : Params) (doShift : Bool) : Fits n (k.update p doShift) := by
  refine ⟨fun t => ?_, hk.head⟩
  rw [Cache.update]
  dsimp only
  split_ifs
  · exact hk.size t
  · exact hk.size t

theorem seqRm (hk : Fits n k) (h : k.seqRm p s p₀ p₁ = some k') : Fits n k' := by
  rw [Cache.seqRm, Option.ite_none_right_eq_some] at h
  obtain ⟨_, h⟩ := h
  split at h
  · obtain ⟨⟨d, m⟩, hd, h⟩ := Option.bind_eq_some_iff.1 h
    cases h
    obtain ⟨hsize, hm⟩ := sweep_size (fun h => (seqRmTurn_replaced h).size) hd
    rw [hk.size] at hsize hm
    exact hk.lowerHead hsize hm _
  · refine sweep_invariant (I := Fits n) ?_ hk h
    intro k t k' _ hk h
    obtain ⟨⟨d, m⟩, hd, h⟩ := Option.bind_eq_some_iff.1 h
    cases h
    obtain ⟨hsize, hm⟩ := sweep_size (fun h => (rmTurn_replaced h).size) hd
    rw [hk.size] at hsize hm
    exact hk.lowerHead hsize hm _

theorem seqKeep (hk : Fits n k) (h : k.seqKeep p s = some k') : Fits n k' := by
  rw [Cache.seqKeep, Option.ite_none_right_eq_some] at h
  obtain ⟨_, h⟩ := h
  obtain ⟨⟨d, m⟩, hd, h⟩ := Option.bind_eq_some_iff.1 h
  cases h
  obtain ⟨hsize, hm⟩ := sweep_size (fun h => (keepTurn_replaced h).size) hd
  rw [hk.size] at hsize hm
  exact hk.lowerHead hsize hm _

theorem seqAdd (hk : Fits n k) (h : k.seqAdd p s p₀ p₁ d = some k') : Fits n k' := by
  rw [Cache.seqAdd, Option.ite_none_right_eq_some] at h
  obtain ⟨_, h⟩ := h
  split at h
  · cases h
    exact hk
  · obtain ⟨⟨e, m⟩, he, h⟩ := Option.bind_eq_some_iff.1 h
    cases h
    obtain ⟨hsize, hm⟩ := sweep_size (fun h => (addTurn_replaced h).size) he
    rw [hk.size] at hsize hm
    apply hk.setStream hsize
    split_ifs
    · exact hm
    · exact Nat.zero_le n

theorem seqDiv (hk : Fits n k) (h : k.seqDiv p s p₀ p₁ d = some k') : Fits n k' := by
  rw [Cache.seqDiv, Option.ite_none_right_eq_some] at h
  obtain ⟨_, h⟩ := h
  split at h
  · cases h
    exact hk
  · obtain ⟨⟨e, m⟩, he, h⟩ := Option.bind_eq_some_iff.1 h
    cases h
    obtain ⟨hsize, _⟩ := sweep_size (fun h => (divTurn_replaced h).size) he
    rw [hk.size] at hsize
    exact hk.setStream hsize (hk.head _) _

/-- A copy between streams takes the head along. -/
theorem seqCp (hk : Fits n k) (h : k.seqCp p src dst p₀ p₁ = some k') : Fits n k' := by
  rw [Cache.seqCp, Option.ite_none_right_eq_some] at h
  obtain ⟨_, h⟩ := h
  dsimp only at h
  split at h
  · split at h
    · cases h
      exact hk
    · obtain ⟨⟨e, m⟩, he, h⟩ := Option.bind_eq_some_iff.1 h
      cases h
      obtain ⟨hsize, _⟩ := sweep_size (fun h => (cpTurn_replaced h).size) he
      rw [hk.size] at hsize
      exact hk.setStream hsize (hk.head _) _
  · rw [Option.ite_none_right_eq_some] at h
    obtain ⟨_, h⟩ := h
    obtain ⟨e, he, h⟩ := Option.bind_eq_some_iff.1 h
    cases h
    have hreset : (k.cells (p.stream dst.toNat)).reset.size = n := hk.size _
    have hsize : e.size = n := by
      refine sweep_invariant (I := fun c : Cells => c.size = n) ?_ hreset he
      exact fun _ hc h => (copyCell_replaced h).1.size.trans hc
    have hset := hk.setStream hsize (hk.head (p.stream src.toNat)) (p.stream dst.toNat)
    exact ⟨hset.size, hset.head⟩

theorem purge (hk : Fits n k) (h : purge p m k s = some k') : Fits n k' := by
  rw [Cache.purge] at h
  split at h
  · cases h
    exact hk
  · rw [Option.ite_none_right_eq_some] at h
    obtain ⟨_, h⟩ := h
    split at h
    · exact hk.seqRm h
    · cases h
      exact hk

theorem placeToken (hk : Fits n st.1) (h : placeToken st x = some st') : Fits n st'.1 := by
  obtain ⟨k, m⟩ := st
  obtain ⟨⟨t, i⟩, tok⟩ := x
  rw [Cache.placeToken, Option.ite_none_left_eq_some] at h
  replace h := h.2
  dsimp only at h hk
  split at h
  · obtain ⟨c, hc, rfl⟩ := Option.map_eq_some_iff.1 h
    have hsize := (writeToken_replaced hc).1.size
    rw [hk.size] at hsize
    exact hk.setStream hsize (hk.head t) t
  · rw [Option.ite_none_right_eq_some] at h
    obtain ⟨_, h⟩ := h
    obtain ⟨c, hc, rfl⟩ := Option.map_eq_some_iff.1 h
    obtain ⟨d, hd, hc⟩ := Option.bind_eq_some_iff.1 hc
    have hsize := (writeToken_replaced hc).1.size.trans (Cells.rm_replaced hd).size
    rw [hk.size] at hsize
    exact hk.setStream hsize (hk.head t) t

/-- The head moves behind a cell of the slot. -/
theorem applyUbatch (hk : Fits n k) (hr : ∀ x ∈ r.places, x.2 < n)
    (h : k.applyUbatch p r u = some k') : Fits n k' := by
  obtain ⟨k₁, m, k₂, h₁, h₂, h₃⟩ := applyUbatch_eq_some.1 h
  rw [placeTokens, Option.ite_none_right_eq_some] at h₁
  have hk₁ : Fits n k₁ :=
    sweep_invariant (I := fun st : Cache × (Nat → Int) => Fits n st.1)
      (fun _ hI hst => hI.placeToken hst) hk h₁.2
  have hk₂ : Fits n k₂ := sweep_invariant (I := Fits n) (fun _ hI hst => hI.purge hst) hk₁ h₂
  refine sweep_invariant (I := Fits n) ?_ hk₂ h₃
  intro e x e' hx he h
  obtain ⟨i, hi, rfl⟩ := Option.map_eq_some_iff.1 h
  refine ⟨he.size, fun t => ?_⟩
  dsimp only
  by_cases ht : t = x.1
  · rw [ht, Function.update_self]
    exact hr (x.1, i) (mem_places.2 ⟨x, hx, rfl, List.mem_of_getLast? hi⟩)
  · rw [Function.update_of_ne ht]
    exact he.head t

end Fits

end ActQuant.KvCache.Cache
