import ActQuant.Recurrent.Usable

namespace ActQuant.Recurrent
open ActQuant.Batch ActQuant.Lib

namespace Memory

variable {σ : Type} {load : Option Nat → σ} {need : Nat → σ} {u : Ubatch}

/-! ### Swaps -/

theorem exchange_tailsAt (m : Memory) (a b i : Nat) :
    (m.exchange a b).tailsAt i = m.tailsAt (Equiv.swap a b i) := by
  rw [tailsAt, tailsAt, exchange, fibre_map, Equiv.symm_swap]

theorem exchange_seqId (m : Memory) (a b i : Nat) :
    ((m.exchange a b).cell i).seqId = (m.cell (Equiv.swap a b i)).seqId := rfl

theorem exchange_pos (m : Memory) (a b i : Nat) :
    ((m.exchange a b).cell i).pos = (m.cell (Equiv.swap a b i)).pos := rfl

theorem exchange_src (m : Memory) (a b i : Nat) :
    ((m.exchange a b).cell i).src = (m.cell (Equiv.swap a b i)).src := rfl

theorem exchange_tail (m : Memory) (a b s : Nat) :
    (m.exchange a b).tail s = (m.tail s).map (Equiv.swap a b) := rfl

/-- A swap of two cells in the range. -/
theorem swap_cases (a b i : Nat) :
    (Equiv.swap a b i = i ∧ i ≠ a ∧ i ≠ b) ∨ (Equiv.swap a b i = b ∧ i = a) ∨
      (Equiv.swap a b i = a ∧ i = b) := by
  by_cases ha : i = a
  · exact .inr (.inl ⟨by rw [ha, Equiv.swap_apply_left], ha⟩)
  · by_cases hb : i = b
    · exact .inr (.inr ⟨by rw [hb, Equiv.swap_apply_right], hb⟩)
    · exact .inl ⟨Equiv.swap_apply_of_ne_of_ne ha hb, ha, hb⟩

theorem Loose.exchange {m : Memory} (h : Loose load need c lo hi m) (ha : a < m.size)
    (hb : b < m.size) (hra : lo ≤ a ∧ a ≤ hi) (hrb : lo ≤ b ∧ b ≤ hi) :
    Loose load need c lo hi (m.exchange a b) := by
  have hlt : ∀ i < m.size, Equiv.swap a b i < m.size := by
    intro i hi
    rcases swap_cases a b i with ⟨he, -⟩ | ⟨he, -⟩ | ⟨he, -⟩ <;> rw [he] <;> assumption
  refine ⟨fun s hs i hi => ?_, fun i hi => ?_, fun i hi => ?_, fun i hi => ?_, fun i hi j hj => ?_,
    fun i hi s hs => ?_, fun i hi he => ?_⟩
  · rw [exchange_tail, Option.map_eq_some_iff] at hi
    obtain ⟨j, hj, rfl⟩ := hi
    exact hlt j (h.tails s hs j hj)
  · rw [exchange_tailsAt]
    exact h.sets _ (hlt i hi)
  · exact h.vacant _ (hlt i hi)
  · exact h.kept _ (hlt i hi)
  · obtain ⟨hjn, hown⟩ := h.src _ (hlt i hi) j hj
    refine ⟨hjn, ?_⟩
    rcases swap_cases a b i with ⟨he, -⟩ | ⟨-, rfl⟩ | ⟨-, rfl⟩
    · rwa [he] at hown
    · exact .inr hra
    · exact .inr hrb
  · rw [exchange_tailsAt] at hs
    exact h.loaded _ (hlt i hi) s hs
  · rw [exchange_tailsAt] at he
    exact h.fresh _ (hlt i hi) he

/-- The first `k` owners have the first cells of the range, and all of them have cells in it. -/
structure Gathered (load : Option Nat → σ) (need : Nat → σ) (u : Ubatch) (m : Memory)
    (lo hi k : Nat) (g : Memory) : Prop where
  size : g.size = m.size
  loose : Loose load need (OwnerBelow u u.nSeqs) lo hi g
  claimed : ∀ j < u.nSeqs, ∃ i, g.tail (owner u j) = some i ∧ g.tailsAt i = {owner u j} ∧
    lo ≤ i ∧ i ≤ hi
  placed : ∀ j < k, g.tail (owner u j) = some (j + lo)
  absent : ∀ s, ¬ OwnerBelow u u.nSeqs s → (g.tail s = none ↔ m.tail s = none)
  max : hi < m.size

theorem Claimed.gathered {m : Memory} {r : Range} (h : Claimed load need u m u.nSeqs r) :
    Gathered load need u m r.min r.max 0 r.mem :=
  ⟨h.size, h.loose, h.claimed, fun _ hj => (Nat.not_lt_zero _ hj).elim,
    fun s hs => by rw [h.others s hs], h.max⟩

/-- The owners have different cells, so that the range is wide enough for all. -/
theorem Gathered.wide {m g : Memory} (h : Gathered load need u m lo hi k g) (hu : Splits u) :
    u.nSeqs + lo ≤ hi + 1 := by
  choose! f hf using h.claimed
  have hinj : Set.InjOn f (Finset.range u.nSeqs : Set Nat) := by
    intro i hi j hj he
    have hi' := List.mem_range.1 (by simpa using hi)
    have hj' := List.mem_range.1 (by simpa using hj)
    by_contra hne
    refine hu.owner_ne hi' hj' hne ?_
    have hi₂ := (hf i hi').2.1
    rw [he, (hf j hj').2.1] at hi₂
    exact (Finset.singleton_injective hi₂).symm
  have hmaps : ∀ j ∈ Finset.range u.nSeqs, f j ∈ Finset.Icc lo hi := by
    intro j hj
    obtain ⟨-, -, hlo, hhi⟩ := hf j (Finset.mem_range.1 hj)
    exact Finset.mem_Icc.2 ⟨hlo, hhi⟩
  have hcard := Finset.card_le_card_of_injOn f hmaps hinj
  rw [Finset.card_range, Nat.card_Icc] at hcard
  obtain ⟨-, -, hlo, hhi⟩ := hf 0 hu.some
  omega

theorem Gathered.step {m g : Memory} (h : Gathered load need u m lo hi k g) (hu : Splits u)
    (hk : k < u.nSeqs) :
    ∃ g', gatherTurn u lo g k = some g' ∧ Gathered load need u m lo hi (k + 1) g' := by
  obtain ⟨src, hsrc, htails, hlo, hhi⟩ := h.claimed k hk
  have hwide := h.wide hu
  have hdn : k + lo < g.size := by
    have := h.max
    rw [h.size]
    omega
  have hsn : src < g.size := by
    have := h.max
    rw [h.size]
    omega
  refine ⟨_, congrArg (Option.map _) hsrc, ?_⟩
  dsimp only
  by_cases he : k + lo = src
  · rw [if_neg (not_not.2 he)]
    refine ⟨h.size, h.loose, h.claimed, fun j hj => ?_, h.absent, h.max⟩
    rcases Nat.lt_succ_iff_lt_or_eq.1 hj with hj | rfl
    · exact h.placed j hj
    · rw [hsrc, he]
  · rw [if_pos he]
    refine ⟨h.size, h.loose.exchange hdn hsn ⟨by omega, by omega⟩ ⟨hlo, hhi⟩, fun j hj => ?_,
      fun j hj => ?_, fun s hs => ?_, h.max⟩
    · obtain ⟨i, hi, hti, hloi, hhii⟩ := h.claimed j hj
      refine ⟨Equiv.swap (k + lo) src i, ?_, ?_, ?_⟩
      · rw [exchange_tail, hi]
        rfl
      · rw [exchange_tailsAt, Equiv.swap_apply_self]
        exact hti
      · rcases swap_cases (k + lo) src i with ⟨hs, -⟩ | ⟨hs, -⟩ | ⟨hs, -⟩ <;> rw [hs] <;> omega
    · rw [exchange_tail]
      rcases Nat.lt_succ_iff_lt_or_eq.1 hj with hj | rfl
      · have hne : j + lo ≠ src := by
          rintro rfl
          have hmem : owner u j ∈ g.tailsAt (j + lo) := by
            obtain ⟨i, hi, hti, -⟩ := h.claimed j (Nat.lt_trans hj hk)
            rw [h.placed j hj] at hi
            cases hi
            rw [hti]
            exact Finset.mem_singleton_self _
          rw [htails] at hmem
          exact hu.owner_ne (Nat.lt_trans hj hk) hk (Nat.ne_of_lt hj) (Finset.mem_singleton.1 hmem)
        rw [h.placed j hj, Option.map_some, Equiv.swap_apply_of_ne_of_ne (by omega) hne]
      · rw [hsrc, Option.map_some, Equiv.swap_apply_right]
    · rw [exchange_tail, Option.map_eq_none_iff]
      exact h.absent s hs

theorem PosFrom.exchange {m g : Memory} (hp : PosFrom m g) (ha : a < m.size) (hb : b < m.size) :
    PosFrom m (g.exchange a b) := by
  intro i hi hne j hj
  rw [exchange_seqId] at hne
  rw [exchange_src] at hj
  rw [exchange_pos]
  rcases swap_cases a b i with ⟨he, -⟩ | ⟨he, -⟩ | ⟨he, -⟩
  · rw [he] at hne hj ⊢
    exact hp i hi hne j hj
  · rw [he] at hne hj ⊢
    exact hp b hb hne j hj
  · rw [he] at hne hj ⊢
    exact hp a ha hne j hj

theorem Gathered.posFrom {m g g' : Memory} (h : Gathered load need u m lo hi k g) (hu : Splits u)
    (hk : k < u.nSeqs) (hp : PosFrom m g) (ht : gatherTurn u lo g k = some g') :
    PosFrom m g' := by
  obtain ⟨src, hsrc, -, hlo, hhi⟩ := h.claimed k hk
  have hwide := h.wide hu
  have hmax := h.max
  rw [gatherTurn, hsrc] at ht
  cases ht
  dsimp only
  split_ifs
  · exact hp.exchange (by omega) (by omega)
  · exact hp

theorem Gathered.run_posFrom {m g : Memory} (h : Gathered load need u m lo hi 0 g) (hu : Splits u)
    (hp : PosFrom m g) :
    ∃ g', (List.range u.nSeqs).foldlM (gatherTurn u lo) g = some g' ∧
      Gathered load need u m lo hi u.nSeqs g' ∧ PosFrom m g' := by
  apply sweep_range (I := fun k g => Gathered load need u m lo hi k g ∧ PosFrom m g) ⟨h, hp⟩
  rintro k g hk ⟨hg, hp⟩
  obtain ⟨g', hg', hgathered⟩ := hg.step hu hk
  exact ⟨g', hg', hgathered, hg.posFrom hu hk hp hg'⟩

/-! ### The sets in their cells -/

theorem setTails_foldl (l : List Nat) (m : Memory) (t : Option Nat) :
    (l.foldl (fun m s => m.setTail s t) m).cell = m.cell ∧
      (l.foldl (fun m s => m.setTail s t) m).size = m.size ∧
      ∀ s, (l.foldl (fun m s => m.setTail s t) m).tail s = if s ∈ l then t else m.tail s := by
  induction l generalizing m with
  | nil => exact ⟨rfl, rfl, fun s => (if_neg (List.not_mem_nil)).symm⟩
  | cons a l ih =>
    obtain ⟨hcell, hsize, htail⟩ := ih (m.setTail a t)
    refine ⟨hcell, hsize, fun s => (htail s).trans ?_⟩
    rw [setTail_tail, Function.update_apply]
    by_cases hs : s ∈ l
    · rw [if_pos hs, if_pos (List.mem_cons_of_mem _ hs)]
    · rw [if_neg hs]
      exact if_congr (by simp [hs]) rfl rfl

/-- The memory after the first `k` sets were put into their cells. -/
structure SetsPlaced (u : Ubatch) (lo k : Nat) (g p : Memory) : Prop where
  size : p.size = g.size
  src : ∀ i, (p.cell i).src = (g.cell i).src
  done : ∀ j < k, (p.cell (j + lo)).seqId = (seqsOf u j).toFinset ∧
    (p.cell (j + lo)).pos = lastPos u j
  other : ∀ i, (∀ j < k, i ≠ j + lo) → p.cell i = g.cell i
  tail : ∀ j < k, ∀ s ∈ seqsOf u j, p.tail s = some (j + lo)
  tail_other : ∀ s, (∀ j < k, s ∉ seqsOf u j) → p.tail s = g.tail s

theorem setsPlaced (hu : Splits u) (g : Memory) (lo : Nat) (hk : k ≤ u.nSeqs) :
    SetsPlaced u lo k g ((List.range k).foldl (placeTurn u lo) g) := by
  induction k with
  | zero =>
    exact ⟨rfl, fun _ => rfl, fun _ hj => (Nat.not_lt_zero _ hj).elim, fun _ _ => rfl,
      fun _ hj => (Nat.not_lt_zero _ hj).elim, fun _ _ => rfl⟩
  | succ k ih =>
    have hp := ih (by omega)
    rw [List.range_succ, List.foldl_append, List.foldl_cons, List.foldl_nil]
    generalize (List.range k).foldl (placeTurn u lo) g = p at hp
    rw [placeTurn]
    obtain ⟨hcell, hsize, htail⟩ := setTails_foldl (seqsOf u k)
      (p.put (k + lo) { p.cell (k + lo) with
        pos := lastPos u k, seqId := (seqsOf u k).toFinset }) (some (k + lo))
    refine ⟨hsize.trans hp.size, fun i => ?_, fun j hj => ?_, fun i hi => ?_, fun j hj s hs => ?_,
      fun s hs => ?_⟩
    · rw [hcell, ← hp.src]
      by_cases hi : i = k + lo
      · rw [hi, put_self]
      · rw [put_other hi]
    · rw [hcell]
      rcases Nat.lt_succ_iff_lt_or_eq.1 hj with hj | rfl
      · rw [put_other (by omega)]
        exact hp.done j hj
      · rw [put_self]
        exact ⟨rfl, rfl⟩
    · rw [hcell, put_other (hi k (Nat.lt_succ_self k))]
      exact hp.other i fun j hj => hi j (Nat.lt_succ_of_lt hj)
    · rw [htail]
      rcases Nat.lt_succ_iff_lt_or_eq.1 hj with hj | rfl
      · rw [if_neg (hu.apart j (by omega) k hk (Nat.ne_of_lt hj) s hs)]
        exact hp.tail j hj s hs
      · rw [if_pos hs]
    · rw [htail, if_neg (hs k (Nat.lt_succ_self k))]
      exact hp.tail_other s fun j hj => hs j (Nat.lt_succ_of_lt hj)

end Memory

namespace Memory

variable {σ : Type} {load : Option Nat → σ} {need : Nat → σ} {u : Ubatch}

/-! ### Sets and tails agree again -/

/-- The cells of a range with the sets in the first of them, before the sources are staged. -/
structure Ready (load : Option Nat → σ) (need : Nat → σ) (u : Ubatch) (lo hi : Nat)
    (p : Memory) : Prop where
  tails : ∀ s < p.size, ∀ i, p.tail s = some i → i < p.size
  sets : ∀ i < p.size, (p.cell i).seqId = p.tailsAt i
  vacant : ∀ i < p.size, (p.cell i).seqId = ∅ → (p.cell i).pos = -1
  kept : ∀ i < p.size, (p.cell i).seqId ≠ ∅ → (p.cell i).src ≠ none ∨ lo ≤ i ∧ i ≤ hi
  src : ∀ i < p.size, ∀ j, (p.cell i).src = some j → j < p.size ∧ (j = i ∨ lo ≤ i ∧ i ≤ hi)
  slots : ∀ j < u.nSeqs, (p.cell (j + lo)).seqId = (seqsOf u j).toFinset ∧
    (p.cell (j + lo)).pos = lastPos u j ∧ load (p.cell (j + lo)).src = need (owner u j)
  others : ∀ i < p.size, (∀ j < u.nSeqs, i ≠ j + lo) → ∀ s ∈ (p.cell i).seqId,
    load (p.cell i).src = need s
  fresh : ∀ i < p.size, (p.cell i).seqId = ∅ → load (p.cell i).src = load none
  max : hi < p.size
  wide : u.nSeqs + lo ≤ hi + 1

/-- A sequence that is not the first of its set has no cell while the cells are arranged. -/
theorem Gathered.not_owner {m g : Memory} (h : Gathered load need u m lo hi k g) (hu : Splits u)
    (hlater : ∀ s, Later u s → m.tail s = none) (hj : j < u.nSeqs) (hs : s ∈ seqsOf u j)
    (hne : s ≠ owner u j) : g.tail s = none := by
  refine (h.absent s ?_).2 (hlater s ⟨j, hj, ?_⟩)
  · rintro ⟨j', hj', rfl⟩
    by_cases he : j' = j
    · exact hne (congrArg (owner u) he)
    · exact hu.apart j' hj' j hj he _ (hu.owner_mem hj') hs
  · rw [owner] at hne
    cases hl : seqsOf u j with
    | nil =>
      rw [hl] at hs
      exact (List.not_mem_nil hs).elim
    | cons a l =>
      rw [hl] at hs hne
      exact (List.mem_cons.1 hs).resolve_left hne

theorem Gathered.ready {m g p : Memory} (h : Gathered load need u m lo hi u.nSeqs g)
    (hu : Splits u) (hlater : ∀ s, Later u s → m.tail s = none)
    (hbelow : ∀ k < u.nSeqs, ∀ s ∈ seqsOf u k, s < m.size)
    (hp : SetsPlaced u lo u.nSeqs g p) : Ready load need u lo hi p := by
  have hsize : p.size = m.size := hp.size.trans h.size
  have hwide := h.wide hu
  have hmax := h.max
  have hslot : ∀ j < u.nSeqs, g.tailsAt (j + lo) = {owner u j} := by
    intro j hj
    obtain ⟨i, hi, hti, -⟩ := h.claimed j hj
    rw [h.placed j hj] at hi
    cases hi
    exact hti
  have htail : ∀ j < u.nSeqs, ∀ s ∈ seqsOf u j, ∀ i, g.tail s = some i → i = j + lo := by
    intro j hj s hs i hi
    by_cases he : s = owner u j
    · rw [he, h.placed j hj] at hi
      exact (Option.some.inj hi).symm
    · rw [h.not_owner hu hlater hj hs he] at hi
      cases hi
  have hself : ∀ j < u.nSeqs, p.tailsAt (j + lo) = (seqsOf u j).toFinset := by
    intro j hj
    ext s
    rw [mem_tailsAt, List.mem_toFinset, hsize]
    constructor
    · rintro ⟨hsn, hs⟩
      by_contra hout
      by_cases hin : ∃ j' < u.nSeqs, s ∈ seqsOf u j'
      · obtain ⟨j', hj', hs'⟩ := hin
        rw [hp.tail j' hj' s hs'] at hs
        have he : j' = j := Nat.add_right_cancel (Option.some.inj hs)
        exact hout (he ▸ hs')
      · rw [hp.tail_other s fun j' hj' hs' => hin ⟨j', hj', hs'⟩] at hs
        have hmem : s ∈ g.tailsAt (j + lo) := mem_tailsAt.2 ⟨h.size.symm ▸ hsn, hs⟩
        rw [hslot j hj] at hmem
        exact hout (Finset.mem_singleton.1 hmem ▸ hu.owner_mem hj)
    · exact fun hs => ⟨hbelow j hj s hs, hp.tail j hj s hs⟩
  have hother : ∀ i, (∀ j < u.nSeqs, i ≠ j + lo) → p.tailsAt i = g.tailsAt i := by
    intro i hi
    ext s
    rw [mem_tailsAt, mem_tailsAt, hp.size]
    refine and_congr_right fun _ => ?_
    by_cases hin : ∃ j < u.nSeqs, s ∈ seqsOf u j
    · obtain ⟨j, hj, hs⟩ := hin
      rw [hp.tail j hj s hs]
      refine iff_of_false (fun he => hi j hj (Option.some.inj he).symm) fun he => hi j hj ?_
      exact htail j hj s hs i he
    · rw [hp.tail_other s fun j hj hs => hin ⟨j, hj, hs⟩]
  have hsets : ∀ i < m.size, (∀ j < u.nSeqs, i ≠ j + lo) → (g.cell i).seqId = g.tailsAt i := by
    intro i hi hno
    rcases h.loose.sets i (h.size.symm ▸ hi) with he | ⟨-, s, ⟨j, hj, rfl⟩, he⟩
    · exact he
    · have hmem : owner u j ∈ g.tailsAt i := he ▸ Finset.mem_singleton_self _
      exact (hno j hj (htail j hj _ (hu.owner_mem hj) i (mem_tailsAt.1 hmem).2)).elim
  -- a cell is the slot of some set, or it is as it was gathered
  have hcases : ∀ i, (∃ j < u.nSeqs, i = j + lo) ∨ ∀ j < u.nSeqs, i ≠ j + lo := by
    intro i
    by_cases hin : ∃ j < u.nSeqs, i = j + lo
    · exact .inl hin
    · exact .inr fun j hj he => hin ⟨j, hj, he⟩
  have hnonempty : ∀ j < u.nSeqs, (p.cell (j + lo)).seqId ≠ ∅ := by
    intro j hj
    rw [(hp.done j hj).1]
    exact Finset.ne_empty_of_mem (List.mem_toFinset.2 (hu.owner_mem hj))
  constructor
  case tails =>
    intro s hs i hi
    rw [hsize] at hs ⊢
    by_cases hin : ∃ j < u.nSeqs, s ∈ seqsOf u j
    · obtain ⟨j, hj, hsj⟩ := hin
      rw [hp.tail j hj s hsj] at hi
      cases hi
      omega
    · rw [hp.tail_other s fun j hj hsj => hin ⟨j, hj, hsj⟩] at hi
      exact h.size ▸ h.loose.tails s (h.size.symm ▸ hs) i hi
  case sets =>
    intro i hi
    rw [hsize] at hi
    rcases hcases i with ⟨j, hj, rfl⟩ | hno
    · rw [(hp.done j hj).1, hself j hj]
    · rw [hp.other i hno, hother i hno, hsets i hi hno]
  case vacant =>
    intro i hi he
    rcases hcases i with ⟨j, hj, rfl⟩ | hno
    · exact (hnonempty j hj he).elim
    · rw [hp.other i hno] at he ⊢
      exact h.loose.vacant i (hp.size ▸ hi) he
  case kept =>
    intro i hi hne
    rcases hcases i with ⟨j, hj, rfl⟩ | hno
    · exact .inr ⟨by omega, by omega⟩
    · rw [hp.other i hno] at hne ⊢
      exact .inl (h.loose.kept i (hp.size ▸ hi) hne)
  case src =>
    intro i hi j hj
    rw [hp.src] at hj
    rw [hp.size] at hi ⊢
    exact h.loose.src i hi j hj
  case slots =>
    intro j hj
    refine ⟨(hp.done j hj).1, (hp.done j hj).2, ?_⟩
    rw [hp.src]
    refine h.loose.loaded _ ?_ _ ?_
    · rw [h.size]
      omega
    · rw [hslot j hj]
      exact Finset.mem_singleton_self _
  case others =>
    intro i hi hno s hs
    rw [hsize] at hi
    rw [hp.other i hno, hsets i hi hno] at hs
    rw [hp.src]
    exact h.loose.loaded i (h.size.symm ▸ hi) s hs
  case fresh =>
    intro i hi he
    rcases hcases i with ⟨j, hj, rfl⟩ | hno
    · exact (hnonempty j hj he).elim
    · rw [hsize] at hi
      rw [hp.other i hno, hsets i hi hno] at he
      rw [hp.src]
      exact h.loose.fresh i (h.size.symm ▸ hi) he
  case max => exact hsize ▸ hmax
  case wide => exact hwide

/-! ### Sources -/

theorem refcount_eq_zero {m : Memory} :
    m.refcount j = 0 ↔ ∀ i < m.size, (m.cell i).src ≠ some j := by
  rw [refcount, List.length_eq_zero_iff, List.filter_eq_nil_iff]
  simp only [List.mem_range, decide_eq_true_eq]

/-- Where some state of the range has to be cleared, some cell of it is not a source. -/
theorem Ready.exists_unreferenced {p : Memory} (h : Ready load need u lo hi p)
    (hlo : lo ≤ i) (hhi : i ≤ hi) (hnone : (p.cell i).src = none) :
    ∃ j, lo ≤ j ∧ j ≤ hi ∧ p.refcount j = 0 := by
  by_contra hall
  push Not at hall
  have hmax := h.max
  have hsurj : Finset.Icc lo hi ⊆
      ((Finset.Icc lo hi).erase i).image fun k => (p.cell k).src.getD 0 := by
    intro j hj
    obtain ⟨hj₁, hj₂⟩ := Finset.mem_Icc.1 hj
    have href := hall j hj₁ hj₂
    rw [Ne, refcount_eq_zero] at href
    push Not at href
    obtain ⟨k, hk, hkj⟩ := href
    have hrange : lo ≤ k ∧ k ≤ hi := by
      rcases (h.src k hk j hkj).2 with rfl | hr
      · exact ⟨hj₁, hj₂⟩
      · exact hr
    refine Finset.mem_image.2 ⟨k, Finset.mem_erase.2 ⟨?_, Finset.mem_Icc.2 hrange⟩, ?_⟩
    · rintro rfl
      rw [hnone] at hkj
      cases hkj
    · rw [hkj]
      rfl
  have hmem : i ∈ Finset.Icc lo hi := Finset.mem_Icc.2 ⟨hlo, hhi⟩
  have hcard := (Finset.card_le_card hsurj).trans Finset.card_image_le
  rw [Finset.card_erase_of_mem hmem] at hcard
  have hpos := Finset.card_pos.2 ⟨i, hmem⟩
  omega

theorem mem_range'_iff : i ∈ List.range' lo (hi + 1 - lo) ↔ lo ≤ i ∧ i ≤ hi := by
  rw [List.mem_range'_1]
  omega

/-- The memory after the sources of the range were staged, which came from `src`. -/
structure Filled (load : Option Nat → σ) (need : Nat → σ) (u : Ubatch) (src : Nat → Option Nat)
    (m : Memory) : Prop where
  wide : u.nSeqs ≤ m.n
  bound : m.head + m.n ≤ m.size
  zero : ∀ z, m.rsZ = some z → m.head ≤ z ∧ z < m.head + m.n
  spared : ∀ i < m.size, ∀ j, src i = some j → j < m.size ∧ m.rsZ ≠ some j
  own : ∀ i < m.size, ¬ (m.head ≤ i ∧ i < m.head + m.n) →
    (m.cell i).src = src i ∧ ∀ j, src i = some j → j = i
  staged : ∀ i, m.head ≤ i → i < m.head + m.n → (m.cell i).src = some i ∧
    (m.cell i).src0 = (if src i = none then m.rsZ else src i) ∧ (src i = none → m.rsZ ≠ none)
  slots : ∀ j < u.nSeqs, (m.cell (m.head + j)).seqId = (seqsOf u j).toFinset ∧
    (m.cell (m.head + j)).pos = lastPos u j ∧ load (src (m.head + j)) = need (owner u j)
  others : ∀ i < m.size, (∀ j < u.nSeqs, i ≠ m.head + j) → ∀ s ∈ (m.cell i).seqId,
    load (src i) = need s
  fresh : ∀ i < m.size, (m.cell i).seqId = ∅ → load (src i) = load none

theorem stageCell_other (h : ¬ (lo ≤ i ∧ i ≤ hi)) (z : Option Nat) (x : MemCell) :
    stageCell z lo hi i x = x := if_neg h

theorem stageCell_self (h : lo ≤ i ∧ i ≤ hi) (z : Option Nat) (x : MemCell) :
    stageCell z lo hi i x = { x with src0 := if x.src = none then z else x.src, src := some i } :=
  if_pos h

theorem stageCell_seqId (z : Option Nat) (lo hi i : Nat) (x : MemCell) :
    (stageCell z lo hi i x).seqId = x.seqId ∧ (stageCell z lo hi i x).pos = x.pos := by
  by_cases h : lo ≤ i ∧ i ≤ hi
  · rw [stageCell_self h]
    exact ⟨rfl, rfl⟩
  · rw [stageCell_other h]
    exact ⟨rfl, rfl⟩

/-- The memory with staged sources. -/
def staged (p : Memory) (lo hi : Nat) : Memory :=
  { p with
    rsZ := p.firstUnreferenced lo hi
    cell := fun i => stageCell (p.firstUnreferenced lo hi) lo hi i (p.cell i) }

theorem Ready.firstUnreferenced_ne {p : Memory} (h : Ready load need u lo hi p)
    (hlo : lo ≤ i) (hhi : i ≤ hi) (hsrc : (p.cell i).src = none) :
    p.firstUnreferenced lo hi ≠ none := by
  intro hnone
  obtain ⟨j, hj₁, hj₂, href⟩ := h.exists_unreferenced hlo hhi hsrc
  rw [firstUnreferenced, List.find?_eq_none] at hnone
  exact hnone j (mem_range'_iff.2 ⟨hj₁, hj₂⟩) (beq_iff_eq.2 href)

theorem firstUnreferenced_some {p : Memory} (h : p.firstUnreferenced lo hi = some z) :
    lo ≤ z ∧ z ≤ hi ∧ ∀ i < p.size, (p.cell i).src ≠ some z := by
  rw [firstUnreferenced] at h
  obtain ⟨hlo, hhi⟩ := mem_range'_iff.1 (List.mem_of_find?_eq_some h)
  have href : (p.refcount z == 0) = true := by
    have hfound := List.find?_some h
    exact hfound
  exact ⟨hlo, hhi, refcount_eq_zero.1 (beq_iff_eq.1 href)⟩

theorem Ready.stage_eq {p : Memory} (h : Ready load need u lo hi p) :
    p.stage lo hi = some (p.staged lo hi) := by
  rw [stage, if_neg]
  · rfl
  · rintro ⟨hnone, hany⟩
    obtain ⟨i, hir, hi'⟩ := List.any_eq_true.1 hany
    obtain ⟨hlo, hhi⟩ := mem_range'_iff.1 hir
    exact h.firstUnreferenced_ne hlo hhi (of_decide_eq_true hi') hnone

theorem Ready.booked {p : Memory} (h : Ready load need u lo hi p) (hu : Splits u) :
    ((p.staged lo hi).finish lo hi).Booked where
  tails := h.tails
  sets := by
    intro i hi'
    exact (stageCell_seqId _ lo hi i _).1.trans (h.sets i hi')
  vacant := by
    intro i hi' he
    obtain ⟨hset, hpos⟩ := stageCell_seqId (p.firstUnreferenced lo hi) lo hi i (p.cell i)
    exact hpos.trans (h.vacant i hi' (hset.symm.trans he))
  used := rfl
  own := by
    intro i hi' j hj
    change (stageCell _ lo hi i (p.cell i)).src = some j at hj
    by_cases hr : lo ≤ i ∧ i ≤ hi
    · rw [stageCell_self hr] at hj
      exact (Option.some.inj hj).symm
    · rw [stageCell_other hr] at hj
      exact (h.src i hi' j hj).2.resolve_right hr
  kept := by
    intro i hi' hne
    change (stageCell _ lo hi i (p.cell i)).seqId ≠ ∅ at hne
    change (stageCell _ lo hi i (p.cell i)).src = some i
    by_cases hr : lo ≤ i ∧ i ≤ hi
    · rw [stageCell_self hr]
    · rw [stageCell_other hr] at hne ⊢
      obtain ⟨j, hj⟩ := Option.ne_none_iff_exists'.1 ((h.kept i hi' hne).resolve_right hr)
      rw [hj, (h.src i hi' j hj).2.resolve_right hr]
  head := by
    have hmax := h.max
    have hwide := h.wide
    have hsome := hu.some
    change lo ≤ p.size
    omega

theorem Ready.filled {p : Memory} (h : Ready load need u lo hi p) (hu : Splits u) :
    Filled load need u (fun i => (p.cell i).src) ((p.staged lo hi).finish lo hi) := by
  have hmax := h.max
  have hwide := h.wide
  have hsome := hu.some
  have hr : ∀ i, lo ≤ i ∧ i < lo + (hi + 1 - lo) ↔ lo ≤ i ∧ i ≤ hi := by
    intro i
    omega
  constructor
  case wide =>
    change u.nSeqs ≤ hi + 1 - lo
    omega
  case bound =>
    change lo + (hi + 1 - lo) ≤ p.size
    omega
  case zero =>
    intro z hz
    obtain ⟨hlo, hhi, -⟩ := firstUnreferenced_some hz
    exact (hr z).2 ⟨hlo, hhi⟩
  case spared =>
    intro i hi' j hj
    exact ⟨(h.src i hi' j hj).1, fun hz => (firstUnreferenced_some hz).2.2 i hi' hj⟩
  case own =>
    intro i hi' hout
    have hout' : ¬ (lo ≤ i ∧ i ≤ hi) := fun hin => hout ((hr i).2 hin)
    refine ⟨?_, fun j hj => (h.src i hi' j hj).2.resolve_right hout'⟩
    change (stageCell _ lo hi i (p.cell i)).src = _
    rw [stageCell_other hout']
  case staged =>
    intro i hlo hhi
    have hin := (hr i).1 ⟨hlo, hhi⟩
    have hcell : ((p.staged lo hi).finish lo hi).cell i =
        stageCell (p.firstUnreferenced lo hi) lo hi i (p.cell i) := rfl
    rw [hcell, stageCell_self hin]
    exact ⟨rfl, rfl, h.firstUnreferenced_ne hin.1 hin.2⟩
  case slots =>
    intro j hj
    obtain ⟨hset, hpos⟩ :=
      stageCell_seqId (p.firstUnreferenced lo hi) lo hi (lo + j) (p.cell (lo + j))
    have hslot := h.slots j hj
    rw [Nat.add_comm j lo] at hslot
    exact ⟨hset.trans hslot.1, hpos.trans hslot.2.1, hslot.2.2⟩
  case others =>
    intro i hi' hno s hs
    have hset := (stageCell_seqId (p.firstUnreferenced lo hi) lo hi i (p.cell i)).1
    refine h.others i hi' (fun j hj => ?_) s (hset ▸ hs)
    rw [Nat.add_comm]
    exact hno j hj
  case fresh =>
    intro i hi' he
    have hset := (stageCell_seqId (p.firstUnreferenced lo hi) lo hi i (p.cell i)).1
    exact h.fresh i hi' (hset.symm.trans he)

/-! ### The whole search -/

/-- The first cells of a booked memory, none of which a sequence was moved to yet. -/
theorem Booked.claimed {m : Memory} (h : m.Booked) (hn : 0 < m.size)
    (hloaded : ∀ i < m.size, ∀ s ∈ (m.cell i).seqId, load (m.cell i).src = need s)
    (hfresh : ∀ i < m.size, (m.cell i).seqId = ∅ → load (m.cell i).src = load none) :
    Claimed load need u m 0 ⟨m, m.firstEmpty, m.size - 1, 0⟩ := by
  refine ⟨rfl, ⟨h.tails, fun i hi => .inl (h.sets i hi), h.vacant, fun i hi hne => ?_,
    fun i hi j hj => ?_, fun i hi s hs => ?_, fun i hi he => ?_⟩,
    fun j hj => (Nat.not_lt_zero j hj).elim, fun s _ => rfl, hn, fun _ => h.nextFree⟩
  · rw [h.kept i hi hne]
    exact Option.some_ne_none i
  · have hij := h.own i hi j hj
    exact ⟨hij ▸ hi, .inl hij⟩
  · exact hloaded i hi s (h.sets i hi ▸ hs)
  · exact hfresh i hi ((h.sets i hi).trans he)

/-- A checked ubatch is given a range of cells, and no assertion fails; what is not in the sets
stays at its position. -/
theorem Checked.findRange_kept {m₀ m : Memory} (h : Checked u m₀ m) (hu : Splits u)
    (hloaded : ∀ i < m.size, ∀ s ∈ (m.cell i).seqId, load (m.cell i).src = need s)
    (hfresh : ∀ i < m.size, (m.cell i).seqId = ∅ → load (m.cell i).src = load none)
    (habsent : ∀ s < m.size, m.tail s = none → need s = load none) :
    ∃ src m', m.findRange u = some ⟨true, m', []⟩ ∧ m'.size = m.size ∧ m'.Booked ∧
      Filled load need u src m' ∧
      (∀ s, (∀ k < u.nSeqs, s ∉ seqsOf u k) → (m'.tail s = none ↔ m.tail s = none)) ∧
      ∀ i < m.size, (∀ k < u.nSeqs, i ≠ m'.head + k) → (m'.cell i).seqId ≠ ∅ →
        ∀ j, src i = some j → (m'.cell i).pos = (m.cell j).pos := by
  have hsize := h.shrunk.size
  have hbelow : ∀ k < u.nSeqs, ∀ s ∈ seqsOf u k, s < m.size :=
    fun k hk s hs => hsize.symm ▸ h.below k hk s hs
  have hn : 0 < m.size := Nat.zero_lt_of_lt (hbelow 0 hu.some _ (hu.owner_mem hu.some))
  have hlater : ∀ s, Later u s → m.tail s = none := by
    intro s hs
    rw [h.cleared, if_pos hs]
  obtain ⟨r, hr, hclaimed, hpr⟩ := (h.booked.claimed (u := u) hn hloaded hfresh).run_posFrom hu
    (fun k hk => hbelow k hk _ (hu.owner_mem hk)) habsent h.booked.posFrom
  obtain ⟨g, hg, hgathered, hpg⟩ := hclaimed.gathered.run_posFrom hu hpr
  have hplaced := setsPlaced hu g r.min (Nat.le_refl u.nSeqs)
  have hready := hgathered.ready hu hlater hbelow hplaced
  refine ⟨_, _, ?_, ?_, hready.booked hu, hready.filled hu, ?_, ?_⟩
  · rw [Memory.findRange, hr, Option.bind_eq_bind, Option.bind_some, hg, Option.bind_eq_bind,
      Option.bind_some]
    dsimp only
    rw [hready.stage_eq, Option.bind_some, h.booked.tailErrors]
    have hok : decide (u.nSeqs ≤ (((List.range u.nSeqs).foldl (placeTurn u r.min) g).staged r.min
        r.max |>.finish r.min r.max).n) = true := decide_eq_true (hready.filled hu).wide
    rw [hok]
    rfl
  · exact (hplaced.size.trans hgathered.size)
  · intro s hs
    refine Iff.trans ?_ (hgathered.absent s ?_)
    · rw [← hplaced.tail_other s hs]
      rfl
    · rintro ⟨j, hj, rfl⟩
      exact hs j hj (hu.owner_mem hj)
  · intro i hi hno hne j hj
    have hstaged := stageCell_seqId
      (((List.range u.nSeqs).foldl (placeTurn u r.min) g).firstUnreferenced r.min r.max)
      r.min r.max i (((List.range u.nSeqs).foldl (placeTurn u r.min) g).cell i)
    have hother := hplaced.other i fun k hk => by
      rw [Nat.add_comm]
      exact hno k hk
    rw [hother] at hj
    refine (hstaged.2.trans (congrArg MemCell.pos hother)).trans (hpg i hi ?_ j hj)
    intro he
    exact hne ((hstaged.1.trans (congrArg MemCell.seqId hother)).trans he)

theorem Checked.findRange {m₀ m : Memory} (h : Checked u m₀ m) (hu : Splits u)
    (hloaded : ∀ i < m.size, ∀ s ∈ (m.cell i).seqId, load (m.cell i).src = need s)
    (hfresh : ∀ i < m.size, (m.cell i).seqId = ∅ → load (m.cell i).src = load none)
    (habsent : ∀ s < m.size, m.tail s = none → need s = load none) :
    ∃ src m', m.findRange u = some ⟨true, m', []⟩ ∧ m'.size = m.size ∧ m'.Booked ∧
      Filled load need u src m' ∧
      ∀ s, (∀ k < u.nSeqs, s ∉ seqsOf u k) → (m'.tail s = none ↔ m.tail s = none) := by
  obtain ⟨src, m', hfound, hsize, hbooked, hfilled, hout, _⟩ :=
    h.findRange_kept hu hloaded hfresh habsent
  exact ⟨src, m', hfound, hsize, hbooked, hfilled, hout⟩

end Memory
end ActQuant.Recurrent
