import ActQuant.Recurrent.Claim

namespace ActQuant.Recurrent
open ActQuant.Batch ActQuant.Lib

namespace Memory

/-! The search for a usable range lets the tail of a sequence without a state point to a cell that
is still empty. What a cell will load is followed by the tails, not by the sets. -/

variable {σ : Type} {load : Option Nat → σ} {need : Nat → σ}

/-- What holds of the cells while the sequences of `c` may be ahead of their sets, and cells
between `lo` and `hi` may have other sources than themselves. -/
structure Loose (load : Option Nat → σ) (need : Nat → σ) (c : Nat → Prop) (lo hi : Nat)
    (m : Memory) : Prop where
  tails : ∀ s < m.size, ∀ i, m.tail s = some i → i < m.size
  sets : ∀ i < m.size, (m.cell i).seqId = m.tailsAt i ∨
    (m.cell i).seqId = ∅ ∧ ∃ s, c s ∧ m.tailsAt i = {s}
  vacant : ∀ i < m.size, (m.cell i).seqId = ∅ → (m.cell i).pos = -1
  kept : ∀ i < m.size, (m.cell i).seqId ≠ ∅ → (m.cell i).src ≠ none
  src : ∀ i < m.size, ∀ j, (m.cell i).src = some j → j < m.size ∧ (j = i ∨ lo ≤ i ∧ i ≤ hi)
  loaded : ∀ i < m.size, ∀ s ∈ m.tailsAt i, load (m.cell i).src = need s
  fresh : ∀ i < m.size, m.tailsAt i = ∅ → load (m.cell i).src = load none

theorem Loose.mono {m : Memory} (h : Loose load need c lo hi m) (hc : ∀ s, c s → c' s)
    (hlo : lo' ≤ lo) (hhi : hi ≤ hi') : Loose load need c' lo' hi' m :=
  { h with
    sets := fun i hi => (h.sets i hi).imp_right fun ⟨he, s, hs, ht⟩ => ⟨he, s, hc s hs, ht⟩
    src := fun i hi j hj => by
      obtain ⟨hjn, hown⟩ := h.src i hi j hj
      exact ⟨hjn, hown.imp_right fun hr => by omega⟩ }

/-- A cell that no tail points to is empty. -/
theorem Loose.empty {m : Memory} (h : Loose load need c lo hi m) (hi : i < m.size)
    (ht : m.tailsAt i = ∅) : (m.cell i).seqId = ∅ := by
  rcases h.sets i hi with he | ⟨he, -⟩
  · rw [he, ht]
  · exact he

/-- A sequence that is not ahead is in the cell that its tail points to. -/
theorem Loose.holds {m : Memory} (h : Loose load need c lo hi m) (hs : s < m.size) (hc : ¬ c s)
    (ht : m.tail s = some i) : i < m.size ∧ s ∈ (m.cell i).seqId ∧
      (m.cell i).seqId = m.tailsAt i := by
  have hi := h.tails s hs i ht
  have hmem : s ∈ m.tailsAt i := mem_tailsAt.2 ⟨hs, ht⟩
  rcases h.sets i hi with he | ⟨-, a, ha, he⟩
  · exact ⟨hi, he ▸ hmem, he⟩
  · rw [he] at hmem
    exact (hc (Finset.mem_singleton.1 hmem ▸ ha)).elim

theorem tailsAt_setTail_self {m : Memory} (hs : s < m.size) (e : Nat) :
    (m.setTail s (some e)).tailsAt e = insert s (m.tailsAt e) := fibre_update_self hs e

theorem tailsAt_setTail_other {m : Memory} (h : i ≠ e) :
    (m.setTail s (some e)).tailsAt i = (m.tailsAt i).erase s :=
  fibre_update_other fun he => h (Option.some.inj he).symm

/-- A sequence without a state takes a cell that no tail points to. -/
theorem Loose.take_fresh {m : Memory} (h : Loose load need c lo hi m) (hs : s < m.size)
    (hnone : m.tail s = none) (hneed : need s = load none) (he : e < m.size)
    (hfree : m.tailsAt e = ∅) :
    Loose load need (fun a => c a ∨ a = s) lo hi (m.setTail s (some e)) := by
  have hself : (m.setTail s (some e)).tailsAt e = {s} := by
    rw [tailsAt_setTail_self hs, hfree]
    rfl
  have hother : ∀ i, i ≠ e → (m.setTail s (some e)).tailsAt i = m.tailsAt i := by
    intro i hi
    rw [tailsAt_setTail_other hi]
    refine Finset.erase_eq_of_notMem fun hm => ?_
    have := (mem_tailsAt.1 hm).2
    rw [hnone] at this
    cases this
  refine ⟨?_, ?_, h.vacant, h.kept, h.src, ?_, ?_⟩
  · intro a ha i hi
    by_cases has : a = s
    · rw [setTail_tail, has, Function.update_self] at hi
      cases hi
      exact he
    · rw [setTail_tail, Function.update_of_ne has] at hi
      exact h.tails a ha i hi
  · intro i hi
    by_cases hie : i = e
    · rw [hie, hself]
      exact .inr ⟨h.empty he hfree, s, .inr rfl, rfl⟩
    · rw [hother i hie]
      exact (h.sets i hi).imp_right fun ⟨hempty, a, ha, ht⟩ => ⟨hempty, a, .inl ha, ht⟩
  · intro i hi a ha
    by_cases hie : i = e
    · rw [hie, hself] at ha
      rw [hie, Finset.mem_singleton.1 ha, hneed]
      exact h.fresh e he hfree
    · rw [hother i hie] at ha
      exact h.loaded i hi a ha
  · intro i hi ht
    by_cases hie : i = e
    · rw [hie, hself] at ht
      exact (Finset.singleton_ne_empty s ht).elim
    · rw [hother i hie] at ht
      exact h.fresh i hi ht

/-- What a copy of a state into an empty cell does. -/
structure Copied (m : Memory) (s t e : Nat) (m' : Memory) : Prop where
  size : m'.size = m.size
  head : m'.head = m.head
  tail : m'.tail = m.tail
  src : (m'.cell e).src = (m.cell t).src
  taken : (m'.cell e).seqId = {s}
  left : (m'.cell t).seqId = (m.cell t).seqId.erase s
  src_left : (m'.cell t).src = (m.cell t).src
  other : ∀ i, i ≠ e → i ≠ t → m'.cell i = m.cell i

theorem copyTail_copied {m : Memory} (hne : t ≠ e) (hempty : (m.cell e).seqId = ∅)
    (hshared : (m.cell t).seqId.erase s ≠ ∅) :
    ∃ m', m.copyTail s t e = some m' ∧ Copied m s t e m' := by
  rw [copyTail]
  dsimp only
  rw [if_neg hshared, hempty]
  refine ⟨_, rfl, rfl, rfl, rfl, ?_, ?_, ?_, ?_, ?_⟩
  · rw [put_self]
  · rw [put_self]
    rfl
  · rw [put_other hne, put_self]
  · rw [put_other hne, put_self]
  · intro i hie hit
    rw [put_other hie, put_other hit]

/-- A sequence that shares its cell copies the state into a cell that no tail points to. -/
theorem Loose.take_copy {m : Memory} (h : Loose load need c lo hi m) (hs : s < m.size)
    (hc : ¬ c s) (ht : m.tail s = some t) (hshared : (m.cell t).seqId.erase s ≠ ∅)
    (he : e < m.size) (hfree : m.tailsAt e = ∅) (hlo : lo ≤ e) (hhi : e ≤ hi)
    (hcopy : Copied m s t e m') :
    Loose load need (fun a => c a ∨ a = s) lo hi (m'.setTail s (some e)) := by
  obtain ⟨htn, hmem, htails⟩ := h.holds hs hc ht
  have hte : t ≠ e := by
    rintro rfl
    rw [htails, hfree] at hmem
    exact Finset.notMem_empty s hmem
  have htailsAt : ∀ i, m'.tailsAt i = m.tailsAt i := by
    intro i
    rw [tailsAt, tailsAt, hcopy.tail, hcopy.size]
  have hself : (m'.setTail s (some e)).tailsAt e = {s} := by
    rw [tailsAt_setTail_self (hcopy.size.symm ▸ hs), htailsAt, hfree]
    rfl
  have hleft : (m'.setTail s (some e)).tailsAt t = (m.tailsAt t).erase s := by
    rw [tailsAt_setTail_other hte, htailsAt]
  have hother : ∀ i, i ≠ e → i ≠ t → (m'.setTail s (some e)).tailsAt i = m.tailsAt i := by
    intro i hie hit
    rw [tailsAt_setTail_other hie, htailsAt]
    refine Finset.erase_eq_of_notMem fun hm => hit ?_
    exact Option.some.inj ((mem_tailsAt.1 hm).2.symm.trans ht)
  -- the cells `e` and `t` are shown first, every other cell is as before
  refine ⟨?_, ?_, ?_, ?_, ?_, ?_, ?_⟩
  · intro a ha i hi
    have hn : (m'.setTail s (some e)).size = m.size := hcopy.size
    rw [hn] at ha ⊢
    by_cases has : a = s
    · rw [setTail_tail, has, Function.update_self] at hi
      cases hi
      exact he
    · rw [setTail_tail, Function.update_of_ne has, hcopy.tail] at hi
      exact h.tails a ha i hi
  · intro i hi
    change i < m'.size at hi
    rw [hcopy.size] at hi
    by_cases hie : i = e
    · rw [hie, hself]
      exact .inl hcopy.taken
    · by_cases hit : i = t
      · rw [hit, hleft, ← htails]
        exact .inl hcopy.left
      · rw [hother i hie hit]
        change (m'.cell i).seqId = _ ∨ (m'.cell i).seqId = _ ∧ _
        rw [hcopy.other i hie hit]
        rcases h.sets i hi with hset | ⟨hempty, a, ha, hat⟩
        · exact .inl hset
        · exact .inr ⟨hempty, a, .inl ha, hat⟩
  · intro i hi hempty
    change i < m'.size at hi
    change (m'.cell i).seqId = ∅ at hempty
    change (m'.cell i).pos = -1
    rw [hcopy.size] at hi
    by_cases hie : i = e
    · rw [hie, hcopy.taken] at hempty
      exact (Finset.singleton_ne_empty s hempty).elim
    · by_cases hit : i = t
      · rw [hit, hcopy.left] at hempty
        exact (hshared hempty).elim
      · rw [hcopy.other i hie hit] at hempty ⊢
        exact h.vacant i hi hempty
  · intro i hi hne
    change i < m'.size at hi
    change (m'.cell i).seqId ≠ ∅ at hne
    change (m'.cell i).src ≠ none
    rw [hcopy.size] at hi
    by_cases hie : i = e
    · rw [hie, hcopy.src]
      exact h.kept t htn (Finset.ne_empty_of_mem hmem)
    · by_cases hit : i = t
      · rw [hit, hcopy.src_left]
        exact h.kept t htn (Finset.ne_empty_of_mem hmem)
      · rw [hcopy.other i hie hit] at hne ⊢
        exact h.kept i hi hne
  · intro i hi j hj
    have hn : (m'.setTail s (some e)).size = m.size := hcopy.size
    change (m'.cell i).src = some j at hj
    rw [hn] at hi ⊢
    by_cases hie : i = e
    · rw [hie, hcopy.src] at hj
      exact ⟨(h.src t htn j hj).1, .inr ⟨hie ▸ hlo, hie ▸ hhi⟩⟩
    · by_cases hit : i = t
      · rw [hit, hcopy.src_left] at hj
        rw [hit]
        exact h.src t htn j hj
      · rw [hcopy.other i hie hit] at hj
        exact h.src i hi j hj
  · intro i hi a ha
    change i < m'.size at hi
    change load (m'.cell i).src = need a
    rw [hcopy.size] at hi
    by_cases hie : i = e
    · rw [hie, hself] at ha
      rw [hie, hcopy.src, Finset.mem_singleton.1 ha]
      exact h.loaded t htn s (mem_tailsAt.2 ⟨hs, ht⟩)
    · by_cases hit : i = t
      · rw [hit, hleft] at ha
        rw [hit, hcopy.src_left]
        exact h.loaded t htn a (Finset.mem_of_mem_erase ha)
      · rw [hother i hie hit] at ha
        rw [hcopy.other i hie hit]
        exact h.loaded i hi a ha
  · intro i hi hempty
    change i < m'.size at hi
    change load (m'.cell i).src = load none
    rw [hcopy.size] at hi
    by_cases hie : i = e
    · rw [hie, hself] at hempty
      exact (Finset.singleton_ne_empty s hempty).elim
    · by_cases hit : i = t
      · rw [hit, hleft, ← htails] at hempty
        exact (hshared hempty).elim
      · rw [hother i hie hit] at hempty
        rw [hcopy.other i hie hit]
        exact h.fresh i hi hempty

end Memory

namespace Memory

variable {σ : Type} {load : Option Nat → σ} {need : Nat → σ} {u : Ubatch}

/-! ### The next empty cell -/

/-- The cell is some distance on from the head, the cells before it are in use or have been taken,
and no cell after it has been taken. -/
def NextAt (m : Memory) (next d : Nat) : Prop :=
  d < m.size ∧ next = (m.head + d) % m.size ∧ m.tailsAt next = ∅ ∧
    (∀ e < d, m.tailsAt ((m.head + e) % m.size) ≠ ∅) ∧
    ∀ e, d < e → e < m.size → (m.cell ((m.head + e) % m.size)).seqId = ∅ →
      m.tailsAt ((m.head + e) % m.size) = ∅

/-- Where some cell is free, the next empty cell is. -/
def NextFree (m : Memory) (next : Nat) : Prop :=
  (∃ i < m.size, m.tailsAt i = ∅) → ∃ d, m.NextAt next d

theorem Booked.nextFree {m : Memory} (h : m.Booked) : m.NextFree m.firstEmpty := by
  rintro ⟨c, hc, hfree⟩
  have hn : 0 < m.size := Nat.zero_lt_of_lt hc
  obtain ⟨d, hd, hdc⟩ := exists_distance hc m.head
  have hp : m.emptyAt ((m.head + d) % m.size) = true := by
    rw [hdc, emptyAt_iff, h.sets c hc, hfree]
  obtain ⟨d', hle, hnext, hempty, hfirst⟩ := cyclicFrom_spec hn h.head hd hp
  have hlt : ∀ e, (m.head + e) % m.size < m.size := fun e => Nat.mod_lt _ hn
  refine ⟨d', by omega, hnext, ?_, fun e he => ?_, fun e _ _ hempty => ?_⟩
  · rw [firstEmpty, hnext, ← h.sets _ (hlt d')]
    exact emptyAt_iff.1 hempty
  · rw [← h.sets _ (hlt e)]
    intro hset
    have hfalse := hfirst e he
    rw [emptyAt_iff.2 hset] at hfalse
    cases hfalse
  · rw [← h.sets _ (hlt e)]
    exact hempty

theorem distance_inj {h n a b : Nat} (ha : a < n) (hb : b < n) (he : (h + a) % n = (h + b) % n) :
    a = b := by
  have hmod : a ≡ b [MOD n] := Nat.ModEq.add_left_cancel' h he
  exact Nat.ModEq.eq_of_lt_of_lt hmod ha hb

/-- Taking the next empty cell and searching for the one after it. -/
theorem NextAt.succ {m m' : Memory} (h : m.NextAt e d) (hsize : m'.size = m.size)
    (hhead : m'.head = m.head)
    (htails : ∀ i < m.size, m'.tailsAt i = ∅ ↔ m.tailsAt i = ∅ ∧ i ≠ e)
    (hsets : ∀ i < m.size, i ≠ e → ((m'.cell i).seqId = ∅ ↔ (m.cell i).seqId = ∅))
    (hempty : ∀ i < m.size, m'.tailsAt i = ∅ → (m'.cell i).seqId = ∅) :
    m'.NextFree (m'.nextEmpty e) := by
  obtain ⟨hd, he, hfree, hbefore, hafter⟩ := h
  rintro ⟨c, hc, hc'⟩
  rw [hsize] at hc
  have hn : 0 < m.size := Nat.zero_lt_of_lt hc
  have hlt : ∀ x, (m.head + x) % m.size < m.size := fun x => Nat.mod_lt _ hn
  obtain ⟨x, hx, hxc⟩ := exists_distance hc m.head
  obtain ⟨hcfree, hce⟩ := (htails c hc).1 hc'
  have hdx : d < x := by
    rcases Nat.lt_trichotomy x d with hlt' | rfl | hlt'
    · exact (hbefore x hlt' (hxc ▸ hcfree)).elim
    · exact (hce (hxc.symm.trans he.symm)).elim
    · exact hlt'
  have hshift : ∀ y, (e + 1 + y) % m.size = (m.head + (d + (y + 1))) % m.size := by
    intro y
    rw [he, mod_step, Nat.add_assoc]
  have hp : m'.emptyAt ((e + 1 + (x - d - 1)) % m.size) = true := by
    rw [hshift, emptyAt_iff]
    have hsum : d + (x - d - 1 + 1) = x := by omega
    rw [hsum, hxc]
    exact hempty c hc hc'
  have hen : e < m.size := he ▸ hlt d
  obtain ⟨y, hle, hnext, hnextEmpty, hfirst⟩ :=
    cyclicAfter_spec hn hen (by omega : x - d - 1 < m.size) hp
  rw [hshift] at hnext
  have hy : d + (y + 1) < m.size := by omega
  have hne : ∀ z, z < m.size → d < z → (m.head + z) % m.size ≠ e := by
    intro z hz hdz hze
    have := distance_inj hz hd (hze.trans he)
    omega
  refine ⟨d + (y + 1), ?_⟩
  rw [NextAt, hsize, hhead, nextEmpty, hsize, hnext]
  refine ⟨hy, rfl, ?_, fun z hz => ?_, fun z hz hzn hset => ?_⟩
  · have hnonself := hne _ hy (by omega)
    have hset : (m'.cell ((m.head + (d + (y + 1))) % m.size)).seqId = ∅ := by
      rw [← hshift]
      exact emptyAt_iff.1 hnextEmpty
    refine (htails _ (hlt _)).2 ⟨hafter _ (by omega) hy ?_, hnonself⟩
    exact (hsets _ (hlt _) hnonself).1 hset
  · intro hz'
    obtain ⟨hzfree, hze⟩ := (htails _ (hlt z)).1 hz'
    rcases Nat.lt_trichotomy z d with hzd | rfl | hzd
    · exact hbefore z hzd hzfree
    · exact hze he.symm
    · have hfalse := hfirst (z - d - 1) (by omega)
      rw [hshift] at hfalse
      have hsum : d + (z - d - 1 + 1) = z := by omega
      rw [hsum, emptyAt_iff.2 (hempty _ (hlt z) hz')] at hfalse
      cases hfalse
  · have hnonself := hne z hzn (by omega)
    refine (htails _ (hlt z)).2 ⟨hafter z (by omega) hzn ?_, hnonself⟩
    exact (hsets _ (hlt z) hnonself).1 hset

/-! ### Cells for the sequences of the sets -/

/-- One of the first `k` sets has the sequence as its owner. -/
def OwnerBelow (u : Ubatch) (k : Nat) (s : Nat) : Prop := ∃ j < k, s = owner u j

/-- The first `k` owners have cells of their own in the range. -/
structure Claimed (load : Option Nat → σ) (need : Nat → σ) (u : Ubatch) (m : Memory) (k : Nat)
    (r : Range) : Prop where
  size : r.mem.size = m.size
  loose : Loose load need (OwnerBelow u k) r.min r.max r.mem
  claimed : ∀ j < k, ∃ i, r.mem.tail (owner u j) = some i ∧ r.mem.tailsAt i = {owner u j} ∧
    r.min ≤ i ∧ i ≤ r.max
  others : ∀ s, ¬ OwnerBelow u k s → r.mem.tail s = m.tail s
  max : r.max < m.size
  next : k < u.nSeqs → r.mem.NextFree r.next

theorem widen_bounds (r : Range) (i : Nat) :
    (r.widen i).min ≤ r.min ∧ (r.widen i).min ≤ i ∧ r.max ≤ (r.widen i).max ∧
      i ≤ (r.widen i).max ∧ (r.widen i).max = max r.max i := by
  simp only [Range.widen]
  split <;> split <;> omega

theorem OwnerBelow.succ_iff : OwnerBelow u (k + 1) s ↔ OwnerBelow u k s ∨ s = owner u k := by
  constructor
  · rintro ⟨j, hj, rfl⟩
    rcases Nat.lt_succ_iff_lt_or_eq.1 hj with hj | rfl
    · exact .inl ⟨j, hj, rfl⟩
    · exact .inr rfl
  · rintro (⟨j, hj, rfl⟩ | rfl)
    · exact ⟨j, Nat.lt_succ_of_lt hj, rfl⟩
    · exact ⟨k, Nat.lt_succ_self k, rfl⟩

theorem not_ownerBelow (hu : Splits u) (hk : k < u.nSeqs) : ¬ OwnerBelow u k (owner u k) := by
  rintro ⟨j, hj, he⟩
  exact hu.owner_ne (Nat.lt_trans hj hk) hk (Nat.ne_of_lt hj) he.symm

/-- A sequence that has a cell of its own keeps it. -/
theorem Claimed.keep {m : Memory} {r : Range} (h : Claimed load need u m k r) (hu : Splits u)
    (hk : k < u.nSeqs) (hs : owner u k < m.size) (ht : r.mem.tail (owner u k) = some t)
    (hcard : (r.mem.cell t).seqId.card = 1) : Claimed load need u m (k + 1) (r.widen t) := by
  obtain ⟨hmin, hmint, hmax, hmaxt, hmaxe⟩ := widen_bounds r t
  obtain ⟨htn, hmem, htails⟩ := h.loose.holds (h.size.symm ▸ hs) (not_ownerBelow hu hk) ht
  have hself : r.mem.tailsAt t = {owner u k} := by
    rw [← htails]
    obtain ⟨a, ha⟩ := Finset.card_eq_one.1 hcard
    rw [ha] at hmem ⊢
    rw [Finset.mem_singleton.1 hmem]
  refine ⟨h.size, h.loose.mono (fun s hs => OwnerBelow.succ_iff.2 (.inl hs)) hmin hmax, ?_, ?_, ?_,
    fun hk' => h.next hk⟩
  · intro j hj
    rcases Nat.lt_succ_iff_lt_or_eq.1 hj with hj | rfl
    · obtain ⟨i, hi, hti, hlo, hhi⟩ := h.claimed j hj
      exact ⟨i, hi, hti, by omega, by omega⟩
    · exact ⟨t, ht, hself, hmint, hmaxt⟩
  · exact fun s hs => h.others s fun hb => hs (OwnerBelow.succ_iff.2 (.inl hb))
  · rw [hmaxe]
    exact max_lt h.max (h.size ▸ htn)

/-- Where a sequence needs a cell, the next empty cell is free. -/
theorem Claimed.next_free {m : Memory} {r : Range} (h : Claimed load need u m k r)
    (hu : Splits u) (hk : k < u.nSeqs) (hs : owner u k < m.size)
    (hcard : ∀ t, r.mem.tail (owner u k) = some t → (r.mem.cell t).seqId.card ≠ 1) :
    ∃ d, r.mem.NextAt r.next d := by
  refine h.next hk ?_
  refine exists_fibre_eq_empty (h.size.symm ▸ hs) fun i hi _ he => hcard i hi ?_
  have hsets := (h.loose.holds (h.size.symm ▸ hs) (not_ownerBelow hu hk) hi).2.2
  rw [hsets, tailsAt, he, Finset.card_singleton]

/-- A sequence that took the next empty cell, however the state came there. -/
theorem Claimed.taken {m m' : Memory} {r : Range} (h : Claimed load need u m k r)
    (hu : Splits u) (hk : k < u.nSeqs) (hs : owner u k < m.size)
    (hshared : ∀ i, r.mem.tail (owner u k) = some i → r.mem.tailsAt i ≠ {owner u k})
    (hat : r.mem.NextAt r.next d) (hsize : m'.size = r.mem.size) (hhead : m'.head = r.mem.head)
    (htail : m'.tail = Function.update r.mem.tail (owner u k) (some r.next))
    (hsets : ∀ i < m.size, i ≠ r.next → ((m'.cell i).seqId = ∅ ↔ (r.mem.cell i).seqId = ∅))
    (hloose : Loose load need (fun a => OwnerBelow u k a ∨ a = owner u k) (r.widen r.next).min
      (r.widen r.next).max m') :
    Claimed load need u m (k + 1) ((⟨m', if k + 1 < u.nSeqs then m'.nextEmpty r.next else r.next,
      r.min, r.max⟩ : Range).widen r.next) := by
  obtain ⟨hmin, hmine, hmax, hmaxe, hmaxeq⟩ := widen_bounds r r.next
  have hn : 0 < m.size := Nat.zero_lt_of_lt hs
  have hen : r.next < m.size := by
    rw [hat.2.1, h.size]
    exact Nat.mod_lt _ hn
  have hself : m'.tailsAt r.next = {owner u k} := by
    rw [tailsAt, htail, hsize, fibre_update_self (h.size.symm ▸ hs)]
    exact congrArg (insert (owner u k)) hat.2.2.1
  have hother : ∀ i, i ≠ r.next → m'.tailsAt i = (r.mem.tailsAt i).erase (owner u k) := by
    intro i hi
    rw [tailsAt, htail, hsize]
    exact fibre_update_other fun he => hi (Option.some.inj he).symm
  have hempty : ∀ i, m'.tailsAt i = ∅ ↔ r.mem.tailsAt i = ∅ ∧ i ≠ r.next := by
    intro i
    by_cases hi : i = r.next
    · rw [hi, hself]
      exact iff_of_false (Finset.singleton_ne_empty _) fun hf => hf.2 rfl
    · rw [hother i hi, and_iff_left hi, Finset.erase_eq_empty_iff, or_iff_left]
      intro he
      have hmem : owner u k ∈ r.mem.tailsAt i := he ▸ Finset.mem_singleton_self _
      exact hshared i (mem_tailsAt.1 hmem).2 he
  refine ⟨hsize.trans h.size, hloose.mono (fun s hs => OwnerBelow.succ_iff.2 hs)
    (Nat.le_refl _) (Nat.le_refl _), fun j hj => ?_, fun s hs => ?_, ?_, fun hk' => ?_⟩
  · rcases Nat.lt_succ_iff_lt_or_eq.1 hj with hj | rfl
    · obtain ⟨i, hi, hti, hlo, hhi⟩ := h.claimed j hj
      have hne : owner u j ≠ owner u k :=
        hu.owner_ne (Nat.lt_trans hj hk) hk (Nat.ne_of_lt hj)
      have hie : i ≠ r.next := by
        rintro rfl
        rw [hat.2.2.1] at hti
        exact Finset.singleton_ne_empty _ hti.symm
      refine ⟨i, ?_, ?_, Nat.le_trans hmin hlo, Nat.le_trans hhi hmax⟩
      · change m'.tail (owner u j) = some i
        rw [htail, Function.update_of_ne hne]
        exact hi
      · refine (hother i hie).trans ?_
        rw [hti]
        exact Finset.erase_eq_of_notMem fun hm => hne (Finset.mem_singleton.1 hm).symm
    · refine ⟨r.next, ?_, hself, hmine, hmaxe⟩
      change m'.tail (owner u j) = some r.next
      rw [htail, Function.update_self]
  · change m'.tail s = m.tail s
    have hnot : s ≠ owner u k := fun he => hs (OwnerBelow.succ_iff.2 (.inr he))
    rw [htail, Function.update_of_ne hnot]
    exact h.others s fun hb => hs (OwnerBelow.succ_iff.2 (.inl hb))
  · exact hmaxeq.trans_lt (max_lt h.max hen)
  · change m'.NextFree (if k + 1 < u.nSeqs then m'.nextEmpty r.next else r.next)
    rw [if_pos hk']
    refine hat.succ hsize hhead (fun i _ => hempty i) (fun i hi => hsets i (h.size ▸ hi))
      fun i hi => ?_
    exact hloose.empty (hsize.symm ▸ hi)

/-- A sequence without a cell of its own takes the next empty cell. -/
theorem Claimed.take {m : Memory} {r : Range} (h : Claimed load need u m k r) (hu : Splits u)
    (hk : k < u.nSeqs) (hs : owner u k < m.size)
    (habsent : ∀ s < m.size, m.tail s = none → need s = load none)
    (hcard : ∀ t, r.mem.tail (owner u k) = some t → (r.mem.cell t).seqId.card ≠ 1) :
    ∃ r', takeEmpty u r k = some r' ∧ Claimed load need u m (k + 1) r' := by
  obtain ⟨d, hat⟩ := h.next_free hu hk hs hcard
  obtain ⟨hmin, hmine, hmax, hmaxe, -⟩ := widen_bounds r r.next
  have hsn : owner u k < r.mem.size := h.size.symm ▸ hs
  have hnot := not_ownerBelow hu hk
  have hen : r.next < r.mem.size := by
    have hlt := Nat.mod_lt (r.mem.head + d) (Nat.zero_lt_of_lt hsn)
    rw [← hat.2.1] at hlt
    exact hlt
  have hempty : r.mem.emptyAt r.next = true := emptyAt_iff.2 (h.loose.empty hen hat.2.2.1)
  have hwide : Loose load need (OwnerBelow u k) (r.widen r.next).min (r.widen r.next).max r.mem :=
    h.loose.mono (fun _ hs => hs) hmin hmax
  have hshared : ∀ i, r.mem.tail (owner u k) = some i → r.mem.tailsAt i ≠ {owner u k} := by
    intro i hi he
    have hsets := (h.loose.holds hsn hnot hi).2.2
    refine hcard i hi ?_
    rw [hsets, he, Finset.card_singleton]
  rw [takeEmpty]
  dsimp only
  rw [if_neg fun hbad => hbad.elim (Nat.not_le.2 hen) fun hf => hf hempty]
  cases ht : r.mem.tail (owner u k) with
  | none =>
    refine ⟨_, rfl, h.taken hu hk hs hshared hat rfl rfl rfl (fun _ _ _ => Iff.rfl) ?_⟩
    refine hwide.take_fresh hsn ht (habsent _ hs ?_) hen hat.2.2.1
    rw [← h.others _ hnot]
    exact ht
  | some t =>
    obtain ⟨htn, hmem, htails⟩ := h.loose.holds hsn hnot ht
    have hleft : (r.mem.cell t).seqId.erase (owner u k) ≠ ∅ := by
      rw [Ne, Finset.erase_eq_empty_iff]
      rintro (he | he)
      · exact Finset.ne_empty_of_mem hmem he
      · exact hcard t ht (he ▸ Finset.card_singleton _)
    have hte : t ≠ r.next := by
      rintro rfl
      exact Finset.ne_empty_of_mem hmem (emptyAt_iff.1 hempty)
    obtain ⟨m', hm', hcopy⟩ := copyTail_copied hte (emptyAt_iff.1 hempty) hleft
    rw [Option.elim_some, hm']
    refine ⟨_, rfl, h.taken hu hk hs hshared hat hcopy.size hcopy.head ?_ (fun i _ hi => ?_) ?_⟩
    · rw [setTail_tail, hcopy.tail]
    · change (m'.cell i).seqId = ∅ ↔ _
      by_cases hit : i = t
      · rw [hit, hcopy.left]
        exact iff_of_false hleft (Finset.ne_empty_of_mem hmem)
      · rw [hcopy.other i hi hit]
    · exact hwide.take_copy hsn hnot ht hleft hen hat.2.2.1 hmine hmaxe hcopy

theorem Claimed.step {m : Memory} {r : Range} (h : Claimed load need u m k r) (hu : Splits u)
    (hk : k < u.nSeqs) (hs : owner u k < m.size)
    (habsent : ∀ s < m.size, m.tail s = none → need s = load none) :
    ∃ r', claimTurn u r k = some r' ∧ Claimed load need u m (k + 1) r' := by
  rw [claimTurn]
  cases ht : r.mem.tail (owner u k) with
  | none => exact h.take hu hk hs habsent fun t ht' => by rw [ht] at ht'; cases ht'
  | some t =>
    obtain ⟨htn, hmem, htails⟩ := h.loose.holds (h.size.symm ▸ hs) (not_ownerBelow hu hk) ht
    rw [Option.elim_some]
    dsimp only
    rw [if_neg (not_not.2 hmem)]
    by_cases hcard : (r.mem.cell t).seqId.card = 1
    · rw [if_pos hcard]
      exact ⟨_, rfl, h.keep hu hk hs ht hcard⟩
    · rw [if_neg hcard]
      refine h.take hu hk hs habsent fun t' ht' => ?_
      rw [← Option.some.inj (ht.symm.trans ht')]
      exact hcard

/-! ### Positions -/

/-- The cells in use have the positions of the cells that their states came from. -/
def PosFrom (m g : Memory) : Prop :=
  ∀ i < m.size, (g.cell i).seqId ≠ ∅ → ∀ j, (g.cell i).src = some j →
    (g.cell i).pos = (m.cell j).pos

theorem Booked.posFrom {m : Memory} (h : m.Booked) : PosFrom m m := by
  intro i hi _ j hj
  rw [h.own i hi j hj]

theorem PosFrom.copyTail {m g g' : Memory} (hp : PosFrom m g) (ht : t < m.size)
    (h : g.copyTail s t e = some g') : PosFrom m g' := by
  rw [Memory.copyTail] at h
  dsimp only at h
  rw [Option.ite_none_left_eq_some] at h
  obtain ⟨hleft, h⟩ := h
  cases h
  have hused : (g.cell t).seqId ≠ ∅ := by
    intro he
    rw [he] at hleft
    exact hleft rfl
  intro i hi hne j hj
  by_cases hie : i = e
  · rw [hie, put_self] at hj ⊢
    exact hp t ht hused j hj
  · rw [put_other hie] at hne hj ⊢
    by_cases hit : i = t
    · rw [hit, put_self] at hj ⊢
      exact hp t ht hused j hj
    · rw [put_other hit] at hne hj ⊢
      exact hp i hi hne j hj

theorem PosFrom.takeEmpty {m : Memory} {r r' : Range} (hp : PosFrom m r.mem)
    (ht : ∀ t, r.mem.tail (owner u k) = some t → t < m.size)
    (h : takeEmpty u r k = some r') : PosFrom m r'.mem := by
  rw [Memory.takeEmpty] at h
  dsimp only at h
  rw [Option.ite_none_left_eq_some] at h
  obtain ⟨_, h⟩ := h
  obtain ⟨g, hg, h⟩ := Option.bind_eq_some_iff.1 h
  cases h
  have hpg : PosFrom m g := by
    cases htail : r.mem.tail (owner u k) with
    | none =>
      rw [htail] at hg
      cases hg
      exact hp
    | some t =>
      rw [htail] at hg
      exact hp.copyTail (ht t htail) hg
  exact hpg

/-- The claim of a cell takes the position of a state along. -/
theorem Claimed.posFrom {m : Memory} {r r' : Range} (h : Claimed load need u m k r)
    (hs : owner u k < m.size) (hp : PosFrom m r.mem) (ht : claimTurn u r k = some r') :
    PosFrom m r'.mem := by
  have hin : ∀ t, r.mem.tail (owner u k) = some t → t < m.size := by
    intro t htail
    rw [← h.size]
    exact h.loose.tails _ (h.size.symm ▸ hs) t htail
  rw [claimTurn] at ht
  cases htail : r.mem.tail (owner u k) with
  | none =>
    rw [htail] at ht
    exact hp.takeEmpty hin ht
  | some t =>
    rw [htail, Option.elim_some] at ht
    dsimp only at ht
    split_ifs at ht
    · cases ht
      exact hp
    · exact hp.takeEmpty hin ht

theorem Claimed.run_posFrom {m : Memory} {r : Range} (h : Claimed load need u m 0 r)
    (hu : Splits u) (hs : ∀ k < u.nSeqs, owner u k < m.size)
    (habsent : ∀ s < m.size, m.tail s = none → need s = load none) (hp : PosFrom m r.mem) :
    ∃ r', (List.range u.nSeqs).foldlM (claimTurn u) r = some r' ∧
      Claimed load need u m u.nSeqs r' ∧ PosFrom m r'.mem := by
  apply sweep_range (I := fun k r => Claimed load need u m k r ∧ PosFrom m r.mem) ⟨h, hp⟩
  rintro k r hk ⟨hc, hp⟩
  obtain ⟨r', hr', hc'⟩ := hc.step hu hk (hs k hk) habsent
  exact ⟨r', hr', hc', hc.posFrom (hs k hk) hp hr'⟩

end Memory
end ActQuant.Recurrent
