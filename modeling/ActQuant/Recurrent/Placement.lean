import ActQuant.Recurrent.States

namespace ActQuant.Recurrent
open ActQuant.Batch ActQuant.KvCache ActQuant.Lib

/-! Where `find_slot` puts the states of a ubatch, and from which cells the graph will load them. -/

/-- A ubatch of sequence sets. -/
structure SeqSets (u : Ubatch) : Prop extends Splits u where
  nodup : ∀ k < u.nSeqs, (seqsOf u k).Nodup

/-- The first sequence of a set does not come again. -/
theorem SeqSets.owner_first {u : Ubatch} (hu : SeqSets u) (hk : k < u.nSeqs) :
    ¬ Later u (owner u k) := by
  rintro ⟨j, hj, hmem⟩
  obtain rfl : j = k := by
    by_contra hne
    exact hu.apart j hj k hk hne _ (List.mem_of_mem_tail hmem) (hu.owner_mem hk)
  have hnd := hu.nodup j hj
  rw [owner] at hmem
  cases hs : seqsOf u j with
  | nil =>
    rw [hs] at hmem
    cases hmem
  | cons s l =>
    rw [hs] at hmem hnd
    exact (List.nodup_cons.1 hnd).1 hmem

namespace Memory

variable {u : Ubatch}

/-- The cell that the next graph loads a state from. -/
def source (m : Memory) (i : Nat) : Option Nat :=
  if m.head ≤ i ∧ i < m.head + m.n then (m.cell i).src0 else (m.cell i).src

/-- An empty cell that is its own source: an earlier graph has cleared its buffer. -/
def Blank (m : Memory) (e : Nat) : Prop :=
  e < m.size ∧ (m.cell e).seqId = ∅ ∧ (m.cell e).src = some e

/-- A cell gets the state that a cell had before or, where there was none, a cleared one: from the
cell that the graph clears, or from a cell that is clear already. -/
def Brings (m m' : Memory) (i : Nat) : Option Nat → Prop
  | some t => m'.source i = some t
  | none => ∃ e, m'.source i = some e ∧ (m'.rsZ = some e ∨ m.Blank e)

/-- The sequence is in no set of the ubatch. -/
def Outside (u : Ubatch) (s : Nat) : Prop := ∀ k < u.nSeqs, s ∉ seqsOf u k

/-- What `find_slot` has done for a ubatch. -/
structure Placed (u : Ubatch) (m m' : Memory) : Prop where
  booked : m'.Booked
  size : m'.size = m.size
  wide : u.nSeqs ≤ m'.n
  bound : m'.head + m'.n ≤ m'.size
  slots : ∀ k < u.nSeqs, (m'.cell (m'.head + k)).seqId = (seqsOf u k).toFinset ∧
    (m'.cell (m'.head + k)).pos = lastPos u k
  states : ∀ k < u.nSeqs, Brings m m' (m'.head + k) (m.tail (owner u k))
  others : ∀ s < m.size, Outside u s → (m'.tail s = none ↔ m.tail s = none) ∧
    ∀ t i, m.tail s = some t → m'.tail s = some i →
      Brings m m' i (some t) ∧ (m'.cell i).pos = (m.cell t).pos
  spare : ∀ i, m'.head ≤ i → i < m'.head + m'.n → (m'.cell i).seqId = ∅ → Brings m m' i none
  cleared : ∀ s < m.size, Outside u s ∨ (∃ k < u.nSeqs, s = owner u k) →
    ∀ z, m'.rsZ = some z → m.tail s ≠ some z

/-! ### The check of the sequences -/

theorem leave_size (m : Memory) (s : Nat) : (m.leave s).size = m.size := by
  cases ht : m.tail s with
  | none => rw [leave_none ht]
  | some t => exact (leave_some ht).1

/-- A cell that is left by a sequence stays at its position until it is empty. -/
theorem leave_pos {m : Memory} (h : ((m.leave s).cell i).seqId ≠ ∅) :
    ((m.leave s).cell i).pos = (m.cell i).pos := by
  cases ht : m.tail s with
  | none => rw [leave_none ht]
  | some t =>
    have hcell := (leave_some ht).2.2.2.1
    rw [hcell] at h ⊢
    by_cases hi : i = t
    · subst hi
      rw [Function.update_self] at h ⊢
      split_ifs at h ⊢ with he
      · exact absurd rfl h
      · rfl
    · rw [Function.update_of_ne hi]

/-- Where all sequences are below the size, the check does not give up. -/
theorem unshare_total {l : List (Nat × Nat)} {m : Memory} (h : ∀ a ∈ l, a.1 < m.size) :
    ∃ m', l.foldlM unshareTurn m = .ok m' := by
  induction l generalizing m with
  | nil => exact ⟨m, rfl⟩
  | cons a l ih =>
    have ha := h a List.mem_cons_self
    have hrest : ∀ b ∈ l, b.1 < m.size := fun b hb => h b (List.mem_cons_of_mem _ hb)
    rw [List.foldlM_cons, unshareTurn, if_neg (Nat.not_le.2 ha)]
    split_ifs
    · apply ih
      rwa [leave_size]
    · exact ih hrest

theorem unshare_pos {l : List (Nat × Nat)} {m m' : Memory} (hb : m.Booked)
    (h : l.foldlM unshareTurn m = .ok m') (hi : i < m.size) (hne : (m'.cell i).seqId ≠ ∅) :
    (m'.cell i).pos = (m.cell i).pos := by
  induction l generalizing m with
  | nil =>
    cases h
    rfl
  | cons a l ih =>
    rw [List.foldlM_cons] at h
    cases hturn : unshareTurn m a with
    | error m₁ =>
      rw [hturn] at h
      cases h
    | ok m₁ =>
      rw [hturn] at h
      obtain ⟨hstep, _, _⟩ := hb.unshareTurn_ok hturn
      have hrest := ih hstep.booked h (hstep.shrunk.size.symm ▸ hi)
      rw [hrest]
      have hshrunk := (hstep.booked.unshare_ok h).1.shrunk
      have hused : (m₁.cell i).seqId ≠ ∅ := by
        intro he
        exact hne (Finset.subset_empty.1 (he ▸ hshrunk.subset i (hstep.shrunk.size.symm ▸ hi)))
      rw [unshareTurn] at hturn
      split_ifs at hturn
      · cases hturn
        exact leave_pos hused
      · cases hturn
        rfl

/-! ### The states -/

/-- The cell that a source stands for, none where it is clear. -/
def stateOf (m : Memory) (src : Option Nat) : Option Nat :=
  src.filter fun e => ¬ ((m.cell e).seqId = ∅ ∧ (m.cell e).src = some e)

theorem stateOf_some {m : Memory} (h : m.stateOf src = some t) : src = some t :=
  (Option.filter_eq_some_iff.1 h).1

theorem stateOf_none {m : Memory} (h : m.stateOf src = none) (he : src = some e) :
    (m.cell e).seqId = ∅ ∧ (m.cell e).src = some e := by
  subst he
  rw [stateOf, Option.filter_some] at h
  by_contra hno
  rw [if_pos (decide_eq_true hno)] at h
  cases h

theorem Booked.stateOf_loaded {m : Memory} (h : m.Booked) (hi : i < m.size)
    (hs : s ∈ (m.cell i).seqId) : m.stateOf (m.cell i).src = m.tail s := by
  have hne := Finset.ne_empty_of_mem hs
  have htail : m.tail s = some i := by
    rw [h.sets i hi] at hs
    exact (mem_tailsAt.1 hs).2
  rw [h.kept i hi hne, htail, stateOf, Option.filter_some, if_pos]
  exact decide_eq_true fun hblank => hne hblank.1

theorem Booked.stateOf_fresh {m : Memory} (h : m.Booked) (hi : i < m.size)
    (he : (m.cell i).seqId = ∅) : m.stateOf (m.cell i).src = none := by
  cases hsrc : (m.cell i).src with
  | none => rfl
  | some j =>
    obtain rfl := h.own i hi j hsrc
    rw [stateOf, Option.filter_some, if_neg]
    rw [decide_eq_true_eq, not_not]
    exact ⟨he, hsrc⟩

theorem Shrunk.blank {m m' : Memory} (h : Shrunk m m') (hi : i < m.size)
    (he : (m'.cell i).seqId = ∅) (hsrc : (m'.cell i).src = some i) : m.Blank i := by
  rcases h.src i hi with ⟨hsame, hempty⟩ | ⟨hnone, _⟩
  · exact ⟨hi, hempty he, hsame.symm.trans hsrc⟩
  · rw [hnone] at hsrc
    cases hsrc

variable {σ : Type} {load : Option Nat → σ} {need : Nat → σ} {src : Nat → Option Nat}

/-- Staged or not, the graph loads a state from where it is. -/
theorem Filled.source_some {m' : Memory} (h : Filled load need u src m') (hi : i < m'.size)
    (hsrc : src i = some t) : m'.source i = some t := by
  rw [source]
  by_cases hin : m'.head ≤ i ∧ i < m'.head + m'.n
  · rw [if_pos hin, (h.staged i hin.1 hin.2).2.1, if_neg, hsrc]
    rw [hsrc]
    exact Option.some_ne_none t
  · rw [if_neg hin, (h.own i hi hin).1, hsrc]

theorem Filled.brings_none {m m' : Memory} (h : Filled load need u src m')
    (hin : m'.head ≤ i ∧ i < m'.head + m'.n) (hblank : ∀ e, src i = some e → m.Blank e) :
    Brings m m' i none := by
  have hbound := h.bound
  cases hsrc : src i with
  | none =>
    obtain ⟨_, hsrc0, hzero⟩ := h.staged i hin.1 hin.2
    obtain ⟨z, hz⟩ := Option.ne_none_iff_exists'.1 (hzero hsrc)
    rw [if_pos hsrc, hz] at hsrc0
    refine ⟨z, ?_, .inl hz⟩
    rw [source, if_pos hin, hsrc0]
  | some e => exact ⟨e, h.source_some (by omega) hsrc, .inr (hblank e hsrc)⟩

theorem outside_not_later {u : Ubatch} (h : Outside u s) : ¬ Later u s := by
  rintro ⟨k, hk, hmem⟩
  exact h k hk (List.mem_of_mem_tail hmem)

theorem Checked.placed {m₀ m : Memory} (h : Checked u m₀ m) (hu : SeqSets u)
    (hpos : ∀ i < m₀.size, (m.cell i).seqId ≠ ∅ → (m.cell i).pos = (m₀.cell i).pos) :
    ∃ m', m.findRange u = some ⟨true, m', []⟩ ∧ Placed u m₀ m' := by
  have hb := h.booked
  have hsize := h.shrunk.size
  obtain ⟨src, m', hfound, hsize', hbooked, hfilled, hout, hkept⟩ :=
    @Checked.findRange_kept (Option Nat) m.stateOf m.tail u m₀ m h hu.toSplits
      (fun i hi s hs => hb.stateOf_loaded hi hs) (fun i hi he => hb.stateOf_fresh hi he)
      (fun s _ hs => hs)
  have hwide := hfilled.wide
  have hbound := hfilled.bound
  have howner : ∀ k < u.nSeqs, m.tail (owner u k) = m₀.tail (owner u k) := by
    intro k hk
    rw [h.cleared, if_neg (hu.owner_first hk)]
  have houtside : ∀ s, Outside u s → m.tail s = m₀.tail s := by
    intro s hs
    rw [h.cleared, if_neg (outside_not_later hs)]
  have hblank : ∀ i < m'.size, m.stateOf (src i) = none → ∀ e, src i = some e → m₀.Blank e := by
    intro i hi hnone e he
    obtain ⟨hempty, hself⟩ := stateOf_none hnone he
    have hlt := (hfilled.spared i hi e he).1
    exact h.shrunk.blank (by omega) hempty hself
  -- a sequence outside of the sets has a cell that comes from the one it had
  have hcell : ∀ s < m₀.size, Outside u s → ∀ t i, m₀.tail s = some t → m'.tail s = some i →
      i < m'.size ∧ s ∈ (m'.cell i).seqId ∧ (∀ k < u.nSeqs, i ≠ m'.head + k) ∧ src i = some t := by
    intro s hs hsout t i ht hi
    obtain ⟨hin, hmem⟩ := (hbooked.tail_iff (by omega)).1 hi
    have hno : ∀ k < u.nSeqs, i ≠ m'.head + k := by
      rintro k hk rfl
      rw [(hfilled.slots k hk).1] at hmem
      exact hsout k hk (List.mem_toFinset.1 hmem)
    have hload := hfilled.others i hin hno s hmem
    rw [houtside s hsout, ht] at hload
    exact ⟨hin, hmem, hno, stateOf_some hload⟩
  refine ⟨m', hfound, hbooked, hsize'.trans hsize, hwide, hbound, ?_, ?_, ?_, ?_, ?_⟩
  · intro k hk
    exact ⟨(hfilled.slots k hk).1, (hfilled.slots k hk).2.1⟩
  · intro k hk
    have hload := (hfilled.slots k hk).2.2
    rw [howner k hk] at hload
    cases ht : m₀.tail (owner u k) with
    | none =>
      rw [ht] at hload
      exact hfilled.brings_none (by omega) (hblank _ (by omega) hload)
    | some t =>
      rw [ht] at hload
      exact hfilled.source_some (by omega) (stateOf_some hload)
  · intro s hs hsout
    refine ⟨?_, fun t i ht hi => ?_⟩
    · rw [hout s hsout, houtside s hsout]
    · obtain ⟨hin, hmem, hno, hsrc⟩ := hcell s hs hsout t i ht hi
      refine ⟨hfilled.source_some hin hsrc, ?_⟩
      rw [hkept i (by omega) hno (Finset.ne_empty_of_mem hmem) t hsrc]
      obtain ⟨htn, htmem⟩ := (hb.tail_iff (by omega)).1 ((houtside s hsout).trans ht)
      exact hpos t (by omega) (Finset.ne_empty_of_mem htmem)
  · intro i hlo hhi he
    have hload := hfilled.fresh i (by omega) he
    exact hfilled.brings_none ⟨hlo, hhi⟩ (hblank _ (by omega) hload)
  · rintro s hs (hsout | ⟨k, hk, rfl⟩) z hz ht
    · cases hi : m'.tail s with
      | none =>
        rw [hout s hsout, houtside s hsout, ht] at hi
        cases hi
      | some i =>
        obtain ⟨hin, _, _, hsrc⟩ := hcell s hs hsout z i ht hi
        exact (hfilled.spared i hin z hsrc).2 hz
    · have hload := (hfilled.slots k hk).2.2
      rw [howner k hk, ht] at hload
      exact (hfilled.spared _ (by omega) z (stateOf_some hload)).2 hz

/-- A ubatch of sets of sequences below the size is placed: every set is in its cell of the range,
the other sequences have the states and positions that they had, and what the graph clears is
needed by none of them. -/
theorem findSlot_placed {m : Memory} (hb : m.Booked) (hu : SeqSets u)
    (hbelow : ∀ k < u.nSeqs, ∀ s ∈ seqsOf u k, s < m.size) :
    ∃ m', m.findSlot u = some ⟨true, m', []⟩ ∧ Placed u m m' := by
  obtain ⟨n, hn⟩ : ∃ n : Memory, n = { m with
    head := if m.used + 2 * u.nSeqs < m.head then 0 else m.head } := ⟨_, rfl⟩
  have hnb : n.Booked := by
    rw [hn]
    refine ⟨hb.tails, hb.sets, hb.vacant, hb.used, hb.own, hb.kept, ?_⟩
    dsimp only
    split_ifs
    · exact Nat.zero_le _
    · exact hb.head
  have hplaces : ∀ a ∈ seqPlaces u, a.1 < n.size := by
    rintro ⟨s, j⟩ ha
    obtain ⟨k, hk, hs⟩ := mem_seqPlaces.1 ha
    rw [hn]
    exact hbelow k hk s (List.mem_of_getElem? hs)
  obtain ⟨n', hn'⟩ := unshare_total hplaces
  obtain ⟨m', hfound, hplaced⟩ := (hnb.checked hn').placed hu fun i hi hne =>
    unshare_pos hnb hn' hi hne
  refine ⟨m', ?_, ?_⟩
  · rw [findSlot, ← hn, if_neg (not_not.2 hu.equal)]
    have hchecked : unshare u n = .ok n' := hn'
    rw [hchecked]
    exact hfound
  · rw [hn] at hplaced
    exact ⟨hplaced.booked, hplaced.size, hplaced.wide, hplaced.bound, hplaced.slots,
      hplaced.states, hplaced.others, hplaced.spare, hplaced.cleared⟩

/-- One token of each of some sequences. -/
def oneEach (ss : List Nat) : Ubatch := ⟨true, ss.length, ss.map fun s => ⟨0, [s], true⟩⟩

theorem seqsOf_oneEach (hk : k < ss.length) :
    ∃ s, ss[k]? = some s ∧ seqsOf (oneEach ss) k = [s] := by
  have hone : (oneEach ss).nSeqTokens = 1 := by
    change (ss.map fun s => (⟨0, [s], true⟩ : Token)).length / ss.length = 1
    rw [List.length_map, Nat.div_self (by omega)]
  have hget := List.getElem?_eq_getElem hk
  refine ⟨ss[k], hget, ?_⟩
  rw [seqsOf, hone, Nat.mul_one, oneEach, List.getD_eq_getElem?_getD, List.getElem?_map, hget]
  rfl

/-- Different sequences make sets. -/
theorem oneEach_seqSets {ss : List Nat} (hnd : ss.Nodup) (hne : ss ≠ []) :
    SeqSets (oneEach ss) := by
  refine ⟨⟨rfl, List.length_pos_iff.2 hne, ?_, ?_⟩, ?_⟩
  · intro k hk
    obtain ⟨s, _, hs⟩ := seqsOf_oneEach hk
    rw [hs]
    exact List.cons_ne_nil s []
  · intro j hj k hk hjk s hs hs'
    obtain ⟨a, ha, hsa⟩ := seqsOf_oneEach hj
    obtain ⟨b, hb, hsb⟩ := seqsOf_oneEach hk
    rw [hsa, List.mem_singleton] at hs
    rw [hsb, List.mem_singleton] at hs'
    subst hs hs'
    exact hjk ((List.getElem?_inj hj hnd).1 (ha.trans hb.symm))
  · intro k hk
    obtain ⟨s, _, hs⟩ := seqsOf_oneEach hk
    rw [hs]
    exact List.nodup_singleton s

theorem oneEach_uniform (ss : List Nat) : System.Uniform (oneEach ss) := by
  by_cases hne : ss.length = 0
  · refine ⟨by rw [List.length_eq_zero_iff.1 hne]; rfl, fun k hk => absurd hk (by
      rw [show (oneEach ss).nSeqs = 0 from hne]
      exact Nat.not_lt_zero k)⟩
  · have hone : (oneEach ss).nSeqTokens = 1 := by
      change (ss.map fun s => (⟨0, [s], true⟩ : Token)).length / ss.length = 1
      rw [List.length_map, Nat.div_self (by omega)]
    refine ⟨by rw [hone, Nat.mul_one]; exact List.length_map _, fun k hk x hx a => ?_⟩
    rw [tokensOf, hone, Nat.mul_one] at hx
    rw [seqsOf, hone, Nat.mul_one, List.getD_eq_getElem?_getD]
    obtain ⟨j, hj⟩ := List.mem_iff_getElem?.1 hx
    obtain rfl : j = 0 := by
      by_contra hpos
      rw [List.getElem?_take_eq_none (by omega)] at hj
      cases hj
    rw [List.getElem?_take_of_lt Nat.one_pos, List.getElem?_drop, Nat.add_zero] at hj
    rw [hj, Option.getD_some]

/-- Two sequences share a cell, and the second one goes on alone. -/
theorem findSlot_placed_shared :
    let ops := [.findSlot (oneEach [0]), .seqCp 0 1]
    ∃ x m', run (System.step 0 System.countTokens) (System.create 0 2) ops = some x ∧
      x.mem.tail 0 = x.mem.tail 1 ∧ x.mem.findSlot (oneEach [1]) = some ⟨true, m', []⟩ ∧
        Placed (oneEach [1]) x.mem m' := by
  have hzero := oneEach_seqSets (List.nodup_singleton 0) (List.cons_ne_nil _ _)
  have hone := oneEach_seqSets (List.nodup_singleton 1) (List.cons_ne_nil _ _)
  have hgood : EachStep (System.step 0 System.countTokens) System.Allowed (System.create 0 2)
      [.findSlot (oneEach [0]), .seqCp 0 1] :=
    ⟨⟨hzero.toSplits, oneEach_uniform _⟩, fun _ _ => ⟨trivial, fun _ _ => trivial⟩⟩
  obtain ⟨x, hx, hinv⟩ :=
    run_total (fun hI ha => System.Inv.step hI ha) (System.create_inv 2) hgood
  have hruns : (run (System.step 0 System.countTokens) (System.create 0 2)
      [.findSlot (oneEach [0]), .seqCp 0 1]).map (fun x =>
        (x.mem.size, x.mem.tail 0, x.mem.tail 1)) = some (2, some 0, some 0) := by decide
  rw [hx, Option.map_some, Option.some_inj, Prod.mk.injEq, Prod.mk.injEq] at hruns
  obtain ⟨hsize, hfirst, hsecond⟩ := hruns
  obtain ⟨m', hslot, hplaced⟩ := findSlot_placed hinv.booked hone fun k hk s hs => by
    obtain ⟨a, ha, hseqs⟩ := seqsOf_oneEach hk
    rw [hseqs, List.mem_singleton] at hs
    rw [hs, hsize]
    have := List.mem_singleton.1 (List.mem_of_getElem? ha)
    omega
  exact ⟨x, m', hx, hfirst.trans hsecond.symm, hslot, hplaced⟩

/-- Three sequences get a cell each, the second one is removed, and the others move together: the
third cell is empty and clear. The second sequence comes back to it, and no cell is cleared. -/
theorem source_not_cleared_now :
    let ops := [.findSlot (oneEach [0, 1, 2]), .seqRm 1 0 (-1), .findSlot (oneEach [0, 2])]
    ∃ x f, run (System.step 0 System.countTokens) (System.create 0 3) ops = some x ∧
      x.mem.Booked ∧ SeqSets (oneEach [1]) ∧ x.mem.findSlot (oneEach [1]) = some f ∧
      f.ok = true ∧ x.mem.tail 1 = none ∧ f.mem.source f.mem.head ≠ f.mem.rsZ := by
  have hthree := oneEach_seqSets (by decide : [0, 1, 2].Nodup) (List.cons_ne_nil _ _)
  have htwo := oneEach_seqSets (by decide : [0, 2].Nodup) (List.cons_ne_nil _ _)
  have hone := oneEach_seqSets (List.nodup_singleton 1) (List.cons_ne_nil _ _)
  have hgood : EachStep (System.step 0 System.countTokens) System.Allowed (System.create 0 3)
      [.findSlot (oneEach [0, 1, 2]), .seqRm 1 0 (-1), .findSlot (oneEach [0, 2])] := by
    refine ⟨⟨hthree.toSplits, oneEach_uniform _⟩, fun x₁ _ => ⟨fun hneg => ?_, fun x₂ _ =>
      ⟨⟨htwo.toSplits, oneEach_uniform _⟩, fun x₃ _ => trivial⟩⟩⟩
    exact absurd hneg (by decide)
  obtain ⟨x, hx, hinv⟩ :=
    run_total (fun hI ha => System.Inv.step hI ha) (System.create_inv 3) hgood
  have hruns : (run (System.step 0 System.countTokens) (System.create 0 3)
      [.findSlot (oneEach [0, 1, 2]), .seqRm 1 0 (-1), .findSlot (oneEach [0, 2])]).bind
      (fun x => (x.mem.findSlot (oneEach [1])).map fun f =>
        (x.mem.tail 1, f.ok, f.mem.source f.mem.head, f.mem.rsZ)) =
      some (none, true, some 2, none) := by decide
  rw [hx, Option.bind_some] at hruns
  obtain ⟨f, hf, h⟩ := Option.map_eq_some_iff.1 hruns
  simp only [Prod.mk.injEq] at h
  obtain ⟨htail, hok, hsource, hcleared⟩ := h
  refine ⟨x, f, hx, hinv.booked, hone, hf, hok, htail, ?_⟩
  rw [hsource, hcleared]
  exact Option.some_ne_none 2

end Memory
end ActQuant.Recurrent
