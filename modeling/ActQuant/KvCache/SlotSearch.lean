import ActQuant.KvCache.Reachable

namespace ActQuant.KvCache.Cache
open ActQuant.Lib ActQuant.Batch

/-! The search for a slot is complete: it ends, and finds one where there is one. -/

/-- How a search ends that stops early only where something is wrong. -/
def Ends (wrong : Prop) (P : α → Prop) : Option α → Prop
  | none => wrong
  | some r => P r

theorem Ends.mono {o : Option α} (h : Ends wrong P o) (hw : wrong → wrong')
    (hP : ∀ r, o = some r → P r → Q r) : Ends wrong' Q o := by
  cases o with
  | none => exact hw h
  | some r => exact hP r rfl h

theorem Ends.bind {o : Option α} {f : α → Option β} (h : Ends wrong P o) (hw : wrong → wrong')
    (hf : ∀ r, P r → Ends wrong' Q (f r)) : Ends wrong' Q (o.bind f) := by
  cases o with
  | none => exact hw h
  | some r => exact hf r h

theorem Ends.map {o : Option α} {f : α → β} (h : Ends wrong P o) (hw : wrong → wrong')
    (hf : ∀ r, P r → Q (f r)) : Ends wrong' Q (o.map f) := by
  cases o with
  | none => exact hw h
  | some r => exact hf r h

/-- A cell has a position at which the assertion of `is_empty` fails. -/
def Irregular (c : Cells) : Prop := ∃ i < c.size, ¬ (c.cell i).Regular

section Tests
variable {p : Params} {c : Cells}

/-- The usable cells of a range. -/
def usableIn (p : Params) (c : Cells) (a b : Nat) : Nat :=
  ((Finset.Ico a b).filter fun i => canUse p c i = true).card

theorem usableIn_self (p : Params) (c : Cells) (a : Nat) : usableIn p c a a = 0 := by
  rw [usableIn, Finset.Ico_self]
  rfl

theorem usableIn_add (hab : a ≤ b) (hbd : b ≤ d) :
    usableIn p c a b + usableIn p c b d = usableIn p c a d := by
  rw [usableIn, usableIn, usableIn, ← Finset.Ico_union_Ico_eq_Ico hab hbd, Finset.filter_union,
    Finset.card_union_of_disjoint]
  apply Finset.disjoint_filter_filter
  exact Finset.Ico_disjoint_Ico_consecutive a b d

theorem usableIn_succ (p : Params) (c : Cells) (a : Nat) :
    usableIn p c a (a + 1) = if canUse p c a then 1 else 0 := by
  rw [usableIn, Nat.Ico_succ_singleton, Finset.filter_singleton]
  split_ifs <;> rfl

/-- A run of cells, all of them usable. -/
def Window (p : Params) (c : Cells) (n a : Nat) : Prop :=
  a + n ≤ c.size ∧ ∀ i < n, canUse p c (a + i) = true

/-- The test of a single cell. -/
theorem testCells_one (p : Params) (c : Cells) (cur tested : Nat) (idxs : List Nat) :
    testCells p c false 1 cur tested idxs =
      if (c.cell cur).Regular then
        some (cur + 1, tested + 1, if canUse p c cur then idxs ++ [cur] else idxs)
      else none := by
  rw [testCells, ite_not]
  split_ifs <;> rfl

/-- The test of a run of cells ends with the first one that cannot be used, or stops at one. -/
theorem testCells_run (p : Params) (c : Cells) (n cur tested : Nat) (idxs : List Nat) :
    (∀ i < n, canUse p c (cur + i) = true) ∧
        testCells p c true n cur tested idxs =
          some (cur + n, tested + n, idxs ++ List.range' cur n) ∨
      (∃ j < n, canUse p c (cur + j) = false ∧
        testCells p c true n cur tested idxs =
          some (cur + j + 1, tested + j + 1, idxs ++ List.range' cur j)) ∨
      ∃ j < n, ¬ (c.cell (cur + j)).Regular ∧ testCells p c true n cur tested idxs = none := by
  induction n generalizing cur tested idxs with
  | zero => exact .inl ⟨fun i hi => absurd hi (Nat.not_lt_zero i), by simp [testCells]⟩
  | succ n ih =>
    rw [testCells]
    by_cases hreg : (c.cell cur).Regular
    case neg =>
      rw [if_pos hreg]
      exact .inr (.inr ⟨0, Nat.zero_lt_succ n, hreg, rfl⟩)
    rw [if_neg (not_not_intro hreg)]
    by_cases huse : canUse p c cur = true
    · rw [if_pos huse]
      rcases ih (cur + 1) (tested + 1) (idxs ++ [cur]) with
        ⟨hall, heq⟩ | ⟨j, hj, hno, heq⟩ | ⟨j, hj, hstop, heq⟩
      · refine .inl ⟨fun i hi => ?_, ?_⟩
        · cases i with
          | zero => exact huse
          | succ i =>
            have hi' := hall i (Nat.lt_of_succ_lt_succ hi)
            rwa [Nat.add_assoc, Nat.add_comm 1] at hi'
        · rw [heq, List.range'_succ, List.append_assoc, List.singleton_append,
            Nat.add_right_comm cur, Nat.add_right_comm tested]
          rfl
      · refine .inr (.inl ⟨j + 1, Nat.succ_lt_succ hj, ?_, ?_⟩)
        · rwa [Nat.add_assoc, Nat.add_comm 1] at hno
        · rw [heq, List.range'_succ, List.append_assoc, List.singleton_append,
            Nat.add_right_comm cur, Nat.add_right_comm tested]
          rfl
      · refine .inr (.inr ⟨j + 1, Nat.succ_lt_succ hj, ?_, heq⟩)
        rwa [Nat.add_assoc, Nat.add_comm 1] at hstop
    · rw [if_neg huse, if_pos rfl]
      refine .inr (.inl ⟨0, Nat.zero_lt_succ n, Bool.not_eq_true _ ▸ huse, ?_⟩)
      rw [List.range'_zero, List.append_nil]

end Tests

section Scattered
variable {p : Params} {c : Cells} {n start : Nat}

/-- The cells of a search cell by cell: those tested are in front of the head and behind the start
or, once the search went round, all but those from the head to the start. -/
def Counted (p : Params) (c : Cells) (start cur tested : Nat) (idxs : List Nat) : Prop :=
  start ≤ cur ∧ tested + start = cur ∧ idxs.length = usableIn p c start cur ∨
    tested + start = c.size + cur ∧
      idxs.length = usableIn p c start c.size + usableIn p c 0 cur

/-- The search ends, and where it finds nothing there are too few usable cells. -/
theorem search_scattered_ends (hstart : start ≤ c.size) (hcur : cur ≤ c.size)
    (htested : tested < c.size) (hlen : idxs.length < n)
    (hinv : Counted p c start cur tested idxs)
    (hfuel : c.size - tested + (if tested + start = cur then 1 else 0) ≤ fuel) :
    Ends (Irregular c) (fun r => r = none → usableIn p c 0 c.size < n)
      (search p c false n fuel cur tested idxs) := by
  induction fuel generalizing cur tested idxs with
  | zero => omega
  | succ fuel ih =>
    rw [search]
    simp only [Bool.false_eq_true, if_false, testCells_one]
    by_cases hwrap : c.size < cur + 1
    · rw [if_pos hwrap]
      have hend : cur = c.size := by omega
      subst hend
      rcases hinv with ⟨hle, hsum, hcount⟩ | ⟨hsum, _⟩
      · have hpos : start ≠ 0 := by omega
        apply ih (Nat.zero_le _) (by omega) hlen
        · refine .inr ⟨by omega, ?_⟩
          rw [usableIn_self, Nat.add_zero]
          exact hcount
        · split_ifs at hfuel ⊢ <;> omega
      · omega
    · rw [if_neg hwrap]
      have hfit : cur < c.size := by omega
      by_cases hreg : (c.cell cur).Regular
      case neg =>
        rw [if_neg hreg]
        exact ⟨cur, hfit, hreg⟩
      rw [if_pos hreg, Option.bind_some]
      dsimp only
      set idxs' := if canUse p c cur then idxs ++ [cur] else idxs with hidxs
      have hadd : idxs'.length = idxs.length + usableIn p c cur (cur + 1) := by
        rw [usableIn_succ, hidxs]
        split_ifs <;> simp
      have hone : usableIn p c cur (cur + 1) ≤ 1 := by
        rw [usableIn_succ]
        split_ifs <;> omega
      have hinv' : Counted p c start (cur + 1) (tested + 1) idxs' := by
        rcases hinv with ⟨hle, hsum, hcount⟩ | ⟨hsum, hcount⟩
        · refine .inl ⟨by omega, by omega, ?_⟩
          rw [hadd, hcount, usableIn_add hle (Nat.le_succ cur)]
        · refine .inr ⟨by omega, ?_⟩
          rw [hadd, hcount, Nat.add_assoc, usableIn_add (Nat.zero_le cur) (Nat.le_succ cur)]
      by_cases hfound : idxs'.length = n
      · rw [if_pos hfound]
        exact fun h => by cases h
      · have hmore : idxs'.length < n := by omega
        rw [if_neg hfound]
        by_cases hdone : c.size ≤ tested + 1
        · rw [if_pos hdone]
          intro _
          have hall : idxs'.length = usableIn p c 0 c.size := by
            rcases hinv' with ⟨_, hsum, hcount⟩ | ⟨hsum, hcount⟩
            · have hzero : start = 0 := by omega
              have hcend : cur + 1 = c.size := by omega
              rw [hcount, hzero, hcend]
            · have hcstart : cur + 1 = start := by omega
              rw [hcount, hcstart, Nat.add_comm, usableIn_add (Nat.zero_le _) hstart]
          omega
        · rw [if_neg hdone]
          apply ih hfit (by omega) hmore hinv'
          split_ifs at hfuel ⊢ <;> omega

end Scattered

section Continuous
variable {p : Params} {c : Cells} {n start : Nat}

/-- Where a search for a run has been without finding one: two rounds may still come, one, or
none. -/
def Tried (p : Params) (c : Cells) (n start : Nat) : Nat → Nat → Nat → Prop
  | 0, cur, tested => cur = 0 ∧ c.size ≤ tested ∧ ∀ a, ¬ Window p c n a
  | 1, cur, tested => tested + start = c.size + cur ∧
      ∀ a, start ≤ a ∨ a < cur → ¬ Window p c n a
  | _ + 2, cur, tested => start ≤ cur ∧ tested + start = cur ∧
      ∀ a, start ≤ a → a < cur → ¬ Window p c n a

/-- Going round, no run is left out: one that begins behind the head does not fit. -/
theorem Tried.wrap (hn : c.size < cur + n) (hn' : n ≤ c.size) (hcur : cur ≤ c.size)
    (hstart : start ≤ c.size) (h : Tried p c n start wraps cur tested) :
    ∃ wraps', wraps = wraps' + 1 ∧ Tried p c n start (min wraps' 1) 0
      (tested + (c.size - cur)) := by
  have hfit (a : Nat) (ha : cur ≤ a) : ¬ Window p c n a := by
    intro hw
    have hle := hw.1
    omega
  match wraps with
  | 0 =>
    obtain ⟨rfl, _, _⟩ := h
    omega
  | 1 =>
    obtain ⟨hsum, hno⟩ := h
    refine ⟨0, rfl, rfl, by omega, fun a => ?_⟩
    by_cases ha : a < cur
    · exact hno a (.inr ha)
    · exact hfit a (Nat.not_lt.1 ha)
  | wraps + 2 =>
    obtain ⟨hle, hsum, hno⟩ := h
    refine ⟨wraps + 1, rfl, ?_⟩
    have hmin : min (wraps + 1) 1 = 1 := by omega
    rw [hmin]
    refine ⟨by omega, fun a ha => ?_⟩
    by_cases hlt : a < cur
    · exact hno a (ha.resolve_right (Nat.not_lt_zero a)) hlt
    · exact hfit a (Nat.not_lt.1 hlt)

/-- A cell that cannot be used rules out the runs that it is in. -/
theorem Tried.skip (hj : j < n) (hno : canUse p c (cur + j) = false)
    (h : Tried p c n start (wraps + 1) cur tested) :
    Tried p c n start (wraps + 1) (cur + j + 1) (tested + j + 1) := by
  have hrun (a : Nat) (ha : cur ≤ a) (ha' : a < cur + j + 1) : ¬ Window p c n a := by
    intro hw
    have huse := hw.2 (cur + j - a) (by omega)
    have hadd : a + (cur + j - a) = cur + j := by omega
    rw [hadd, hno] at huse
    cases huse
  match wraps with
  | 0 =>
    obtain ⟨hsum, hnone⟩ := h
    refine ⟨by omega, fun a ha => ?_⟩
    by_cases hlt : a < cur
    · exact hnone a (.inr hlt)
    · rcases ha with ha | ha
      · exact hnone a (.inl ha)
      · exact hrun a (Nat.not_lt.1 hlt) ha
  | wraps + 1 =>
    obtain ⟨hle, hsum, hnone⟩ := h
    refine ⟨by omega, by omega, fun a ha ha' => ?_⟩
    by_cases hlt : a < cur
    · exact hnone a ha hlt
    · exact hrun a (Nat.not_lt.1 hlt) ha'

/-- A search that gives up has tried all runs. -/
theorem Tried.all (hdone : c.size ≤ tested) (hcur : cur ≤ c.size)
    (h : Tried p c n start wraps cur tested) (hn : 0 < n) : ∀ a, ¬ Window p c n a := by
  intro a hw
  have hle := hw.1
  match wraps with
  | 0 => exact h.2.2 a hw
  | 1 =>
    obtain ⟨hsum, hno⟩ := h
    exact hno a (by omega) hw
  | _ + 2 =>
    obtain ⟨_, hsum, hno⟩ := h
    exact hno a (by omega) (by omega) hw

/-- The search for a run ends, with one or after having tried all. -/
theorem search_continuous_ends (hn : 0 < n) (hn' : n ≤ c.size) (hstart : start ≤ c.size)
    (hcur : cur ≤ c.size) (hwraps : wraps ≤ 2) (hinv : Tried p c n start wraps cur tested)
    (hfuel : c.size - tested + 1 + wraps ≤ fuel) :
    Ends (Irregular c) (fun r => (r = none → ∀ a, ¬ Window p c n a) ∧
      ∀ out, r = some out → ∃ a, out = List.range' a n ∧ Window p c n a)
      (search p c true n fuel cur tested []) := by
  induction fuel generalizing cur tested wraps with
  | zero => omega
  | succ fuel ih =>
    rw [search]
    simp only [if_true]
    by_cases hwrap : c.size < cur + n
    · rw [if_pos hwrap]
      obtain ⟨wraps', rfl, htried⟩ := hinv.wrap hwrap hn' hcur hstart
      exact ih (Nat.zero_le _) (by omega) htried (by omega)
    · rw [if_neg hwrap]
      rcases testCells_run p c n cur tested [] with
        ⟨hall, heq⟩ | ⟨j, hj, hno, heq⟩ | ⟨j, hj, hstop, heq⟩
      · simp only [heq, Option.bind_some, List.nil_append, List.length_range', if_true]
        refine ⟨fun h => absurd h (Option.some_ne_none _), fun out hout => ?_⟩
        exact ⟨cur, (Option.some.inj hout).symm, by omega, hall⟩
      · have hlen : ¬ (List.range' cur j).length = n := by
          rw [List.length_range']
          omega
        simp only [heq, Option.bind_some, List.nil_append, if_neg hlen]
        by_cases hdone : c.size ≤ tested + j + 1
        · rw [if_pos hdone]
          refine ⟨fun _ => ?_, fun out hout => by cases hout⟩
          cases wraps with
          | zero => exact hinv.2.2
          | succ wraps => exact (hinv.skip hj hno).all hdone (by omega) hn
        · rw [if_neg hdone]
          cases wraps with
          | zero =>
            have hge := hinv.2.1
            omega
          | succ wraps => exact ih (by omega) hwraps (hinv.skip hj hno) (by omega)
      · rw [heq, Option.bind_none]
        exact ⟨cur + j, by omega, hstop⟩

end Continuous

section Slots
variable {p : Params} {k : Cache} {u : Ubatch} {n : Nat} {cont : Bool}

/-- A cell that a token may go to: it is empty, or it is held by one sequence at a position that
the next one of the sequence does not see. -/
def Usable (p : Params) (c : Cells) (i : Nat) : Prop :=
  (c.cell i).pos = -1 ∨
    ∃ s, (c.cell i).seq = {s} ∧ p.isMaskedSwa (c.cell i).pos (c.seqPosMax s + 1) = true

theorem canUse_iff : canUse p c i = true ↔ Usable p c i := by
  rw [canUse, Usable, Bool.or_eq_true, Bool.and_eq_true, Cell.isEmpty_eq, beq_iff_eq,
    Cell.seqCount, Finset.card_eq_one]
  refine or_congr_right ?_
  constructor
  · rintro ⟨⟨s, hs⟩, hmasked⟩
    refine ⟨s, hs, ?_⟩
    rwa [Cell.seqGet_of_eq hs] at hmasked
  · rintro ⟨s, hs, hmasked⟩
    refine ⟨⟨s, hs⟩, ?_⟩
    rwa [Cell.seqGet_of_eq hs]

instance (p : Params) (c : Cells) (i : Nat) : Decidable (Usable p c i) :=
  decidable_of_iff _ canUse_iff

/-- There are so many usable cells or, for a continuous slot, a run of them. -/
def Room (p : Params) (c : Cells) (cont : Bool) (n : Nat) : Prop :=
  if cont then ∃ a, a + n ≤ c.size ∧ ∀ i < n, Usable p c (a + i)
  else n ≤ ((Finset.range c.size).filter (Usable p c)).card

theorem usableIn_eq (p : Params) (c : Cells) :
    usableIn p c 0 c.size = ((Finset.range c.size).filter (Usable p c)).card := by
  rw [usableIn, Nat.Ico_zero_eq_range]
  congr 1
  exact Finset.filter_congr fun i _ => canUse_iff

theorem window_iff : Window p c n a ↔ a + n ≤ c.size ∧ ∀ i < n, Usable p c (a + i) := by
  rw [Window]
  simp only [canUse_iff]

/-- The heads lie in their streams or just behind them. -/
def HeadsFit (k : Cache) : Prop := ∀ t, k.head t ≤ (k.cells t).size

/-- As many different usable cells as wanted are room. -/
theorem room_of_found {out : List Nat} (hlen : out.length = n) (hnd : out.Nodup)
    (hout : ∀ i ∈ out, i < c.size ∧ canUse p c i = true) : Room p c false n := by
  rw [Room, if_neg Bool.false_ne_true, ← hlen, ← List.toFinset_card_of_nodup hnd]
  apply Finset.card_le_card
  intro i hi
  obtain ⟨hlt, huse⟩ := hout i (List.mem_toFinset.1 hi)
  exact Finset.mem_filter.2 ⟨Finset.mem_range.2 hlt, canUse_iff.1 huse⟩

theorem slotFor_ends (hk : HeadsFit k) (hn : 0 < n) (t : Nat) :
    Ends (Irregular (k.cells t)) (fun r => r.isSome ↔ Room p (k.cells t) cont n)
      (slotFor p k cont n t) := by
  rw [slotFor]
  by_cases hfit : (k.cells t).size < n
  · rw [if_pos hfit]
    refine iff_of_false Bool.false_ne_true fun hroom => ?_
    rw [Room] at hroom
    split_ifs at hroom
    · obtain ⟨a, ha, _⟩ := hroom
      omega
    · have hcard := Finset.card_filter_le (Finset.range (k.cells t).size) (Usable p (k.cells t))
      rw [Finset.card_range] at hcard
      omega
  · rw [if_neg hfit]
    have hcur : (if (k.cells t).getUsed + 2 * n < k.head t then 0 else k.head t) ≤
        (k.cells t).size := by
      split_ifs
      · exact Nat.zero_le _
      · exact hk t
    generalize (if (k.cells t).getUsed + 2 * n < k.head t then 0 else k.head t) = cur at hcur ⊢
    cases cont with
    | true =>
      have hno : Tried p (k.cells t) n cur 2 cur 0 :=
        ⟨le_rfl, Nat.zero_add cur, fun a ha ha' => absurd ha' (Nat.not_lt.2 ha)⟩
      have hfuel : (k.cells t).size - 0 + 1 + 2 ≤ 2 * (k.cells t).size + 2 := by omega
      have hends := search_continuous_ends hn (Nat.not_lt.1 hfit) hcur hcur le_rfl hno hfuel
      refine Ends.mono hends id ?_
      rintro r _ ⟨hnone, hsome⟩
      rw [Room, if_pos rfl]
      constructor
      · intro h
        obtain ⟨out, hout⟩ := Option.isSome_iff_exists.1 h
        obtain ⟨a, _, hw⟩ := hsome out hout
        exact ⟨a, window_iff.1 hw⟩
      · rintro ⟨a, hw⟩
        rw [Option.isSome_iff_ne_none]
        exact fun h => hnone h a (window_iff.2 hw)
    | false =>
      have hcount : Counted p (k.cells t) cur cur 0 [] :=
        .inl ⟨le_rfl, Nat.zero_add cur, by rw [usableIn_self]; rfl⟩
      have hfuel : (k.cells t).size - 0 + (if 0 + cur = cur then 1 else 0) ≤
          2 * (k.cells t).size + 2 := by
        rw [if_pos (Nat.zero_add cur)]
        omega
      have hends := search_scattered_ends hcur hcur (by omega) hn hcount hfuel
      refine Ends.mono hends id fun r hr hnone => ?_
      constructor
      · intro h
        obtain ⟨out, rfl⟩ := Option.isSome_iff_exists.1 h
        obtain ⟨hlen, hnd, hout⟩ := search_scattered hcur hcur (by omega)
          ⟨List.nodup_nil, fun _ hi => absurd hi List.not_mem_nil,
            .inl ⟨Nat.zero_add cur, fun _ hi => absurd hi List.not_mem_nil⟩⟩ hr
        exact room_of_found hlen hnd hout
      · intro hroom
        rw [Room, if_neg Bool.false_ne_true, ← usableIn_eq] at hroom
        rw [Option.isSome_iff_ne_none]
        intro h
        have hfew := hnone h
        omega

theorem findSlots_ends (hk : HeadsFit k) (hn : 0 < n)
    (hs : 1 < p.nStream → ∀ i s, seqs[i]? = some s →
      (u.tokens[(m + i) * n]?).map Token.seqId = some [s]) :
    Ends (∃ s ∈ seqs, Irregular (k.cells (p.stream s)))
      (fun r => r.isSome ↔ ∀ s ∈ seqs, Room p (k.cells (p.stream s)) cont n)
      (findSlots p k u cont n m seqs) := by
  induction seqs generalizing m with
  | nil => exact iff_of_true rfl fun _ hs => absurd hs List.not_mem_nil
  | cons s seqs ih =>
    have hassert : ¬ (1 < p.nStream ∧ (u.tokens[m * n]?).map Token.seqId ≠ some [s]) := by
      rintro ⟨hmulti, hne⟩
      exact hne (hs hmulti 0 s rfl)
    have hrest : 1 < p.nStream → ∀ i s, seqs[i]? = some s →
        (u.tokens[(m + 1 + i) * n]?).map Token.seqId = some [s] := by
      intro hmulti i s' hi
      have hi' := hs hmulti (i + 1) s' hi
      rwa [Nat.add_comm i, ← Nat.add_assoc] at hi'
    rw [findSlots, if_neg hassert]
    refine (slotFor_ends hk hn (p.stream s)).bind (fun h => ⟨s, .head _, h⟩) ?_
    intro found hroom
    cases found with
    | none =>
      refine iff_of_false Bool.false_ne_true fun h => ?_
      exact absurd (hroom.2 (h s (.head _))) Bool.false_ne_true
    | some idxs =>
      apply (ih hrest).map
      · rintro ⟨q, hq, h⟩
        exact ⟨q, .tail _ hq, h⟩
      · intro rest hrooms
        rw [Option.isSome_map, hrooms, List.forall_mem_cons]
        exact (and_iff_right (hroom.1 rfl)).symm

/-- The assertions of `find_slot` on an ubatch hold: with streams, the sequences have as many
tokens each, in their order and to themselves. -/
structure Servable (p : Params) (u : Ubatch) : Prop where
  tokens : u.tokens ≠ []
  seqs : u.seqIdUnq ≠ []
  even : 1 < p.nStream → u.nTokens % u.seqIdUnq.length = 0
  alone : 1 < p.nStream → ∀ i s, u.seqIdUnq[i]? = some s →
    (u.tokens[i * (u.nTokens / u.seqIdUnq.length)]?).map Token.seqId = some [s]

/-- The tokens of a ubatch for each stream. -/
def tokensPerStream (p : Params) (u : Ubatch) : Nat :=
  if 1 < p.nStream then u.nTokens / u.seqIdUnq.length else u.nTokens

theorem findSlot_ends (hu : Servable p u) (hk : HeadsFit k) (cont : Bool) :
    Ends (∃ s ∈ u.seqIdUnq, Irregular (k.cells (p.stream s)))
      (fun r => r.isSome ↔ ∀ s ∈ u.seqIdUnq,
        Room p (k.cells (p.stream s)) cont (tokensPerStream p u)) (findSlot p k u cont) := by
  have hpos : 0 < u.nTokens := List.length_pos_iff.2 hu.tokens
  rw [findSlot, tokensPerStream]
  by_cases hmulti : 1 < p.nStream
  · rw [if_pos hmulti, if_pos hmulti, if_pos ⟨hu.seqs, hu.even hmulti⟩]
    have hn : 0 < u.nTokens / u.seqIdUnq.length :=
      Nat.div_pos (Nat.le_of_dvd hpos (Nat.dvd_of_mod_eq_zero (hu.even hmulti)))
        (List.length_pos_iff.2 hu.seqs)
    apply findSlots_ends hk hn
    intro _ i s hi
    rw [Nat.zero_add]
    exact hu.alone hmulti i s hi
  · rw [if_neg hmulti, if_neg hmulti]
    obtain ⟨s, seqs, hseqs⟩ := List.exists_cons_of_ne_nil hu.seqs
    have halone : 1 < p.nStream → ∀ i s', [s][i]? = some s' →
        (u.tokens[(0 + i) * u.nTokens]?).map Token.seqId = some [s'] :=
      fun h => absurd h hmulti
    have hends := @findSlots_ends p k u u.nTokens cont [s] 0 hk hpos halone
    rw [hseqs]
    apply hends.mono
    · rintro ⟨q, hq, h⟩
      exact ⟨s, .head _, List.mem_singleton.1 hq ▸ h⟩
    · intro r _ hroom
      have hzero (s : Nat) : p.stream s = 0 := if_neg hmulti
      rw [hroom]
      simp only [hzero]
      constructor
      · exact fun h _ _ => h s (.head _)
      · exact fun h _ _ => h s (.head _)

theorem findSlot_returns (hu : Servable p u) (hk : HeadsFit k) (hreg : k.Regular) (cont : Bool) :
    ∃ r, findSlot p k u cont = some r := by
  have hends := findSlot_ends hu hk cont
  cases h : findSlot p k u cont with
  | none =>
    rw [h] at hends
    obtain ⟨s, _, i, _, hno⟩ := hends
    exact absurd (hreg (p.stream s, i)) hno
  | some r => exact ⟨r, rfl⟩

/-- What a slot for an ubatch is: the streams of its sequences have as many cells as tokens each,
all different and usable, and for a continuous slot in a run. -/
structure Suits (p : Params) (k : Cache) (u : Ubatch) (cont : Bool) (r : SlotInfo) : Prop where
  streams : r.rows.map Prod.fst = (u.seqIdUnq.map p.stream).dedup
  length : ∀ x ∈ r.rows, x.2.length = tokensPerStream p u
  nodup : r.places.Nodup
  usable : ∀ x ∈ r.places, x.2 < (k.cells x.1).size ∧ Usable p (k.cells x.1) x.2
  run : cont = true → ∀ x ∈ r.rows, ∃ a, x.2 = List.range' a (tokensPerStream p u)

/-- Each row is what is found for its stream. -/
theorem findSlots_rows (h : findSlots p k u cont n m seqs = some (some r)) :
    ∀ x ∈ r.rows, slotFor p k cont n x.1 = some (some x.2) := by
  induction seqs generalizing m r with
  | nil =>
    cases h
    exact fun _ hx => absurd hx List.not_mem_nil
  | cons s seqs ih =>
    rw [findSlots] at h
    split at h
    case isTrue => cases h
    case isFalse =>
      obtain ⟨found, hfound, h⟩ := Option.bind_eq_some_iff.1 h
      cases found with
      | none => cases h
      | some idxs =>
        rw [Option.map_eq_some_iff] at h
        obtain ⟨rest, hrest, h⟩ := h
        rw [Option.map_eq_some_iff] at h
        obtain ⟨r', rfl, rfl⟩ := h
        intro x hx
        rcases List.mem_cons.1 hx with rfl | hx
        · exact hfound
        · exact ih hrest x hx

/-- A search for a run from an empty slot finds one. -/
theorem search_run (h : search p c true n fuel cur tested [] = some (some out)) :
    ∃ a, out = List.range' a n := by
  induction fuel generalizing cur tested with
  | zero => cases h
  | succ fuel ih =>
    rw [search] at h
    simp only [if_true] at h
    by_cases hwrap : c.size < cur + n
    · rw [if_pos hwrap] at h
      exact ih h
    · rw [if_neg hwrap] at h
      rcases testCells_run p c n cur tested [] with
        ⟨_, heq⟩ | ⟨j, hj, _, heq⟩ | ⟨j, _, _, heq⟩
      · simp only [heq, Option.bind_some, List.nil_append, List.length_range', if_true] at h
        exact ⟨cur, (Option.some.inj (Option.some.inj h)).symm⟩
      · have hlen : ¬ (List.range' cur j).length = n := by
          rw [List.length_range']
          omega
        simp only [heq, Option.bind_some, List.nil_append, if_neg hlen] at h
        split at h
        case isTrue => cases h
        case isFalse => exact ih h
      · rw [heq] at h
        cases h

theorem slotFor_run (h : slotFor p k true n t = some (some out)) : ∃ a, out = List.range' a n := by
  rw [slotFor] at h
  split at h
  case isTrue => cases h
  case isFalse => exact search_run h

/-- The streams of the sequences, each once. -/
theorem dedup_streams (hu : Servable p u) :
    (u.seqIdUnq.map p.stream).dedup =
      if 1 < p.nStream then u.seqIdUnq.map p.stream else [0] := by
  split_ifs with hmulti
  · have hid : p.stream = id := funext fun s => if_pos hmulti
    rw [hid, List.map_id]
    exact u.seqIdUnq_nodup.dedup
  · have hzero : u.seqIdUnq.map p.stream = List.replicate u.seqIdUnq.length 0 := by
      rw [List.eq_replicate_iff]
      refine ⟨List.length_map _, fun t ht => ?_⟩
      obtain ⟨s, _, rfl⟩ := List.mem_map.1 ht
      exact if_neg hmulti
    rw [hzero]
    apply List.replicate_dedup
    rw [ne_eq, List.length_eq_zero_iff]
    exact hu.seqs

theorem Suits.of_rows (hu : Servable p u) (hf : SlotFound p k u r)
    (hr : Rows p k (tokensPerStream p u) seqs r)
    (hs : seqs.map p.stream = if 1 < p.nStream then u.seqIdUnq.map p.stream else [0])
    (hrows : ∀ x ∈ r.rows, slotFor p k cont (tokensPerStream p u) x.1 = some (some x.2)) :
    Suits p k u cont r where
  streams := by rw [hr.streams, hs, dedup_streams hu]
  length := fun x hx => (hr.row x hx).1
  nodup := hf.nodup
  usable := fun x hx => (hf.usable x hx).imp_right canUse_iff.1
  run := by
    rintro rfl x hx
    exact slotFor_run (hrows x hx)

theorem findSlot_suits (hu : Servable p u) (h : findSlot p k u cont = some (some r)) :
    Suits p k u cont r := by
  have hfound := findSlot_spec hu.tokens h
  have hpos : 0 < u.nTokens := List.length_pos_iff.2 hu.tokens
  rw [findSlot] at h
  by_cases hmulti : 1 < p.nStream
  · rw [if_pos hmulti, if_pos ⟨hu.seqs, hu.even hmulti⟩] at h
    have hn : 0 < u.nTokens / u.seqIdUnq.length :=
      Nat.div_pos (Nat.le_of_dvd hpos (Nat.dvd_of_mod_eq_zero (hu.even hmulti)))
        (List.length_pos_iff.2 hu.seqs)
    have hper : u.nTokens / u.seqIdUnq.length = tokensPerStream p u := (if_pos hmulti).symm
    rw [hper] at h hn
    exact .of_rows hu hfound (findSlots_spec hn h) (if_pos hmulti).symm (findSlots_rows h)
  · rw [if_neg hmulti] at h
    obtain ⟨s, seqs, hseqs⟩ := List.exists_cons_of_ne_nil hu.seqs
    rw [hseqs] at h
    have hper : u.nTokens = tokensPerStream p u := (if_neg hmulti).symm
    rw [hper] at h hpos
    have hs : [s].map p.stream = if 1 < p.nStream then u.seqIdUnq.map p.stream else [0] := by
      rw [if_neg hmulti, List.map_singleton, Params.stream, if_neg hmulti]
    exact .of_rows hu hfound (findSlots_spec hpos h) hs (findSlots_rows h)

end Slots

end ActQuant.KvCache.Cache
