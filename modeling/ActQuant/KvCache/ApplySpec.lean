import ActQuant.KvCache.CellsCount
import ActQuant.KvCache.SeqFacts

namespace ActQuant.KvCache.Cache
open ActQuant.Lib ActQuant.Batch

/-! What `find_slot` finds: as many different usable cells as a sequence has tokens. -/

theorem testCells_spec (h : testCells p c cont n cur tested idxs = some (cur', tested', idxs')) :
    cur ≤ cur' ∧ cur' ≤ cur + n ∧ tested' + cur = tested + cur' ∧
      (0 < n → cur < cur') ∧
      ∃ l, idxs' = idxs ++ l ∧ l.Nodup ∧
        ∀ i ∈ l, cur ≤ i ∧ i < cur' ∧ canUse p c i = true := by
  induction n generalizing cur tested idxs with
  | zero =>
    cases h
    exact ⟨le_rfl, le_rfl, rfl, fun h => (Nat.lt_irrefl 0 h).elim, [], (List.append_nil _).symm,
      List.nodup_nil, fun _ hi => (List.not_mem_nil hi).elim⟩
  | succ n ih =>
    rw [testCells, Option.ite_none_left_eq_some] at h
    obtain ⟨_, h⟩ := h
    split at h
    case isTrue huse =>
      obtain ⟨hle, hub, hsum, _, l, rfl, hnd, hl⟩ := ih h
      refine ⟨by omega, by omega, by omega, fun _ => by omega, cur :: l,
        List.append_assoc _ _ _, List.nodup_cons.2 ⟨fun hin => ?_, hnd⟩, ?_⟩
      · have hlt := (hl cur hin).1
        omega
      · intro i hi
        rcases List.mem_cons.1 hi with rfl | hi
        · exact ⟨le_rfl, by omega, huse⟩
        · obtain ⟨h₁, h₂, h₃⟩ := hl i hi
          exact ⟨by omega, h₂, h₃⟩
    case isFalse huse =>
      split at h
      case isTrue =>
        cases h
        exact ⟨by omega, by omega, by omega, fun _ => by omega, [], (List.append_nil _).symm,
          List.nodup_nil, fun _ hi => (List.not_mem_nil hi).elim⟩
      case isFalse =>
        obtain ⟨hle, hub, hsum, _, l, rfl, hnd, hl⟩ := ih h
        refine ⟨by omega, by omega, by omega, fun _ => by omega, l, rfl, hnd, ?_⟩
        intro i hi
        obtain ⟨h₁, h₂, h₃⟩ := hl i hi
        exact ⟨by omega, h₂, h₃⟩

/-- The cells found so far are usable and different, and lie behind the start of the search or,
after it went round, before the head. -/
structure Searched (p : Params) (c : Cells) (start cur tested : Nat) (idxs : List Nat) : Prop where
  nodup : idxs.Nodup
  usable : ∀ i ∈ idxs, i < c.size ∧ canUse p c i = true
  place : tested + start = cur ∧ (∀ i ∈ idxs, start ≤ i ∧ i < cur) ∨
    tested + start = c.size + cur ∧ ∀ i ∈ idxs, start ≤ i ∨ i < cur

/-- A search cell by cell. -/
theorem search_scattered {p : Params} {c : Cells} (hstart : start ≤ c.size) (hcur : cur ≤ c.size)
    (htested : tested < c.size) (hinv : Searched p c start cur tested idxs)
    (h : search p c false n fuel cur tested idxs = some (some out)) :
    out.length = n ∧ out.Nodup ∧ ∀ i ∈ out, i < c.size ∧ canUse p c i = true := by
  induction fuel generalizing cur tested idxs with
  | zero => cases h
  | succ fuel ih =>
    rw [search] at h
    simp only [Bool.false_eq_true, if_false] at h
    split at h
    case isTrue hwrap =>
      -- the head is at the end of the cells, which only the first round reaches
      have hend : cur = c.size := by omega
      rcases hinv.place with ⟨hsum, hplace⟩ | ⟨hsum, _⟩
      · refine ih (Nat.zero_le _) (by omega) ⟨hinv.nodup, hinv.usable, .inr ⟨by omega, ?_⟩⟩ h
        exact fun i hi => .inl (hplace i hi).1
      · omega
    case isFalse hfit =>
      obtain ⟨⟨cur', tested', idxs'⟩, htest, h⟩ := Option.bind_eq_some_iff.1 h
      obtain ⟨_, hub, hsum, hlt, l, rfl, hnd, hl⟩ := testCells_spec htest
      dsimp only at h
      have hstep : cur' = cur + 1 := by
        have hlt := hlt Nat.one_pos
        omega
      have hinv' : Searched p c start cur' tested' (idxs ++ l) := by
        refine ⟨List.nodup_append'.2 ⟨hinv.nodup, hnd, ?_⟩, ?_, ?_⟩
        · intro i hi hil
          obtain ⟨hge, _, _⟩ := hl i hil
          rcases hinv.place with ⟨_, hplace⟩ | ⟨hsum', hplace⟩
          · have hib := (hplace i hi).2
            omega
          · rcases hplace i hi with hib | hib <;> have hli := (hl i hil).2.1 <;> omega
        · intro i hi
          rcases List.mem_append.1 hi with hi | hi
          · exact hinv.usable i hi
          · obtain ⟨_, hib, huse⟩ := hl i hi
            exact ⟨by omega, huse⟩
        · rcases hinv.place with ⟨hsum', hplace⟩ | ⟨hsum', hplace⟩
          · refine .inl ⟨by omega, fun i hi => ?_⟩
            rcases List.mem_append.1 hi with hi | hi
            · obtain ⟨h₁, h₂⟩ := hplace i hi
              exact ⟨h₁, by omega⟩
            · obtain ⟨h₁, h₂, _⟩ := hl i hi
              exact ⟨by omega, h₂⟩
          · refine .inr ⟨by omega, fun i hi => ?_⟩
            rcases List.mem_append.1 hi with hi | hi
            · exact (hplace i hi).imp_right fun h => by omega
            · exact .inr (hl i hi).2.1
      split at h
      case isTrue hlen =>
        cases h
        exact ⟨hlen, hinv'.nodup, hinv'.usable⟩
      case isFalse hlen =>
        split at h
        case isTrue => cases h
        case isFalse hmore => exact ih (by omega) (by omega) hinv' h

/-- A search for a continuous slot. -/
theorem search_continuous {p : Params} {c : Cells}
    (h : search p c true n fuel cur tested [] = some (some out)) :
    out.length = n ∧ out.Nodup ∧ ∀ i ∈ out, i < c.size ∧ canUse p c i = true := by
  induction fuel generalizing cur tested with
  | zero => cases h
  | succ fuel ih =>
    rw [search] at h
    simp only [if_true] at h
    split at h
    case isTrue => exact ih h
    case isFalse hfit =>
      obtain ⟨⟨cur', tested', idxs'⟩, htest, h⟩ := Option.bind_eq_some_iff.1 h
      obtain ⟨_, hub, _, _, l, rfl, hnd, hl⟩ := testCells_spec htest
      dsimp only at h
      split at h
      case isTrue hlen =>
        cases h
        refine ⟨hlen, hnd, fun i hi => ?_⟩
        obtain ⟨_, hib, huse⟩ := hl i hi
        exact ⟨by omega, huse⟩
      case isFalse hlen =>
        split at h
        case isTrue => cases h
        case isFalse => exact ih h

/-- The cells found for a sequence. -/
theorem slotFor_spec {k : Cache} (hn : 0 < n) (h : slotFor p k cont n t = some (some out)) :
    out.length = n ∧ out.Nodup ∧
      ∀ i ∈ out, i < (k.cells t).size ∧ canUse p (k.cells t) i = true := by
  rw [slotFor] at h
  split at h
  case isTrue => cases h
  case isFalse hfit =>
    cases cont with
    | true => exact search_continuous h
    | false =>
      generalize (if (k.cells t).getUsed + 2 * n < k.head t then 0 else k.head t) = cur at h
      by_cases hcur : cur ≤ (k.cells t).size
      · refine search_scattered hcur hcur (by omega) ⟨List.nodup_nil, ?_, .inl ⟨?_, ?_⟩⟩ h
        · exact fun _ hi => (List.not_mem_nil hi).elim
        · omega
        · exact fun _ hi => (List.not_mem_nil hi).elim
      · rw [search] at h
        simp only [Bool.false_eq_true, if_false] at h
        rw [if_pos (by omega)] at h
        refine search_scattered le_rfl (Nat.zero_le _) (by omega)
          ⟨List.nodup_nil, ?_, .inr ⟨?_, ?_⟩⟩ h
        · exact fun _ hi => (List.not_mem_nil hi).elim
        · omega
        · exact fun _ hi => (List.not_mem_nil hi).elim

/-- What `find_slot` finds: a row for each sequence, in its stream. -/
structure Rows (p : Params) (k : Cache) (n : Nat) (seqs : List Nat) (r : SlotInfo) : Prop where
  streams : r.rows.map Prod.fst = seqs.map p.stream
  row : ∀ x ∈ r.rows, x.2.length = n ∧ x.2.Nodup ∧
    ∀ i ∈ x.2, i < (k.cells x.1).size ∧ canUse p (k.cells x.1) i = true

theorem findSlots_spec {p : Params} {k : Cache} (hn : 0 < n)
    (h : findSlots p k u cont n m seqs = some (some r)) : Rows p k n seqs r := by
  induction seqs generalizing m r with
  | nil =>
    cases h
    exact ⟨rfl, fun _ hx => (List.not_mem_nil hx).elim⟩
  | cons s seqs ih =>
    rw [findSlots] at h
    split at h
    case isTrue => cases h
    case isFalse =>
      obtain ⟨found, hfound, h⟩ := Option.bind_eq_some_iff.1 h
      cases found with
      | none => cases h
      | some idxs =>
        rw [Option.map_eq_some_iff] at h
        obtain ⟨rest, hrest, h⟩ := h
        rw [Option.map_eq_some_iff] at h
        obtain ⟨r', rfl, rfl⟩ := h
        have hrows := ih hrest
        refine ⟨congrArg (p.stream s :: ·) hrows.streams, ?_⟩
        intro x hx
        rcases List.mem_cons.1 hx with rfl | hx
        · exact slotFor_spec hn hfound
        · exact hrows.row x hx

/-- A slot for an ubatch: its places are usable and different, one for each token. -/
structure SlotFound (p : Params) (k : Cache) (u : Ubatch) (r : SlotInfo) : Prop where
  strm_nodup : (r.rows.map Prod.fst).Nodup
  strm : ∀ x ∈ r.rows, ∃ s ∈ u.seqIdUnq, x.1 = p.stream s
  length : u.nTokens = r.places.length
  nodup : r.places.Nodup
  usable : ∀ x ∈ r.places, x.2 < (k.cells x.1).size ∧ canUse p (k.cells x.1) x.2 = true
  row_ne : ∀ x ∈ r.rows, x.2 ≠ []

theorem length_places {rows : List (Nat × List Nat)} (h : ∀ x ∈ rows, x.2.length = n) :
    (SlotInfo.places ⟨rows⟩).length = rows.length * n := by
  induction rows with
  | nil => exact (Nat.zero_mul n).symm
  | cons x rows ih =>
    have ih := ih fun y hy => h y (List.mem_cons_of_mem _ hy)
    rw [SlotInfo.places] at ih ⊢
    rw [List.flatMap_cons, List.length_append, List.length_map, h x List.mem_cons_self, ih,
      List.length_cons, Nat.succ_mul, Nat.add_comm]

theorem mem_places {r : SlotInfo} : x ∈ r.places ↔ ∃ y ∈ r.rows, y.1 = x.1 ∧ x.2 ∈ y.2 := by
  rw [SlotInfo.places, List.mem_flatMap]
  refine exists_congr fun y => and_congr_right fun _ => ?_
  rw [List.mem_map]
  constructor
  · rintro ⟨i, hi, rfl⟩
    exact ⟨rfl, hi⟩
  · rintro ⟨hy, hi⟩
    exact ⟨x.2, hi, Prod.ext hy rfl⟩

theorem nodup_places {r : SlotInfo} (hstrm : (r.rows.map Prod.fst).Nodup)
    (hrow : ∀ x ∈ r.rows, x.2.Nodup) : r.places.Nodup := by
  rw [SlotInfo.places, List.nodup_flatMap]
  refine ⟨fun x hx => (hrow x hx).map fun i j h => (Prod.ext_iff.1 h).2, ?_⟩
  refine (List.pairwise_map.1 hstrm).imp fun hne => ?_
  intro y hy hy'
  obtain ⟨i, _, rfl⟩ := List.mem_map.1 hy
  obtain ⟨j, _, he⟩ := List.mem_map.1 hy'
  exact hne (Prod.ext_iff.1 he).1.symm

theorem Rows.found {p : Params} {k : Cache} {u : Ubatch} (hn : 0 < n) (h : Rows p k n seqs r)
    (hnd : (seqs.map p.stream).Nodup) (hseqs : ∀ s ∈ seqs, s ∈ u.seqIdUnq)
    (hlen : u.nTokens = seqs.length * n) : SlotFound p k u r where
  strm_nodup := by
    rw [h.streams]
    exact hnd
  strm := by
    intro x hx
    have hmem : x.1 ∈ seqs.map p.stream := h.streams ▸ List.mem_map_of_mem hx
    obtain ⟨s, hs, he⟩ := List.mem_map.1 hmem
    exact ⟨s, hseqs s hs, he.symm⟩
  length := by
    have hrows : r.rows.length = seqs.length := by
      rw [← List.length_map (f := Prod.fst), h.streams, List.length_map]
    rw [hlen, ← hrows]
    exact (length_places fun x hx => (h.row x hx).1).symm
  nodup := by
    apply nodup_places
    · rw [h.streams]
      exact hnd
    · exact fun x hx => (h.row x hx).2.1
  usable := by
    intro x hx
    obtain ⟨y, hy, he, hi⟩ := mem_places.1 hx
    rw [← he]
    exact (h.row y hy).2.2 x.2 hi
  row_ne := by
    intro x hx hnil
    have hlen := (h.row x hx).1
    rw [hnil] at hlen
    exact Nat.ne_of_gt hn hlen.symm

/-- `find_slot` finds a slot for an ubatch that is not empty. -/
theorem findSlot_spec {p : Params} {k : Cache} {u : Ubatch} (hu : u.tokens ≠ [])
    (h : findSlot p k u cont = some (some r)) : SlotFound p k u r := by
  have hpos : 0 < u.nTokens := List.length_pos_iff.2 hu
  rw [findSlot] at h
  split at h
  case isTrue hmulti =>
    rw [Option.ite_none_right_eq_some] at h
    obtain ⟨⟨hne, hmod⟩, h⟩ := h
    have hdvd := Nat.dvd_of_mod_eq_zero hmod
    have hlen : u.nTokens = u.seqIdUnq.length * (u.nTokens / u.seqIdUnq.length) :=
      (Nat.mul_div_cancel' hdvd).symm
    have hn : 0 < u.nTokens / u.seqIdUnq.length :=
      Nat.div_pos (Nat.le_of_dvd hpos hdvd) (List.length_pos_iff.2 hne)
    have hid : u.seqIdUnq.map p.stream = u.seqIdUnq := by
      rw [show p.stream = id from funext fun s => if_pos hmulti, List.map_id]
    refine (findSlots_spec hn h).found hn ?_ (fun _ hs => hs) hlen
    rw [hid]
    exact u.seqIdUnq_nodup
  case isFalse =>
    split at h
    · cases h
    · case h_2 s rest heq =>
      refine (findSlots_spec hpos h).found hpos (List.nodup_singleton _) ?_ (Nat.one_mul _).symm
      intro s' hs'
      rw [List.mem_singleton.1 hs', heq]
      exact List.mem_cons_self

/-- Without a window only empty cells are usable. -/
theorem canUse_no_window {p : Params} (hp : p.swaType = .none) :
    canUse p c i = true ↔ (c.cell i).pos = -1 := by
  rw [canUse, Params.isMaskedSwa, hp, Bool.and_false, Bool.or_false, Cell.isEmpty, beq_iff_eq]

end ActQuant.KvCache.Cache

namespace ActQuant.KvCache
open ActQuant.Lib ActQuant.Batch

/-! What `apply_ubatch` makes of the cells: the tokens are in their places, then the overwritten
positions and those before them leave the cache. -/

/-- A cell after a token was put into it. -/
def Cell.placed (y : Cell) (x : Token) : Cell where
  pos := x.pos
  shift := if y.isEmpty then y.shift else 0
  seq := x.seqId.toFinset

theorem Cell.isEmpty_eq {x : Cell} : x.isEmpty = true ↔ x.pos = -1 := beq_iff_eq

namespace Cells

theorem seqAdds_replaced {c d : Cells} {ss : List Nat}
    (h : ss.foldlM (fun c s => Cells.seqAdd c i s) c = some d) :
    Replaced c i { c.cell i with seq := ss.toFinset ∪ (c.cell i).seq } d ∧ ss.Nodup ∧
      (∀ s ∈ ss, s ∉ (c.cell i).seq) ∧ (ss ≠ [] → (c.cell i).pos ≠ -1) := by
  induction ss generalizing c with
  | nil =>
    cases h
    refine ⟨⟨rfl, ?_⟩, List.nodup_nil, fun _ hs => (List.not_mem_nil hs).elim,
      fun h => (h rfl).elim⟩
    simp only [List.toFinset_nil, Finset.empty_union]
    exact (Function.update_eq_self i _).symm
  | cons s ss ih =>
    obtain ⟨e, he, hrest⟩ := foldlM_cons_eq_some.1 h
    obtain ⟨hr, hpos⟩ := seqAdd_replaced he
    have hs : s ∉ (c.cell i).seq := by
      rw [Cells.seqAdd, Option.ite_none_right_eq_some] at he
      exact he.1.2.2.2
    obtain ⟨hr', hnd, hno, _⟩ := ih hrest
    rw [hr.self] at hr' hno
    have hin : ∀ q ∈ ss, q ≠ s ∧ q ∉ (c.cell i).seq := by
      intro q hq
      have hq := hno q hq
      simp only [Cell.joined, Finset.mem_insert, not_or] at hq
      exact hq
    refine ⟨?_, List.nodup_cons.2 ⟨fun hmem => (hin s hmem).1 rfl, hnd⟩, ?_, fun _ => hpos⟩
    · have hcell : Cell.mk ((c.cell i).joined s).pos ((c.cell i).joined s).shift
            (ss.toFinset ∪ ((c.cell i).joined s).seq) =
          { c.cell i with seq := (s :: ss).toFinset ∪ (c.cell i).seq } := by
        simp only [Cell.joined, List.toFinset_cons, Finset.union_insert, Finset.insert_union]
      rw [← hcell]
      exact hr.trans hr'
    · intro q hq
      rcases List.mem_cons.1 hq with rfl | hq
      · exact hs
      · exact (hin q hq).2

theorem seqAdds_counted {c d : Cells} {ss : List Nat} (hc : c.Counted)
    (h : ss.foldlM (fun c s => Cells.seqAdd c i s) c = some d) : d.Counted :=
  sweep_invariant (I := Counted) (fun _ hI h => hI.seqAdd h) hc h

end Cells

namespace Cache

theorem writeToken_replaced {c d : Cells} (h : writeToken c i x = some d) :
    Cells.Replaced c i { c.cell i with pos := x.pos, seq := x.seqId.toFinset } d ∧ i < c.size ∧
      (c.cell i).pos = -1 ∧ x.seqId.Nodup ∧ (x.seqId ≠ [] → x.pos ≠ -1) := by
  obtain ⟨e, he, h⟩ := Option.bind_eq_some_iff.1 h
  obtain ⟨hr, hi, hpos, hseq⟩ := Cells.posSet_replaced he
  obtain ⟨hr', hnd, _, hne⟩ := Cells.seqAdds_replaced h
  rw [hr.self] at hr' hne
  refine ⟨?_, hi, hpos, hnd, hne⟩
  simp only [hseq, Finset.union_empty] at hr'
  exact hr.trans hr'

theorem writeToken_counted {c d : Cells} (hc : c.Counted) (h : writeToken c i x = some d) :
    d.Counted := by
  obtain ⟨e, he, h⟩ := Option.bind_eq_some_iff.1 h
  exact Cells.seqAdds_counted (hc.posSet he) h

/-- The cells by their places. -/
def at' (k : Cache) (x : Nat × Nat) : Cell := (k.cells x.1).cell x.2

/-- The greatest overwritten position of each sequence. -/
def raise (m : Nat → Int) (y : Cell) : Nat → Int :=
  if y.isEmpty then m else Function.update m y.seqGet (max (m y.seqGet) y.pos)

/-- The result of a turn of the loop of `apply_ubatch`. -/
structure Placed (st : Cache × (Nat → Int)) (x : (Nat × Nat) × Token)
    (st' : Cache × (Nat → Int)) : Prop where
  size : ∀ t, (st'.1.cells t).size = (st.1.cells t).size
  cell : st'.1.at' = Function.update st.1.at' x.1 ((st.1.at' x.1).placed x.2)
  shift : ∀ t, (st'.1.cells t).hasShift = (st.1.cells t).hasShift
  head : st'.1.head = st.1.head
  copies : st'.1.copies = st.1.copies
  raised : st'.2 = raise st.2 (st.1.at' x.1)
  legal : x.2.seqId.Nodup ∧ (x.2.seqId ≠ [] → x.2.pos ≠ -1)
  single : (st.1.at' x.1).isEmpty = false → (st.1.at' x.1).seqCount = 1

theorem update_at' (k : Cache) (t i : Nat) (d : Cells) (y : Cell) (hd : Nat)
    (hr : Cells.Replaced (k.cells t) i y d) :
    (k.setStream t d hd).at' = Function.update k.at' (t, i) y := by
  funext ⟨t', j⟩
  rw [at', setStream]
  dsimp only
  by_cases ht : t' = t
  · subst ht
    rw [Function.update_self, hr.cell]
    by_cases hj : j = i
    · subst hj
      rw [Function.update_self, Function.update_self]
    · rw [Function.update_of_ne hj, Function.update_of_ne fun h => hj (Prod.ext_iff.1 h).2]
      rfl
  · rw [Function.update_of_ne ht, Function.update_of_ne fun h => ht (Prod.ext_iff.1 h).1]
    rfl

theorem size_setStream {k : Cache} {d : Cells} (h : d.size = (k.cells t).size) (t' : Nat) :
    ((k.setStream t d hd).cells t').size = (k.cells t').size := by
  rw [setStream]
  dsimp only
  by_cases ht : t' = t
  · subst ht
    rw [Function.update_self, h]
  · rw [Function.update_of_ne ht]

theorem hasShift_setStream {k : Cache} {d : Cells} (h : d.hasShift = (k.cells t).hasShift)
    (t' : Nat) : ((k.setStream t d hd).cells t').hasShift = (k.cells t').hasShift := by
  rw [setStream]
  dsimp only
  by_cases ht : t' = t
  · subst ht
    rw [Function.update_self, h]
  · rw [Function.update_of_ne ht]

theorem seqAdds_hasShift {c d : Cells} {ss : List Nat}
    (h : ss.foldlM (fun c s => Cells.seqAdd c i s) c = some d) : d.hasShift = c.hasShift := by
  refine sweep_invariant (I := fun e : Cells => e.hasShift = c.hasShift) ?_ rfl h
  intro e s f _ hI h
  rw [Cells.seqAdd, Option.ite_none_right_eq_some] at h
  cases h.2
  exact hI

theorem writeToken_hasShift {c d : Cells} (h : writeToken c i x = some d) :
    d.hasShift = c.hasShift := by
  obtain ⟨e, he, h⟩ := Option.bind_eq_some_iff.1 h
  rw [seqAdds_hasShift h]
  rw [Cells.posSet, Option.ite_none_right_eq_some] at he
  cases he.2
  rfl

theorem rm_hasShift {c d : Cells} (h : c.rm i = some d) : d.hasShift = c.hasShift := by
  rw [Cells.rm, Option.ite_none_right_eq_some, Option.map_eq_some_iff] at h
  obtain ⟨_, e, he, rfl⟩ := h
  rw [Cells.seqPosRm, Option.ite_none_right_eq_some] at he
  cases he.2
  rfl

theorem placeToken_spec (h : placeToken st x = some st') : Placed st x st' := by
  obtain ⟨k, m⟩ := st
  obtain ⟨⟨t, i⟩, tok⟩ := x
  rw [placeToken, Option.ite_none_left_eq_some] at h
  replace h := h.2
  split at h
  case isTrue hempty =>
    obtain ⟨d, hd, rfl⟩ := Option.map_eq_some_iff.1 h
    obtain ⟨hr, _, _, hnd, hne⟩ := writeToken_replaced hd
    have hplaced : Cell.placed ((k.cells t).cell i) tok =
        { (k.cells t).cell i with pos := tok.pos, seq := tok.seqId.toFinset } := by
      rw [Cell.placed, if_pos hempty]
    refine ⟨size_setStream hr.size, ?_, hasShift_setStream (writeToken_hasShift hd), ?_, rfl, ?_,
      ⟨hnd, hne⟩, ?_⟩
    · rw [update_at' k t i d _ _ hr, ← hplaced]
      rfl
    · exact Function.update_eq_self t k.head
    · rw [raise]
      exact (if_pos hempty).symm
    · intro hfull
      exact absurd hempty (by rw [show ((k.cells t).cell i).isEmpty = false from hfull]; decide)
  case isFalse hfull =>
    rw [Option.ite_none_right_eq_some] at h
    obtain ⟨hcount, h⟩ := h
    obtain ⟨d, hd, rfl⟩ := Option.map_eq_some_iff.1 h
    obtain ⟨e, he, hd⟩ := Option.bind_eq_some_iff.1 hd
    have hr₁ := Cells.rm_replaced he
    obtain ⟨hr₂, _, _, hnd, hne⟩ := writeToken_replaced hd
    rw [hr₁.self] at hr₂
    have hr := hr₁.trans hr₂
    have hplaced : Cell.placed ((k.cells t).cell i) tok =
        { Cell.vacant with pos := tok.pos, seq := tok.seqId.toFinset } := by
      rw [Cell.placed, if_neg hfull]
      rfl
    refine ⟨size_setStream hr.size, ?_,
      hasShift_setStream ((writeToken_hasShift hd).trans (rm_hasShift he)), ?_, rfl, ?_,
      ⟨hnd, hne⟩, fun _ => hcount⟩
    · rw [update_at' k t i d _ _ hr, ← hplaced]
      rfl
    · exact Function.update_eq_self t k.head
    · rw [raise]
      exact (if_neg hfull).symm

/-- The tokens of an ubatch, each in its place. -/
structure AllPlaced (k : Cache) (m : Nat → Int) (xs : List ((Nat × Nat) × Token)) (k' : Cache)
    (m' : Nat → Int) : Prop where
  size : ∀ t, (k'.cells t).size = (k.cells t).size
  shift : ∀ t, (k'.cells t).hasShift = (k.cells t).hasShift
  head : k'.head = k.head
  copies : k'.copies = k.copies
  cell : ∀ x ∈ xs, k'.at' x.1 = (k.at' x.1).placed x.2
  other : ∀ y, (∀ x ∈ xs, x.1 ≠ y) → k'.at' y = k.at' y
  legal : ∀ x ∈ xs, x.2.seqId.Nodup ∧ (x.2.seqId ≠ [] → x.2.pos ≠ -1)
  single : ∀ x ∈ xs, (k.at' x.1).isEmpty = false → (k.at' x.1).seqCount = 1
  raised : m' = xs.foldl (fun m x => raise m (k.at' x.1)) m

theorem foldl_raise_congr {xs : List ((Nat × Nat) × Token)} {f g : Nat × Nat → Cell}
    (h : ∀ x ∈ xs, f x.1 = g x.1) (m : Nat → Int) :
    xs.foldl (fun m x => raise m (f x.1)) m = xs.foldl (fun m x => raise m (g x.1)) m := by
  induction xs generalizing m with
  | nil => rfl
  | cons x xs ih =>
    rw [List.foldl_cons, List.foldl_cons, h x List.mem_cons_self]
    exact ih (fun y hy => h y (List.mem_cons_of_mem _ hy)) _

theorem placeAll_spec {k k' : Cache} {m m' : Nat → Int} (hnd : (xs.map Prod.fst).Nodup)
    (h : xs.foldlM placeToken (k, m) = some (k', m')) : AllPlaced k m xs k' m' := by
  induction xs generalizing k m with
  | nil =>
    cases h
    exact ⟨fun _ => rfl, fun _ => rfl, rfl, rfl, fun _ hx => (List.not_mem_nil hx).elim,
      fun _ _ => rfl, fun _ hx => (List.not_mem_nil hx).elim,
      fun _ hx => (List.not_mem_nil hx).elim, rfl⟩
  | cons x xs ih =>
    obtain ⟨⟨k₁, m₁⟩, hu, hrest⟩ := foldlM_cons_eq_some.1 h
    have hp := placeToken_spec hu
    obtain ⟨hnot, hnd⟩ := List.nodup_cons.1 hnd
    have hall := ih hnd hrest
    have hne : ∀ y ∈ xs, y.1 ≠ x.1 := fun y hy he => hnot (he ▸ List.mem_map_of_mem hy)
    have hsame : ∀ y, y ≠ x.1 → k₁.at' y = k.at' y := by
      intro y hy
      rw [hp.cell]
      exact Function.update_of_ne hy _ _
    refine ⟨fun t => (hall.size t).trans (hp.size t), fun t => (hall.shift t).trans (hp.shift t),
      hall.head.trans hp.head, hall.copies.trans hp.copies, ?_, ?_, ?_, ?_, ?_⟩
    · intro y hy
      rcases List.mem_cons.1 hy with rfl | hy
      · rw [hall.other y.1 hne, hp.cell, Function.update_self]
      · rw [hall.cell y hy, hsame y.1 (hne y hy)]
    · intro y hy
      rw [hall.other y fun z hz => hy z (List.mem_cons_of_mem _ hz)]
      exact hsame y (hy x List.mem_cons_self).symm
    · intro y hy
      rcases List.mem_cons.1 hy with rfl | hy
      · exact hp.legal
      · exact hall.legal y hy
    · intro y hy hfull
      rcases List.mem_cons.1 hy with rfl | hy
      · exact hp.single hfull
      · rw [← hsame y.1 (hne y hy)] at hfull ⊢
        exact hall.single y hy hfull
    · rw [hall.raised, List.foldl_cons, foldl_raise_congr fun y hy => hsame y.1 (hne y hy)]
      exact congrArg (xs.foldl (fun m x => raise m (k.at' x.1))) hp.raised

/-- Writing every token keeps the counters right. -/
theorem placeAll_counted {xs : List ((Nat × Nat) × Token)} {s s' : Cache × (Nat → Int)}
    (hc : ∀ t, (s.1.cells t).Counted) (h : xs.foldlM placeToken s = some s') (t : Nat) :
    (s'.1.cells t).Counted := by
  refine sweep_invariant (I := fun st : Cache × (Nat → Int) => ∀ t, (st.1.cells t).Counted)
    ?_ hc h t
  intro ⟨k, m⟩ ⟨⟨t₀, i⟩, tok⟩ st' _ hI h t
  have hset {d : Cells} (hd : d.Counted) (head : Nat) :
      ((k.setStream t₀ d head).cells t).Counted := by
    rw [setStream]
    dsimp only
    by_cases ht : t = t₀
    · subst ht
      rw [Function.update_self]
      exact hd
    · rw [Function.update_of_ne ht]
      exact hI t
  rw [placeToken, Option.ite_none_left_eq_some] at h
  replace h := h.2
  split at h
  · obtain ⟨d, hd, rfl⟩ := Option.map_eq_some_iff.1 h
    exact hset (writeToken_counted (hI t₀) hd) _
  · rw [Option.ite_none_right_eq_some] at h
    obtain ⟨d, hd, h⟩ := Option.map_eq_some_iff.1 h.2
    obtain ⟨e, he, hd⟩ := Option.bind_eq_some_iff.1 hd
    cases h
    exact hset (writeToken_counted ((hI t₀).rm he) hd) _

end Cache
end ActQuant.KvCache
