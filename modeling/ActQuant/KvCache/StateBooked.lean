import ActQuant.KvCache.Bookkeeping

namespace ActQuant.KvCache.Store
open ActQuant.Lib ActQuant.Batch Cache

/-! A state that is read back keeps the bookkeeping, as long as its cells have positions and
sequences that a cell can have. -/

/-- The sequences of a cell that the input has, none twice. -/
def IdsLegal (p : Params) : Nat → Finset Nat → List UInt8 → Prop
  | 0, _, _ => True
  | n + 1, seen, bs => ∀ id rest, Reader.number (ε := Unit) 4 bs = .ok (id, rest) →
    (0 ≤ toInt32 id ∧ id < p.nSeqMax) → id ∉ seen ∧ IdsLegal p n (insert id seen) rest

/-- The cells that the input has: no position is negative. -/
def CellsLegal (p : Params) : Nat → List UInt8 → Prop
  | 0, _ => True
  | n + 1, bs => ∀ pos m rest, readHead bs = .ok ((pos, m), rest) →
    0 ≤ toInt32 pos ∧ IdsLegal p m ∅ rest ∧
      ∀ rest', idFields p m rest = .ok ((), rest') → CellsLegal p n rest'

/-- A position that a cell can have; where cells in use are taken, the one behind it is looked at
as well. -/
def PosLegal (p : Params) (q : Int) : Prop := 0 ≤ q ∧ (p.swaType = .none ∨ q < posMax)

/-- The cells of a stream, all of them or those of a sequence. -/
def SectionLegal (p : Params) (s : Int) (n : Nat) (bs : List UInt8) : Prop :=
  if s = -1 then CellsLegal p n bs
  else ∀ ps rest, readPositions n bs = .ok (ps, rest) → ∀ q ∈ ps, PosLegal p q

open Reader in
/-- The fields of a stream. -/
def sectionFields (cfg : Config) (s : Int) (n : Nat) : Reader Unit Unit :=
  if s = -1 then allFields cfg n
  else do
    let _ ← readPositions n
    dataFields cfg n

def StreamsLegal (cfg : Config) (s : Int) : Nat → List UInt8 → Prop
  | 0, _ => True
  | m + 1, bs => ∀ n rest, Reader.number (ε := Unit) 4 bs = .ok (n, rest) →
    if n = 0 then StreamsLegal cfg s m rest
    else SectionLegal cfg.params s n rest ∧
      ∀ rest', sectionFields cfg s n rest = .ok ((), rest') → StreamsLegal cfg s m rest'

/-- The cells of a whole state. -/
def StateLegal (cfg : Config) (s : Int) (bs : List UInt8) : Prop :=
  ∀ rest, Reader.number (ε := Unit) 4 bs = .ok (cfg.params.nStream, rest) →
    StreamsLegal cfg s cfg.params.nStream rest

/-! ### Whole streams -/

section Whole
variable {p : Params} {k k' : Cache} {n t i : Nat}

theorem clear_setStream {c : Cells} (hc : c.size = (k.cells t).size) (ht : t < p.nStream)
    (hd : Nat) : (k.setStream t c hd).clear p = k.clear p := by
  rw [Cache.clear, Cache.clear, Cache.setStream]
  simp only [Cache.mk.injEq]
  refine ⟨funext fun t' => ?_, funext fun t' => ?_, trivial⟩
  · by_cases h : t' = t
    · rw [h, if_pos ht, if_pos ht, Function.update_self, Cells.reset, Cells.reset, hc]
    · rw [Function.update_of_ne h]
  · by_cases h : t' = t
    · rw [h, if_pos ht, if_pos ht]
    · rw [Function.update_of_ne h]

/-- A cell of a cache is replaced by one that is as it was but for its own entries. -/
structure Replaced (p : Params) (n : Nat) (k : Cache) (y : Nat × Nat) (x : Cell) (k' : Cache) :
    Prop where
  booked : Booked p n k'
  cell : k'.at' = Function.update k.at' y x
  clear : k'.clear p = k.clear p

theorem Replaced.self (h : Replaced p n k y x k') : k'.at' y = x := by
  rw [h.cell, Function.update_self]

theorem Replaced.other (h : Replaced p n k y x k') (hz : z ≠ y) : k'.at' z = k.at' z := by
  rw [h.cell, Function.update_of_ne hz]

theorem Replaced.of_cells {c : Cells} (hk : Booked p n k) (ht : t < p.nStream)
    (hr : Cells.Replaced (k.cells t) i x c) (hwf : c.WellFormed) (hc : c.Counted) (hx : x.Bare)
    (hknown : ∀ s ∈ x.seq, s < p.nSeqIds) (hreg : x.Regular) :
    Replaced p n k (t, i) x (k.setStream t c (k.head t)) := by
  have hat := update_at' k t i c x (k.head t) hr
  refine ⟨⟨hk.wellFormed.setStream hwf _ _, hk.sound.replaced hr hc hx _,
    hk.fits.setStream (hr.size.trans (hk.fits.size t)) (hk.fits.head t) t, fun y => ?_,
    fun y => ?_⟩, hat, clear_setStream hr.size ht _⟩
  · rw [hat]
    by_cases hy : y = (t, i)
    · rw [hy, Function.update_self]
      exact hknown
    · rw [Function.update_of_ne hy]
      exact hk.known y
  · rw [hat]
    by_cases hy : y = (t, i)
    · rw [hy, Function.update_self]
      exact hreg
    · rw [Function.update_of_ne hy]
      exact hk.regular y

theorem posSet_booked (hk : Booked p n k) (ht : t < p.nStream) (hi : i < n)
    (hpos : (k.at' (t, i)).pos = -1) (hq : 0 ≤ q) :
    ∃ c, (k.cells t).posSet i q = some c ∧
      Replaced p n k (t, i) ⟨q, 0, ∅⟩ (k.setStream t c (k.head t)) := by
  have hne : q ≠ -1 := by omega
  obtain ⟨c, hc, hwf⟩ := (hk.wellFormed t ht).posSet (hk.fits.size t ▸ hi) hpos hne
  obtain ⟨hr, _⟩ := Cells.posSet_replaced hc
  have hx : { (k.cells t).cell i with pos := q } = (⟨q, 0, ∅⟩ : Cell) := by
    obtain ⟨hseq, hshift⟩ : ((k.cells t).cell i).seq = ∅ ∧ ((k.cells t).cell i).shift = 0 :=
      hk.sound.bare (t, i) hpos
    dsimp only
    rw [hseq, hshift]
  rw [hx] at hr
  exact ⟨c, hc, .of_cells hk ht hr hwf ((hk.sound.counted t).posSet hc) (fun h => absurd h hne)
    (fun s hs => absurd hs (Finset.notMem_empty s)) (.inr hq)⟩

theorem cellAdd_booked (hk : Booked p n k) (ht : t < p.nStream) (hi : i < n)
    (hpos : (k.at' (t, i)).pos ≠ -1) (hs : s < p.nSeqIds) (hno : s ∉ (k.at' (t, i)).seq) :
    ∃ c, (k.cells t).seqAdd i s = some c ∧
      Replaced p n k (t, i) ((k.at' (t, i)).joined s) (k.setStream t c (k.head t)) := by
  obtain ⟨c, hc, hwf⟩ := (hk.wellFormed t ht).seqAdd (hk.fits.size t ▸ hi) hpos
    (hs.trans_le (Cache.nSeqIds_le p)) hno
  obtain ⟨hr, _⟩ := Cells.seqAdd_replaced hc
  refine ⟨c, hc, .of_cells hk ht hr hwf ((hk.sound.counted t).seqAdd hc)
    (fun h => absurd h hpos) (fun q hq => ?_) (hk.regular (t, i))⟩
  rcases Finset.mem_insert.1 hq with rfl | hq
  · exact hs
  · exact hk.known (t, i) q hq

/-- How a part of the reading ends where it does not stop at an assertion. -/
def Part.Returns (P : α → List UInt8 → Prop) (Q R : Cache → Prop) : Part α → Prop
  | .ok a rest => P a rest
  | .ended k => Q k
  | .refused k => R k
  | .fault => False

theorem seqMax_le_seqIds (p : Params) : p.nSeqMax ≤ p.nSeqIds := by
  rw [Params.nSeqIds]
  split
  case isTrue h =>
    rw [Params.nStream] at h ⊢
    split at h
    case isTrue => omega
    case isFalse hno => rw [if_neg hno]
  case isFalse => exact p.seqMax_le

theorem number_no_crash (bs : List UInt8) (u : Unit) :
    (Reader.number 4 bs : Load Unit _) ≠ .crash u := by
  intro h
  by_cases hlen : bs.length < 4
  · change Load.bind (Reader.bytes 4 bs) _ = _ at h
    rw [Reader.bytes, if_pos hlen] at h
    cases h
  · change Load.bind (Reader.bytes 4 bs) _ = _ at h
    rw [Reader.bytes, if_neg hlen] at h
    cases h

/-- The sequences of a cell in use go to it one by one. -/
theorem readIds_booked (hk : Booked p n k) (ht : t < p.nStream) (hi : i < n)
    (hpos : (k.at' (t, i)).pos ≠ -1) (hlegal : IdsLegal p m (k.at' (t, i)).seq bs) :
    (readIds p t i m k bs).Returns
      (fun k' rest => Booked p n k' ∧ idFields p m bs = .ok ((), rest) ∧
        k'.clear p = k.clear p ∧ ∀ y, y ≠ (t, i) → k'.at' y = k.at' y)
      (Booked p n) (fun k' => k'.clear p = k.clear p) := by
  induction m generalizing k bs with
  | zero => exact ⟨hk, rfl, rfl, fun _ _ => rfl⟩
  | succ m ih =>
    have hfields : idFields p (m + 1) bs = (Reader.number 4 bs).bind fun x =>
        (if 0 ≤ toInt32 x.1 ∧ x.1 < p.nSeqMax then idFields p m else Reader.crash ()) x.2 := rfl
    rw [readIds, hfields]
    cases hnum : (Reader.number 4 bs : Load Unit _) with
    | null => exact hk
    | crash u => exact number_no_crash bs u hnum
    | ok x =>
      obtain ⟨id, rest⟩ := x
      rw [Load.bind]
      dsimp only
      split
      case isFalse => rfl
      case isTrue hvalid =>
        obtain ⟨hno, hrest⟩ := hlegal id rest hnum hvalid
        obtain ⟨c, hc, hr⟩ := cellAdd_booked hk ht hi hpos
          (hvalid.2.trans_le (seqMax_le_seqIds p)) hno
        rw [hc]
        have hgo := ih hr.booked (by rw [hr.self]; exact hpos) (by rw [hr.self]; exact hrest)
        dsimp only
        generalize readIds p t i m (k.setStream t c (k.head t)) rest = part at hgo ⊢
        cases part with
        | fault => exact hgo
        | refused k' => exact Eq.trans hgo hr.clear
        | ended k' => exact hgo
        | ok k' rest' =>
          obtain ⟨hk', hids, hclear, hsame⟩ := hgo
          exact ⟨hk', hids, hclear.trans hr.clear,
            fun y hy => (hsame y hy).trans (hr.other hy)⟩

/-- The cells of a stream that is empty from one on. -/
theorem readCells_booked (hk : Booked p n k) (ht : t < p.nStream) (hi : i + m ≤ n)
    (hempty : ∀ j, i ≤ j → (k.at' (t, j)).pos = -1) (hlegal : CellsLegal p m bs) :
    (readCells p t m i k bs).Returns
      (fun k' rest => Booked p n k' ∧ cellFields p m bs = .ok ((), rest))
      (Booked p n) (fun k' => k'.clear p = k.clear p) := by
  induction m generalizing i k bs with
  | zero => exact ⟨hk, rfl⟩
  | succ m ih =>
    have hfields : cellFields p (m + 1) bs = (readHead bs).bind fun x =>
        (idFields p x.1.2 x.2).bind fun y => cellFields p m y.2 := rfl
    rw [readCells, hfields]
    cases hhead : readHead bs with
    | null => exact hk
    | crash u =>
      rcases Load.bind_eq_crash.1 hhead with h | ⟨x, _, h⟩
      · exact number_no_crash bs u h
      · rcases Load.bind_eq_crash.1 h with h | ⟨y, _, h⟩
        · exact number_no_crash _ u h
        · cases h
    | ok x =>
      obtain ⟨⟨pos, l⟩, rest⟩ := x
      obtain ⟨hpos, hids, hrest⟩ := hlegal pos l rest hhead
      have hin : i < n := by omega
      obtain ⟨c, hc, hr⟩ := posSet_booked hk ht hin (hempty i le_rfl) hpos
      have hgo := readIds_booked hr.booked ht hin (by rw [hr.self]; dsimp only; omega)
        (by rw [hr.self]; exact hids)
      rw [Load.bind]
      dsimp only
      rw [hc]
      dsimp only
      generalize readIds p t i l (k.setStream t c (k.head t)) rest = part at hgo ⊢
      cases part with
      | fault => exact hgo
      | refused k' => exact Eq.trans hgo hr.clear
      | ended k' => exact hgo
      | ok k' rest' =>
        obtain ⟨hk', hfields', hclear, hsame⟩ := hgo
        rw [hfields']
        have hempty' : ∀ j, i + 1 ≤ j → (k'.at' (t, j)).pos = -1 := by
          intro j hj
          have hne : (t, j) ≠ (t, i) := by
            rw [Ne, Prod.ext_iff]
            dsimp only
            omega
          rw [hsame _ hne, hr.other hne]
          exact hempty j (by omega)
        have hcells := ih hk' (by omega) hempty' (hrest rest' hfields')
        dsimp only [Load.bind]
        generalize readCells p t m (i + 1) k' rest' = part at hcells ⊢
        cases part with
        | fault => exact hcells
        | refused k'' => exact Eq.trans hcells (hclear.trans hr.clear)
        | ended k'' => exact hcells
        | ok k'' rest'' => exact hcells

end Whole

/-! ### Single sequences -/

section Sequence
variable {p : Params} {k k' : Cache} {s n m : Nat} {ps : List Int} {r : SlotInfo}

theorem seqUbatch_unq (hs : s < p.nSeqIds) (hps : ps ≠ []) : (seqUbatch s ps).seqIdUnq = [s] := by
  have hin : s ∈ (seqUbatch s ps).seqIdUnq := by
    obtain ⟨q, qs, rfl⟩ := List.exists_cons_of_ne_nil hps
    apply List.mem_filter.2
    refine ⟨List.mem_range.2 (hs.trans_le (Cache.nSeqIds_le p)), List.any_eq_true.2 ?_⟩
    exact ⟨⟨q, [s], false⟩, .head _, List.contains_iff_mem.2 (.head _)⟩
  have hall : ∀ q ∈ (seqUbatch s ps).seqIdUnq, q = s := fun q hq => mem_seqIdUnq hq
  have hnd := (seqUbatch s ps).seqIdUnq_nodup
  generalize (seqUbatch s ps).seqIdUnq = l at hin hall hnd
  cases l with
  | nil => exact absurd hin List.not_mem_nil
  | cons q qs =>
    cases qs with
    | nil => rw [hall q (.head _)]
    | cons q' qs =>
      have hne := (List.nodup_cons.1 hnd).1
      rw [hall q (.head _), hall q' (.tail _ (.head _))] at hne
      exact absurd (.head _) hne

theorem length_seqUbatch : (seqUbatch s ps).nTokens = ps.length := List.length_map _

theorem seqUbatch_servable (hs : s < p.nSeqIds) (hps : ps ≠ []) :
    Servable p (seqUbatch s ps) := by
  have hunq := seqUbatch_unq hs hps
  refine ⟨fun h => hps (List.map_eq_nil_iff.1 h), ?_, ?_, ?_⟩
  · rw [hunq]
    exact List.cons_ne_nil _ _
  · rw [hunq]
    exact fun _ => Nat.mod_one _
  · rw [hunq]
    intro _ i q hi
    obtain ⟨x, xs, rfl⟩ := List.exists_cons_of_ne_nil hps
    cases i with
    | zero =>
      rw [List.getElem?_cons_zero] at hi
      rw [Nat.zero_mul, ← Option.some.inj hi]
      rfl
    | succ i => cases hi

theorem seqUbatch_accepted (hs : s < p.nSeqIds) :
    ∀ x ∈ (seqUbatch s ps).tokens, Accepted p x := by
  intro x hx
  obtain ⟨q, _, rfl⟩ := List.mem_map.1 hx
  refine ⟨List.cons_ne_nil _ _, fun q hq => ?_⟩
  rw [List.mem_singleton.1 hq]
  exact hs

theorem seqUbatch_storable (hps : ∀ q ∈ ps, 0 ≤ q) :
    ∀ x ∈ (seqUbatch s ps).tokens, Storable x := by
  intro x hx
  obtain ⟨q, hq, rfl⟩ := List.mem_map.1 hx
  exact ⟨hps q hq, List.nodup_singleton s⟩

/-- The slot of a sequence is a run of cells in its stream. -/
theorem seqSlot_run (hs : s < p.nSeqIds) (hps : ps ≠ [])
    (h : k.findSlot p (seqUbatch s ps) true = some (some r)) :
    ∃ a, r.rows = [(p.stream s, List.range' a ps.length)] := by
  have hserve := seqUbatch_servable hs hps
  have hunq := seqUbatch_unq hs hps
  obtain ⟨hstreams, hlen, _, _, hrun⟩ := findSlot_suits hserve h
  have htokens : tokensPerStream p (seqUbatch s ps) = ps.length := by
    rw [tokensPerStream, hunq, length_seqUbatch, List.length_singleton, Nat.div_one, ite_self]
  rw [hunq, List.map_singleton, (List.nodup_singleton _).dedup] at hstreams
  rw [htokens] at hrun
  generalize r.rows = rows at hstreams hrun
  cases rows with
  | nil => cases hstreams
  | cons x rows =>
    rw [List.map_cons, List.cons_eq_cons, List.map_eq_nil_iff] at hstreams
    obtain ⟨hx, rfl⟩ := hstreams
    obtain ⟨a, ha⟩ := hrun rfl x (.head _)
    exact ⟨a, by rw [← hx, ← ha]⟩

/-- The tokens of the sequence go to the run in their order. -/
theorem seqSlot_zip (hr : r.rows = [(p.stream s, List.range' a ps.length)])
    (hj : j < ps.length) :
    ((p.stream s, a + j), (⟨ps[j], [s], false⟩ : Token)) ∈
      r.places.zip (seqUbatch s ps).tokens := by
  have hplaces : r.places = (List.range' a ps.length).map fun i => (p.stream s, i) := by
    rw [SlotInfo.places, hr, List.flatMap_singleton]
  have hlen : j < (r.places.zip (seqUbatch s ps).tokens).length := by
    rw [List.length_zip, hplaces, List.length_map, List.length_range', seqUbatch,
      List.length_map, Nat.min_self]
    exact hj
  have hget : (r.places.zip (seqUbatch s ps).tokens)[j] =
      ((p.stream s, a + j), (⟨ps[j], [s], false⟩ : Token)) := by
    simp only [List.getElem_zip, hplaces, List.getElem_map, List.getElem_range', Nat.one_mul,
      seqUbatch]
  rw [← hget]
  exact List.getElem_mem hlen

/-- No cell has the sequence at the greatest position, which `seq_rm` leaves, or no cell in use is
taken. -/
def Topless (p : Params) (s : Nat) (k : Cache) : Prop :=
  p.swaType = .none ∨ ∀ f ∈ facts p k, f.seq = s → f.pos < posMax

/-- Nothing of the sequence is overwritten once it was removed. -/
theorem seqApply_raised {k₀ k₁ : Cache} {m : Nat → Int} (hs : s < p.nSeqIds) (hk : Topless p s k)
    (hrm : k.seqRm p s (-1) (-1) = some k₀) (hr : SlotFound p k₀ (seqUbatch s ps) r)
    (hall : AllPlaced k₀ (fun _ => -1) (r.places.zip (seqUbatch s ps).tokens) k₁ m) :
    m s = -1 := by
  by_contra hne
  have hraised := hall.raised
  rw [hraised] at hne
  have hstart : -1 ≤ (fun _ : Nat => (-1 : Int)) s := le_refl (-1)
  obtain ⟨hpos, x, hx, hfull, hseq, hmax⟩ :=
    raised_eq (f := k₀.at') (m := fun _ => -1) (s := s) hstart hne
  rw [← hraised] at hpos hmax
  obtain ⟨hplace, _⟩ := mem_of_zip hx
  obtain ⟨hin, huse⟩ := hr.usable _ hplace
  rcases hk with hnone | hk
  · rw [canUse_no_window hnone] at huse
    exact absurd (Cell.isEmpty_eq.2 huse) (by rw [← Bool.not_eq_true] at hfull; exact hfull)
  · have hmem : s ∈ (k₀.at' x.1).seq := hseq ▸ Cell.seqGet_mem (hall.single x hx hfull)
    have hstream := seqSlot_stream hr hplace
    have hat : k₀.at' x.1 = (k₀.cells (p.stream s)).cell x.1.2 := by
      rw [at', hstream]
    have hover : (⟨s, m s, x.1.2⟩ : Fact) ∈ facts p k₀ := by
      refine ⟨hs, ?_, hat ▸ hmem, hat ▸ hmax⟩
      rw [← hstream]
      exact hin
    obtain ⟨hbefore, hout⟩ := (facts_seqRm_open hrm _).1 hover
    exact hout rfl ⟨hpos, hk _ hbefore rfl⟩

/-- Each token is in its cell. -/
theorem seqApply_holds {k₀ : Cache} (hs : s < p.nSeqIds) (hk : Topless p s k)
    (hrm : k.seqRm p s (-1) (-1) = some k₀) (hr : SlotFound p k₀ (seqUbatch s ps) r)
    (h : k₀.applyUbatch p r (seqUbatch s ps) = some k')
    (hx : x ∈ r.places.zip (seqUbatch s ps).tokens) : (k'.at' x.1).Holds s x.2.pos := by
  obtain ⟨k₁, m, k₂, h₁, h₂, h₃⟩ := applyUbatch_eq_some.1 h
  rw [placeTokens, Option.ite_none_right_eq_some] at h₁
  have hall := placeAll_spec (zip_nodup hr.length hr.nodup) h₁.2
  have hm := seqApply_raised hs hk hrm hr hall
  have hcell : k'.at' x.1 = k₂.at' x.1 := by
    rw [at', at', (moveHeads_cells h₃).1]
  rw [hcell, purges_holds h₂ hm, hall.cell x hx, placed_holds (mem_of_zip hx).2]

/-- The sequence is where the head is moved to. -/
theorem seqApply_readBack {k₀ : Cache} (hs : s < p.nSeqIds) (hk : Topless p s k) (hps : ps ≠ [])
    (hrm : k.seqRm p s (-1) (-1) = some k₀) (hr : SlotFound p k₀ (seqUbatch s ps) r)
    (h : k₀.applyUbatch p r (seqUbatch s ps) = some k')
    (hrows : r.rows = [(p.stream s, List.range' a ps.length)]) :
    ReadBack (k'.cells (p.stream s)) a s ps := by
  have hlen := List.length_pos_iff.2 hps
  have hholds (j : Nat) (hj : j < ps.length) :
      ((k'.cells (p.stream s)).cell (a + j)).Holds s ps[j] :=
    seqApply_holds hs hk hrm hr h (seqSlot_zip hrows hj)
  obtain ⟨hfirst, hpos⟩ := hholds 0 hlen
  obtain ⟨hlast, hpos'⟩ := hholds (ps.length - 1) (by omega)
  have hend : a + (ps.length - 1) = a + ps.length - 1 := by omega
  rw [hend] at hlast hpos'
  refine ⟨?_, ?_, ?_, hfirst, hlast⟩
  · have hplace : (p.stream s, a + (ps.length - 1)) ∈ r.places :=
      (mem_of_zip (seqSlot_zip hrows (by omega))).1
    have hin := (hr.usable _ hplace).1
    dsimp only at hin
    rw [applyUbatch_size h]
    omega
  · rw [Nat.add_zero] at hpos
    rw [hpos, List.headD_eq_head?_getD, List.head?_eq_getElem?, List.getElem?_eq_getElem hlen]
    rfl
  · rw [hpos', List.getLastD_eq_getLast?, List.getLast?_eq_getElem?,
      List.getElem?_eq_getElem (by omega)]
    rfl

theorem Topless.applied {k₀ : Cache} (hk : Topless p s k) (hrm : k.seqRm p s (-1) (-1) = some k₀)
    (hps : ∀ q ∈ ps, PosLegal p q) (hr : SlotFound p k₀ (seqUbatch s ps) r)
    (h : k₀.applyUbatch p r (seqUbatch s ps) = some k') : Topless p s k' := by
  rcases hk with hnone | hk
  · exact .inl hnone
  · by_cases hnone : p.swaType = .none
    · exact .inl hnone
    · refine .inr fun f hf hfs => ?_
      rcases applySeq_fact hr h hf hfs with hq | ⟨_, hf⟩
      · exact (hps _ hq).2.resolve_left hnone
      · exact hk f ((facts_seqRm_open hrm f).1 hf).1 hfs

/-- The cells of a single sequence are read back or refused. -/
theorem readSeqMeta_booked (hk : Booked p n k) (hs : s < p.nSeqIds) (htop : Topless p s k)
    (hm : m ≠ 0)
    (hlegal : ∀ ps rest, readPositions m bs = .ok (ps, rest) → ∀ q ∈ ps, PosLegal p q) :
    (readSeqMeta p s (p.stream s) m k bs).Returns
      (fun k' rest => Booked p n k' ∧ Topless p s k' ∧ m ≤ n ∧
        ∃ ps, readPositions m bs = .ok (ps, rest))
      (Booked p n) (Booked p n) := by
  have hvalid : validSeq p s = true :=
    validSeq_eq.2 ⟨Int.natCast_nonneg s, by rw [Int.toNat_natCast]; exact hs⟩
  obtain ⟨k₀, hrm, hk₀⟩ := hk.seqRm (.inr hvalid) (-1) (-1)
  rw [readSeqMeta, hrm]
  dsimp only
  cases hread : readPositions m bs with
  | null => exact hk₀
  | crash u => exact hk₀
  | ok x =>
    obtain ⟨ps, rest⟩ := x
    have hps := hlegal ps rest hread
    have hlen := readPositions_length hread
    have hne : ps ≠ [] := by
      rintro rfl
      exact hm hlen.symm
    obtain ⟨found, hfound⟩ :=
      findSlot_returns (seqUbatch_servable hs hne) hk₀.fits.headsFit hk₀.regular true
    dsimp only
    rw [hfound]
    cases found with
    | none => exact hk₀
    | some r =>
      have hr := findSlot_spec (fun h => hne (List.map_eq_nil_iff.1 h)) hfound
      have hacc : ∀ x ∈ (seqUbatch s ps).tokens, Accepted p x := seqUbatch_accepted hs
      obtain ⟨k', h, hk'⟩ := hk₀.applyUbatch (hr.fillable fun x hx => (hacc x hx).valid) hacc
        (seqUbatch_storable fun q hq => (hps q hq).1)
      obtain ⟨a, hrows⟩ := seqSlot_run hs hne hfound
      have hback := seqApply_readBack hs htop hne hrm hr h hrows
      have hhead : r.head? = some a := by
        rw [SlotInfo.head?, hrows]
        dsimp only
        rw [List.head?_range', if_neg (fun h => hne (List.length_eq_zero_iff.1 h))]
      have hfit := hback.1
      rw [hk'.fits.size] at hfit
      dsimp only
      rw [h, hhead]
      dsimp only
      rw [if_pos hback]
      have htop' : Topless p s k' := htop.applied hrm hps hr h
      exact ⟨hk'.setHead (by omega) _, htop', by omega, ps, rfl⟩

end Sequence

/-! ### Streams -/

section Streams
variable {cfg : Config} {s : Int} {n m t : Nat} {st : Store}

/-- The cells that a refused state is replaced by. -/
def Cleaned (cfg : Config) (s : Int) (n : Nat) (k : Cache) : Prop :=
  ∃ k', cleanup cfg s k = some k' ∧ Booked cfg.params n k'

theorem cleaned_of_booked {k : Cache} (hk : Booked cfg.params n k)
    (hs : s = -1 ∨ validSeq cfg.params s) : Cleaned cfg s n k := by
  rw [Cleaned, cleanup]
  split
  · exact ⟨_, rfl, hk.clear⟩
  · exact hk.seqRm hs (-1) (-1)

/-- The data behind the cells. -/
theorem readData_returns (hk : Booked cfg.params n st.cache) (hs : s = -1 ∨ validSeq cfg.params s)
    (hm : m ≤ n) (bs : List UInt8) :
    Part.Returns
      (fun (st' : Store) rest => st'.cache = st.cache ∧ dataFields cfg m bs = .ok ((), rest))
      (Booked cfg.params n) (Cleaned cfg s n)
      (match readData cfg t m st bs with
      | .ok (st, rest) => .ok st rest
      | .null => .ended st.cache
      | .crash _ => .refused st.cache) := by
  have hdata := readData_alike (t := t) cfg st ((hk.fits.size t).symm ▸ hm) bs
  generalize readData cfg t m st bs = l at hdata ⊢
  generalize dataFields cfg m bs = l' at hdata
  cases hdata with
  | null => exact hk
  | crash f => exact cleaned_of_booked hk hs
  | @ok x y h =>
    obtain ⟨st', rest⟩ := x
    obtain ⟨_, rest'⟩ := y
    obtain ⟨hcache, rfl⟩ := h
    exact ⟨hcache, rfl⟩

theorem readAllMeta_booked (hk : Booked cfg.params n st.cache) (ht : t < cfg.params.nStream)
    (hlegal : CellsLegal cfg.params m bs) :
    (readAllMeta cfg t m st bs).Returns
      (fun st' rest => Booked cfg.params n st'.cache ∧ m ≤ n ∧
        cellFields cfg.params m bs = .ok ((), rest))
      (Booked cfg.params n) (Cleaned cfg (-1) n) := by
  rw [readAllMeta, hk.fits.size]
  split
  case isTrue => exact cleaned_of_booked hk (.inl rfl)
  case isFalse hle =>
    have hclear : Booked cfg.params n (st.clear cfg).cache := hk.clear
    have hempty : ∀ j, 0 ≤ j → (((st.clear cfg).cache).at' (t, j)).pos = -1 := by
      intro j _
      rw [clear, at', Cache.clear]
      dsimp only
      rw [if_pos ht]
      rfl
    have hcells := readCells_booked hclear ht (by omega) hempty hlegal
    generalize readCells cfg.params t m 0 (st.clear cfg).cache bs = part at hcells ⊢
    cases part with
    | fault => exact hcells
    | ended k => exact hcells
    | refused k =>
      refine ⟨_, if_pos rfl, ?_⟩
      have hsame : k.clear cfg.params = (st.clear cfg).cache.clear cfg.params := hcells
      rw [hsame]
      exact hclear.clear
    | ok k rest => exact ⟨hcells.1.setHead (Nat.zero_le n) t, by omega, hcells.2⟩

theorem readSection_booked (hs : s = -1 ∨ validSeq cfg.params s) (ht : t < cfg.params.nStream)
    (hk : Booked cfg.params n st.cache) (htop : 0 ≤ s → Topless cfg.params s.toNat st.cache)
    (hm : m ≠ 0) (hlegal : SectionLegal cfg.params s m bs) :
    (readSection cfg s (destStream cfg.params s t) m st bs).Returns
      (fun st' rest => Booked cfg.params n st'.cache ∧
        (0 ≤ s → Topless cfg.params s.toNat st'.cache) ∧
        sectionFields cfg s m bs = .ok ((), rest))
      (Booked cfg.params n) (Cleaned cfg s n) := by
  rw [SectionLegal] at hlegal
  rw [readSection, readMeta, destStream, sectionFields]
  split at hlegal
  case isTrue h =>
    subst h
    have hall : allFields cfg m bs =
        (cellFields cfg.params m bs).bind fun x => dataFields cfg m x.2 := rfl
    simp only [if_true, hall]
    have hmeta := readAllMeta_booked hk ht hlegal
    generalize readAllMeta cfg t m st bs = part at hmeta ⊢
    cases part with
    | fault => exact hmeta
    | ended k => exact hmeta
    | refused k => exact hmeta
    | ok st' rest =>
      obtain ⟨hk', hle, hfields⟩ := hmeta
      have hdata := readData_returns (t := t) (s := -1) hk' (.inl rfl) hle rest
      rw [hfields]
      dsimp only [Load.bind]
      cases hread : readData cfg t m st' rest with
      | null => exact hk'
      | crash f => exact cleaned_of_booked hk' (.inl rfl)
      | ok x =>
        rw [hread] at hdata
        obtain ⟨hcache, hfields'⟩ := hdata
        refine ⟨?_, fun h => absurd h (by decide), hfields'⟩
        rw [hcache]
        exact hk'
  case isFalse h =>
    obtain ⟨hnn, hlt⟩ := validSeq_eq.1 (hs.resolve_left h)
    have hall : (do let _ ← readPositions m; dataFields cfg m : Reader Unit Unit) bs =
        (readPositions m bs).bind fun x => dataFields cfg m x.2 := rfl
    rw [if_neg h, if_neg h, if_neg h, hall]
    have hmeta := readSeqMeta_booked hk hlt (htop hnn) hm hlegal
    generalize readSeqMeta cfg.params s.toNat (cfg.params.stream s.toNat) m st.cache bs =
      part at hmeta ⊢
    cases part with
    | fault => exact hmeta
    | ended k => exact hmeta
    | refused k => exact cleaned_of_booked hmeta hs
    | ok k' rest =>
      obtain ⟨hk', htop', hle, ps, hfields⟩ := hmeta
      have hk₁ : Booked cfg.params n ({ st with cache := k' } : Store).cache := hk'
      have hdata := readData_returns (t := cfg.params.stream s.toNat) (s := s) hk₁ hs hle rest
      rw [hfields]
      dsimp only [Load.bind]
      cases hread : readData cfg (cfg.params.stream s.toNat) m { st with cache := k' } rest with
      | null => exact hk'
      | crash f => exact cleaned_of_booked hk' hs
      | ok x =>
        rw [hread] at hdata
        obtain ⟨hcache, hfields'⟩ := hdata
        refine ⟨?_, fun _ => ?_, hfields'⟩
        · rw [hcache]
          exact hk'
        · rw [hcache]
          exact htop'

/-- How a reading that keeps the bookkeeping ends. -/
def Outcome.Booked (p : Params) (n : Nat) : Outcome → Prop
  | .done st _ => Cache.Booked p n st.cache
  | .threw k => Cache.Booked p n k
  | .fault => False

theorem readStreams_booked {ts : List Nat} (hs : s = -1 ∨ validSeq cfg.params s)
    (hts : ∀ t ∈ ts, t < cfg.params.nStream) (hk : Booked cfg.params n st.cache)
    (htop : 0 ≤ s → Topless cfg.params s.toNat st.cache)
    (hlegal : StreamsLegal cfg s ts.length bs) :
    (readStreams cfg s ts st bs).Booked cfg.params n := by
  induction ts generalizing st bs with
  | nil => exact hk
  | cons t ts ih =>
    have hts' : ∀ t ∈ ts, t < cfg.params.nStream := fun t ht => hts t (List.mem_cons_of_mem _ ht)
    rw [readStreams]
    cases hnum : (Reader.number 4 bs : Load Unit _) with
    | null => exact hk
    | crash u => exact number_no_crash bs u hnum
    | ok x =>
      obtain ⟨m, rest⟩ := x
      have hrest := hlegal m rest hnum
      dsimp only
      split
      case isTrue hm =>
        rw [if_pos hm] at hrest
        exact ih hts' hk htop hrest
      case isFalse hm =>
        rw [if_neg hm] at hrest
        have hsection := readSection_booked hs (hts t (.head _)) hk htop hm hrest.1
        rw [destStream] at hsection
        generalize readSection cfg s (if s = -1 then t else cfg.params.stream s.toNat) m st rest =
          part at hsection ⊢
        cases part with
        | fault => exact hsection
        | ended k => exact hsection
        | refused k =>
          obtain ⟨k', hclean, hk'⟩ := hsection
          dsimp only
          rw [hclean]
          exact hk'
        | ok st' rest' =>
          obtain ⟨hk', htop', hfields⟩ := hsection
          exact ih hts' hk' htop' (hrest.2 rest' hfields)

/-- The reading of a state ends with the bookkeeping, whether it completes or not. -/
theorem stateRead_booked (hs : s = -1 ∨ validSeq cfg.params s)
    (hk : Booked cfg.params n st.cache) (htop : 0 ≤ s → Topless cfg.params s.toNat st.cache)
    (hlegal : StateLegal cfg s bs) : (stateRead cfg s st bs).Booked cfg.params n := by
  rw [stateRead, if_pos hs]
  cases hnum : (Reader.number 4 bs : Load Unit _) with
  | null => exact hk
  | crash u => exact number_no_crash bs u hnum
  | ok x =>
    obtain ⟨m, rest⟩ := x
    dsimp only
    split
    case isFalse => exact hk
    case isTrue hm =>
      subst hm
      refine readStreams_booked hs (fun t => List.mem_range.1) hk htop ?_
      rw [List.length_range]
      exact hlegal rest hnum

end Streams

end ActQuant.KvCache.Store
