import ActQuant.Lib.Bytes
import ActQuant.Lib.Interleave
import ActQuant.Lib.Partition
import ActQuant.Quant.GgmlType

namespace ActQuant.Quant.ParallelDequant
open ActQuant.Lib Relation

/-- What `llama_tensor_dequantize_impl` is given: a tensor of whole blocks, and the conversions,
which are any functions of the bytes of one block. -/
structure Job (F : Type) where
  type : GgmlType
  data : List UInt8
  nelements : Nat
  fp16ToFp32 : List UInt8 → F
  bf16ToFp32 : List UInt8 → F
  toFloat : GgmlType → Option (List UInt8 → List F)
  whole : type.blckSize ∣ nelements
  data_length : data.length = nelements / type.blckSize * type.traits.typeSize
  toFloat_length : ∀ f, toFloat type = some f → ∀ b, (f b).length = type.blckSize

inductive DequantizeError where
  | noDequantization (type : GgmlType)
  | cannotConvert (type : GgmlType)
  deriving DecidableEq

/-- The argument `nels` of a thread is an `int`. -/
def toInt (n : Nat) : Int := Int.bmod n (2 ^ 32)

/-- What a thread is started with, the number of its elements before it is passed. -/
structure Thread where
  inBuffOffs : Nat
  outBuffOffs : Nat
  thrElems : Nat
  deriving DecidableEq

/-- A row conversion under way: where the next block is read and written, and the blocks left. -/
structure Worker where
  inOffs : Nat
  outOffs : Nat
  left : Nat

/-- `f32_output`, as far as it has been written. -/
abbrev Output (F : Type) := Nat → Option F

def writeAt (out : Output F) (o : Nat) (xs : List F) : Output F :=
  fun i => if o ≤ i ∧ i < o + xs.length then xs[i - o]? else out i

section Model
variable {F : Type} (J : Job F)

/-- The conversion of a block of the tensor's type. -/
def conversion : Except DequantizeError (List UInt8 → List F) :=
  if J.type.isQuantized then
    match J.toFloat J.type with
    | none => .error (.noDequantization J.type)
    | some f => .ok f
  else if J.type = .f16 then .ok fun b => [J.fp16ToFp32 b]
  else if J.type = .bf16 then .ok fun b => [J.bf16ToFp32 b]
  else .error (.cannotConvert J.type)

def blockSize : Nat := if J.type = .f16 ∨ J.type = .bf16 then 1 else J.type.blckSize

def blockSizeBytes : Nat := J.type.traits.typeSize

def nblocks : Nat := J.nelements / blockSize J

/-- One turn of the loop that starts the threads, with the two offsets so far. -/
def spawnTurn (nthread : Nat) (st : Nat × Nat × List Thread) (tnum : Nat) :
    Nat × Nat × List Thread :=
  let blocksPerThread := nblocks J / nthread
  let spareBlocks := nblocks J - blocksPerThread * nthread
  let thrBlocks := blocksPerThread + if tnum = nthread - 1 then spareBlocks else 0
  let thrElems := thrBlocks * blockSize J
  let thrBlockBytes := thrBlocks * blockSizeBytes J
  (st.1 + thrBlockBytes, st.2.1 + thrElems, st.2.2 ++ [⟨st.1, st.2.1, thrElems⟩])

def threads (nthread : Nat) : List Thread :=
  ((List.range nthread).foldl (spawnTurn J nthread) (0, 0, [])).2.2

/-- `compute` of a thread; a row conversion takes no block where the count is negative. -/
def Thread.worker (x : Thread) : Worker :=
  ⟨x.inBuffOffs, x.outBuffOffs, ((toInt x.thrElems).tdiv (blockSize J)).toNat⟩

variable (conv : List UInt8 → List F)

/-- The block of a row conversion that is read at one offset and written at another. -/
def convertBlock (i o : Nat) (out : Output F) : Output F :=
  writeAt out o (conv (slice J.data i (i + blockSizeBytes J)))

/-- A row conversion of so many blocks. -/
def convertRow : Nat → Nat → Nat → Output F → Output F
  | 0, _, _, out => out
  | n + 1, i, o, out =>
    convertRow n (i + blockSizeBytes J) (o + blockSize J) (convertBlock J conv i o out)

/-- The steps of a thread. -/
def compute (out : Output F) (w : Worker) : Option (Output F × Worker) :=
  if w.left = 0 then none
  else
    some (convertBlock J conv w.inOffs w.outOffs out,
      ⟨w.inOffs + blockSizeBytes J, w.outOffs + blockSize J, w.left - 1⟩)

/-- The path of one thread. -/
def dequantizeSequential : Except DequantizeError (Output F) :=
  (conversion J).map fun conv => convertRow J conv (nblocks J) 0 0 fun _ => none

/-- The outcomes of `llama_tensor_dequantize_impl`, one for each schedule of its threads. -/
inductive LlamaTensorDequantizeImpl (nthread : Int) : Except DequantizeError (Output F) → Prop where
  | throws (h : conversion J = .error e) : LlamaTensorDequantizeImpl nthread (.error e)
  | sequential (h : nthread < 2) : LlamaTensorDequantizeImpl nthread (dequantizeSequential J)
  | parallel (h : ¬ nthread < 2) (hconv : conversion J = .ok f)
      (hrun : ReflTransGen (Interleave (compute J f))
        (fun _ => none, (threads J nthread.toNat).map (Thread.worker J)) q)
      (hjoin : Stopped (compute J f) q) : LlamaTensorDequantizeImpl nthread (.ok q.1)

/-- The element of its block that belongs at an offset of the output. -/
def expected : Output F := fun i =>
  let b := i / blockSize J
  if i < J.nelements then
    (conv (slice J.data (b * blockSizeBytes J) (b * blockSizeBytes J + blockSizeBytes J)))[
      i % blockSize J]?
  else none

end Model

section Blocks
variable {F : Type} {J : Job F} {conv : List UInt8 → List F}

theorem blckSize_pos_of_isQuantized : ∀ t : GgmlType, t.isQuantized = true → 0 < t.blckSize := by
  intro t h
  cases t <;> first | exact absurd h (by decide) | exact Nat.zero_lt_succ _

/-- A type that is converted has blocks, and their conversions have their length. -/
theorem conversion_blocks (h : conversion J = .ok conv) :
    blockSize J = J.type.blckSize ∧ 0 < blockSize J ∧
      ∀ b, (conv b).length = blockSize J := by
  rw [conversion] at h
  split_ifs at h with hq h16 hb16
  · have hplain : ¬ (J.type = .f16 ∨ J.type = .bf16) := by
      rintro (ht | ht) <;> rw [ht] at hq <;> exact absurd hq (by decide)
    have hsize : blockSize J = J.type.blckSize := by rw [blockSize, if_neg hplain]
    cases hf : J.toFloat J.type with
    | none => rw [hf] at h; cases h
    | some f =>
      rw [hf] at h
      obtain rfl := Except.ok.inj h
      exact ⟨hsize, hsize ▸ blckSize_pos_of_isQuantized _ hq,
        fun b => (J.toFloat_length f hf b).trans hsize.symm⟩
  · cases h
    have hone : blockSize J = 1 := by rw [blockSize, if_pos (.inl h16)]
    exact ⟨by rw [hone, h16]; rfl, hone ▸ Nat.one_pos, fun b => hone.symm⟩
  · cases h
    have hone : blockSize J = 1 := by rw [blockSize, if_pos (.inr hb16)]
    exact ⟨by rw [hone, hb16]; rfl, hone ▸ Nat.one_pos, fun b => hone.symm⟩

theorem nblocks_mul (h : conversion J = .ok conv) : nblocks J * blockSize J = J.nelements := by
  rw [nblocks, (conversion_blocks h).1]
  exact Nat.div_mul_cancel J.whole

theorem data_length_eq (h : conversion J = .ok conv) :
    J.data.length = nblocks J * blockSizeBytes J := by
  rw [J.data_length, nblocks, (conversion_blocks h).1, blockSizeBytes]

/-- Writing the conversion of block `b` at its place gives the elements of that block. -/
theorem convertBlock_apply (h : conversion J = .ok conv) (hb : b < nblocks J) (out : Output F)
    (i : Nat) :
    convertBlock J conv (b * blockSizeBytes J) (b * blockSize J) out i =
      if i / blockSize J = b then expected J conv i else out i := by
  obtain ⟨_, hpos, hlen⟩ := conversion_blocks h
  have hiff := Nat.div_eq_iff (x := i) (y := b) hpos
  rw [convertBlock, writeAt, hlen]
  by_cases hi : i / blockSize J = b
  · obtain ⟨hle, hlt⟩ := hiff.1 hi
    have hin : b * blockSize J ≤ i ∧ i < b * blockSize J + blockSize J := ⟨hle, by omega⟩
    have hmod : i - b * blockSize J = i % blockSize J := by
      rw [Nat.mod_eq_sub_mul_div, hi, Nat.mul_comm]
    have hrange : i < J.nelements := by
      have hnext := Nat.mul_le_mul_right (blockSize J) hb
      rw [nblocks_mul h, Nat.succ_mul] at hnext
      omega
    rw [if_pos hin, if_pos hi, expected, if_pos hrange, hi, hmod]
  · have hout : ¬ (b * blockSize J ≤ i ∧ i < b * blockSize J + blockSize J) :=
      fun hin => hi (hiff.2 ⟨hin.1, by omega⟩)
    rw [if_neg hout, if_neg hi]

end Blocks

section Schedules
variable {F : Type} {J : Job F} {conv : List UInt8 → List F}

/-- A conversion under way starts at a block and stays within the tensor. -/
structure Placed (J : Job F) (w : Worker) (b : Nat) : Prop where
  inOffs : w.inOffs = b * blockSizeBytes J
  outOffs : w.outOffs = b * blockSize J
  left : b + w.left ≤ nblocks J

/-- What is written is right, and what is not is in a block that some worker has left. -/
structure Inv (J : Job F) (conv : List UInt8 → List F) (out : Output F) (ws : List Worker) :
    Prop where
  placed : ∀ w ∈ ws, ∃ b, Placed J w b
  written : ∀ i, out i = none ∨ out i = expected J conv i
  pending : ∀ i < J.nelements, out i = expected J conv i ∨
    ∃ w ∈ ws, ∃ b, Placed J w b ∧ b ≤ i / blockSize J ∧ i / blockSize J < b + w.left

theorem inv_compute (h : conversion J = .ok conv) {us vs : List Worker}
    (hI : Inv J conv out (us ++ w :: vs)) (hw : compute J conv out w = some (out', w')) :
    Inv J conv out' (us ++ w' :: vs) := by
  rw [compute] at hw
  split_ifs at hw with hleft
  obtain ⟨rfl, rfl⟩ := Prod.mk.inj (Option.some.inj hw)
  obtain ⟨b, hb⟩ := hI.placed w (List.mem_append_right us List.mem_cons_self)
  have hlt : b < nblocks J := by
    have hle := hb.left
    omega
  have hnext : Placed J ⟨w.inOffs + blockSizeBytes J, w.outOffs + blockSize J, w.left - 1⟩
      (b + 1) := by
    refine ⟨?_, ?_, ?_⟩
    · rw [hb.inOffs, Nat.succ_mul]
    · rw [hb.outOffs, Nat.succ_mul]
    · have hle := hb.left
      simp only
      omega
  have hout (i : Nat) : convertBlock J conv w.inOffs w.outOffs out i =
      if i / blockSize J = b then expected J conv i else out i := by
    rw [hb.inOffs, hb.outOffs]
    exact convertBlock_apply h hlt out i
  refine ⟨fun x hx => ?_, fun i => ?_, fun i hi => ?_⟩
  · rcases mem_turn w hx with rfl | hx
    · exact ⟨b + 1, hnext⟩
    · exact hI.placed x hx
  · rw [hout]
    split_ifs with hib
    · exact .inr rfl
    · exact hI.written i
  · rw [hout]
    split_ifs with hib
    · exact .inl rfl
    · rcases hI.pending i hi with hdone | ⟨x, hx, c, hc, hle, hlt'⟩
      · exact .inl hdone
      · by_cases hxw : x = w
        · -- the block of the worker's turn was another one, so that this one is still left
          subst hxw
          have hcb : c = b := by
            have hoffs := hc.outOffs.symm.trans hb.outOffs
            exact Nat.eq_of_mul_eq_mul_right (conversion_blocks h).2.1 hoffs
          subst hcb
          refine .inr ⟨_, List.mem_append_right us List.mem_cons_self, c + 1, hnext, ?_, ?_⟩
          · omega
          · simp only
            omega
        · exact .inr ⟨x, mem_turn_of_ne _ hx hxw, c, hc, hle, hlt'⟩

theorem compute_stopped (h : compute J conv out w = none) : w.left = 0 := by
  rw [compute] at h
  split_ifs at h with hleft
  exact hleft

/-- Once all the workers are through, the output is the expected one. -/
theorem Inv.output_eq (hI : Inv J conv out ws) (hstop : ∀ w ∈ ws, w.left = 0) :
    out = expected J conv := by
  funext i
  rcases hI.written i with hnone | heq
  · by_cases hi : i < J.nelements
    · rcases hI.pending i hi with heq | ⟨w, hw, b, _, hle, hlt⟩
      · exact heq
      · rw [hstop w hw] at hlt
        omega
    · rw [hnone, expected, if_neg hi]
  · exact heq

theorem compute_wf (J : Job F) (conv : List UInt8 → List F) :
    WellFounded fun q p => Interleave (compute J conv) p q := by
  apply interleave_wf (fun _ => 0) Worker.left
  intro out out' w w' hw
  rw [compute] at hw
  split_ifs at hw with hleft
  obtain ⟨rfl, rfl⟩ := Prod.mk.inj (Option.some.inj hw)
  simp only
  omega

theorem outputs (h : conversion J = .ok conv) (hI : Inv J conv (fun _ => none) ws)
    (hrun : ReflTransGen (Interleave (compute J conv)) (fun _ => none, ws) q)
    (hjoin : Stopped (compute J conv) q) : q.1 = expected J conv := by
  have hq : Inv J conv q.1 q.2 :=
    interleave_invariant (fun hI hw => inv_compute h hI hw) hI hrun
  exact hq.output_eq fun w hw => compute_stopped (hjoin w hw)

/-- The row conversion of one worker is its steps one after the other. -/
theorem convertRow_run (n i o : Nat) (out : Output F) :
    ∃ i' o', ReflTransGen (Interleave (compute J conv)) (out, [⟨i, o, n⟩])
      (convertRow J conv n i o out, [⟨i', o', 0⟩]) := by
  induction n generalizing i o out with
  | zero => exact ⟨i, o, .refl⟩
  | succ n ih =>
    obtain ⟨i', o', hrun⟩ := ih (i + blockSizeBytes J) (o + blockSize J)
      (convertBlock J conv i o out)
    have hstep : compute J conv out ⟨i, o, n + 1⟩ =
        some (convertBlock J conv i o out, ⟨i + blockSizeBytes J, o + blockSize J, n⟩) := rfl
    exact ⟨i', o', .head (.turn [] [] hstep) hrun⟩

theorem inv_whole (J : Job F) (conv : List UInt8 → List F) (h : conversion J = .ok conv) :
    Inv J conv (fun _ => none) [⟨0, 0, nblocks J⟩] := by
  have hplaced : Placed J ⟨0, 0, nblocks J⟩ 0 :=
    ⟨(Nat.zero_mul _).symm, (Nat.zero_mul _).symm, (Nat.zero_add _).le⟩
  refine ⟨fun w hw => ⟨0, List.mem_singleton.1 hw ▸ hplaced⟩, fun i => .inl rfl, fun i hi => ?_⟩
  refine .inr ⟨_, .head _, 0, hplaced, Nat.zero_le _, ?_⟩
  rw [Nat.zero_add]
  apply Nat.div_lt_of_lt_mul
  rw [Nat.mul_comm, nblocks_mul h]
  exact hi

theorem dequantizeSequential_eq (h : conversion J = .ok conv) :
    dequantizeSequential J = .ok (expected J conv) := by
  obtain ⟨i', o', hrun⟩ : ∃ i' o', ReflTransGen (Interleave (compute J conv))
      (fun _ => none, [⟨0, 0, nblocks J⟩])
      (convertRow J conv (nblocks J) 0 0 fun _ => none, [⟨i', o', 0⟩]) :=
    convertRow_run (nblocks J) 0 0 fun _ => none
  have hstop : Stopped (compute J conv)
      (convertRow J conv (nblocks J) 0 0 fun _ => none, [⟨i', o', 0⟩]) := by
    intro w hw
    rw [List.mem_singleton.1 hw]
    rfl
  have hout := outputs h (inv_whole J conv h) hrun hstop
  rw [dequantizeSequential, h]
  exact congrArg Except.ok hout

end Schedules
section Partition
variable {F : Type} (J : Job F)

/-- The elements of the last thread, which has the remainder too. -/
def lastElems (nthread : Nat) : Nat :=
  (nblocks J / nthread + nblocks J % nthread) * blockSize J

def evenThread (blocksPerThread t : Nat) : Thread :=
  ⟨t * blocksPerThread * blockSizeBytes J, t * blocksPerThread * blockSize J,
    blocksPerThread * blockSize J⟩

theorem spawn_even (m : Nat) :
    ∀ k ≤ m, (List.range k).foldl (spawnTurn J (m + 1)) (0, 0, []) =
      (k * (nblocks J / (m + 1)) * blockSizeBytes J, k * (nblocks J / (m + 1)) * blockSize J,
        (List.range k).map (evenThread J (nblocks J / (m + 1)))) := by
  intro k hk
  induction k with
  | zero => simp
  | succ k ih =>
    have hlast : k ≠ m + 1 - 1 := by omega
    rw [List.range_succ, List.foldl_append, ih (by omega), List.foldl_cons, List.foldl_nil,
      spawnTurn, if_neg hlast, List.map_append, List.map_singleton]
    simp only [Nat.add_zero, Nat.succ_mul, Nat.add_mul, evenThread]

theorem threads_eq (m : Nat) :
    threads J (m + 1) =
      (List.range m).map (evenThread J (nblocks J / (m + 1))) ++
        [⟨m * (nblocks J / (m + 1)) * blockSizeBytes J, m * (nblocks J / (m + 1)) * blockSize J,
          lastElems J (m + 1)⟩] := by
  have hspare : nblocks J - nblocks J / (m + 1) * (m + 1) = nblocks J % (m + 1) := by
    rw [Nat.mod_eq_sub_mul_div, Nat.mul_comm]
  rw [threads, List.range_succ, List.foldl_append, spawn_even J m m le_rfl, List.foldl_cons,
    List.foldl_nil, spawnTurn, if_pos (Nat.add_sub_cancel m 1).symm, hspare, lastElems]

theorem toInt_eq_iff (n : Nat) : toInt n = n ↔ n < 2 ^ 31 := by
  have hdef : toInt n = if (n : Int) % 4294967296 < (4294967296 + 1) / 2 then
      (n : Int) % 4294967296 else (n : Int) % 4294967296 - 4294967296 := Int.bmod_def n 4294967296
  constructor
  · intro h
    rw [hdef] at h
    omega
  · intro h
    rw [hdef]
    omega

/-- The blocks that a thread converts. -/
def blocksOf (x : Thread) : List Nat :=
  List.range' (x.outBuffOffs / blockSize J) (Thread.worker J x).left

/-- What the split of a tensor among threads is for. -/
structure Splits (nthread : Nat) : Prop where
  counts : ∀ x ∈ threads J nthread, toInt x.thrElems = x.thrElems
  blocks : (threads J nthread).flatMap (blocksOf J) = List.range (nblocks J)
  offsets : ∀ x ∈ threads J nthread, ∃ b,
    x.inBuffOffs = b * blockSizeBytes J ∧ x.outBuffOffs = b * blockSize J
  accesses : ∀ x ∈ threads J nthread,
    x.inBuffOffs + (Thread.worker J x).left * blockSizeBytes J ≤ J.data.length ∧
      x.outBuffOffs + (Thread.worker J x).left * blockSize J ≤ J.nelements

/-- The threads share the blocks out, and whatever their schedule, there is an outcome and it is
that of one thread. -/
structure ParallelAsSequential (nthread : Int) : Prop where
  splits : ∀ conv, conversion J = .ok conv → 2 ≤ nthread → Splits J nthread.toNat
  returns : ∃ r, LlamaTensorDequantizeImpl J nthread r
  outcome : ∀ r, LlamaTensorDequantizeImpl J nthread r → r = dequantizeSequential J

variable {J} {conv : List UInt8 → List F}

theorem worker_left (hpos : 0 < blockSize J) (hk : k * blockSize J < 2 ^ 31) (i o : Nat) :
    (Thread.worker J ⟨i, o, k * blockSize J⟩).left = k := by
  rw [Thread.worker, (toInt_eq_iff _).2 hk]
  have hdiv : ((k * blockSize J : Nat) : Int).tdiv (blockSize J) = (k : Int) := by
    rw [Int.natCast_mul]
    exact Int.mul_tdiv_cancel _ (Int.natCast_ne_zero.2 hpos.ne')
  rw [hdiv, Int.toNat_natCast]

theorem flatMap_even (hpos : 0 < blockSize J) (hq : q * blockSize J < 2 ^ 31) (m : Nat) :
    ((List.range m).map (evenThread J q)).flatMap (blocksOf J) = List.range (m * q) := by
  induction m with
  | zero => simp
  | succ m ih =>
    have hlast : blocksOf J (evenThread J q m) = List.range' (m * q) q := by
      rw [blocksOf, evenThread, worker_left hpos hq, Nat.mul_div_cancel _ hpos]
    rw [List.range_succ, List.map_append, List.flatMap_append, ih, List.map_singleton,
      List.flatMap_singleton, hlast, Nat.succ_mul, List.range_eq_range', List.range_eq_range']
    have happend := List.range'_append_1 (s := 0) (m := m * q) (n := q)
    rwa [Nat.zero_add] at happend

theorem blocks_sum (n m : Nat) : m * (n / (m + 1)) + (n / (m + 1) + n % (m + 1)) = n := by
  have h := Nat.div_add_mod n (m + 1)
  rw [Nat.succ_mul] at h
  omega

/-- The number of elements of the last thread is the largest one. -/
theorem evenElems_le (m : Nat) : nblocks J / (m + 1) * blockSize J ≤ lastElems J (m + 1) :=
  Nat.mul_le_mul_right _ (Nat.le_add_right _ _)

/-- What a thread is started with where its count is not cut off. -/
theorem thread_cases (hlast : lastElems J (m + 1) < 2 ^ 31) (hx : x ∈ threads J (m + 1)) :
    ∃ b k, x = ⟨b * blockSizeBytes J, b * blockSize J, k * blockSize J⟩ ∧
      k * blockSize J < 2 ^ 31 ∧ b + k ≤ nblocks J := by
  have hsum := blocks_sum (nblocks J) m
  rw [threads_eq] at hx
  rcases List.mem_append.1 hx with hx | hx
  · obtain ⟨t, ht, rfl⟩ := List.mem_map.1 hx
    have hle : (t + 1) * (nblocks J / (m + 1)) ≤ m * (nblocks J / (m + 1)) :=
      Nat.mul_le_mul_right _ (List.mem_range.1 ht)
    refine ⟨_, _, rfl, (evenElems_le m).trans_lt hlast, ?_⟩
    rw [← Nat.succ_mul]
    exact hle.trans (Nat.le_of_add_right_le hsum.le)
  · rw [List.mem_singleton.1 hx]
    exact ⟨_, _, rfl, hlast, hsum.le⟩

theorem splits (h : conversion J = .ok conv) (hlast : lastElems J (m + 1) < 2 ^ 31) :
    Splits J (m + 1) := by
  have hpos := (conversion_blocks h).2.1
  refine ⟨fun x hx => ?_, ?_, fun x hx => ?_, fun x hx => ?_⟩
  · obtain ⟨b, k, rfl, hk, _⟩ := thread_cases hlast hx
    exact (toInt_eq_iff _).2 hk
  · have heven := flatMap_even hpos ((evenElems_le m).trans_lt hlast) m
    have hrest : blocksOf J ⟨m * (nblocks J / (m + 1)) * blockSizeBytes J,
        m * (nblocks J / (m + 1)) * blockSize J, lastElems J (m + 1)⟩ =
          List.range' (m * (nblocks J / (m + 1)))
            (nblocks J / (m + 1) + nblocks J % (m + 1)) := by
      rw [blocksOf, lastElems, worker_left hpos hlast, Nat.mul_div_cancel _ hpos]
    have happend := List.range'_append_1 (s := 0) (m := m * (nblocks J / (m + 1)))
      (n := nblocks J / (m + 1) + nblocks J % (m + 1))
    rw [Nat.zero_add, blocks_sum] at happend
    rw [threads_eq, List.flatMap_append, heven, List.flatMap_singleton, hrest,
      List.range_eq_range', happend, List.range_eq_range']
  · obtain ⟨b, k, rfl, _, _⟩ := thread_cases hlast hx
    exact ⟨b, rfl, rfl⟩
  · obtain ⟨b, k, rfl, hk, hle⟩ := thread_cases hlast hx
    rw [worker_left hpos hk, data_length_eq h, ← nblocks_mul h]
    simp only [← Nat.add_mul]
    exact ⟨Nat.mul_le_mul_right _ hle, Nat.mul_le_mul_right _ hle⟩

/-- A split that shares the blocks out is where the schedules start from. -/
theorem Splits.inv (h : conversion J = .ok conv) (hs : Splits J nthread)
    (hleft : ∀ x ∈ threads J nthread, ∃ b, Placed J (Thread.worker J x) b) :
    Inv J conv (fun _ => none) ((threads J nthread).map (Thread.worker J)) := by
  have hpos := (conversion_blocks h).2.1
  refine ⟨fun w hw => ?_, fun i => .inl rfl, fun i hi => .inr ?_⟩
  · obtain ⟨x, hx, rfl⟩ := List.mem_map.1 hw
    exact hleft x hx
  · have hblock : i / blockSize J ∈ List.range (nblocks J) := by
      rw [List.mem_range]
      apply Nat.div_lt_of_lt_mul
      rw [Nat.mul_comm, nblocks_mul h]
      exact hi
    rw [← hs.blocks] at hblock
    obtain ⟨x, hx, hmem⟩ := List.mem_flatMap.1 hblock
    obtain ⟨b, hb⟩ := hleft x hx
    refine ⟨_, List.mem_map_of_mem hx, b, hb, ?_⟩
    have hb' : x.outBuffOffs / blockSize J = b := by
      have houts : x.outBuffOffs = b * blockSize J := hb.outOffs
      rw [houts, Nat.mul_div_cancel _ hpos]
    rw [blocksOf, hb', List.mem_range'_1] at hmem
    exact hmem

theorem splits_inv (h : conversion J = .ok conv) (hlast : lastElems J (m + 1) < 2 ^ 31) :
    Inv J conv (fun _ => none) ((threads J (m + 1)).map (Thread.worker J)) := by
  apply (splits h hlast).inv h
  intro x hx
  obtain ⟨b, k, rfl, hk, hle⟩ := thread_cases hlast hx
  refine ⟨b, rfl, rfl, ?_⟩
  rw [worker_left (conversion_blocks h).2.1 hk]
  exact hle

/-- Where no count is cut off, the threads do what one thread does. -/
theorem parallelAsSequential {nthread : Int}
    (hlast : ∀ conv, conversion J = .ok conv → 2 ≤ nthread →
      lastElems J nthread.toNat < 2 ^ 31) : ParallelAsSequential J nthread := by
  have hsucc (hn : 2 ≤ nthread) : ∃ m, nthread.toNat = m + 1 := ⟨nthread.toNat - 1, by omega⟩
  constructor
  case splits =>
    intro conv h hn
    obtain ⟨m, hm⟩ := hsucc hn
    have hlt := hlast conv h hn
    rw [hm] at hlt ⊢
    exact splits h hlt
  case returns =>
    by_cases hn : nthread < 2
    · exact ⟨_, .sequential hn⟩
    · cases h : conversion J with
      | error e => exact ⟨_, .throws h⟩
      | ok conv =>
        obtain ⟨q, hrun, hjoin⟩ := exists_stopped (compute_wf J conv)
          (fun _ => none, (threads J nthread.toNat).map (Thread.worker J))
        exact ⟨_, .parallel hn h hrun hjoin⟩
  case outcome =>
    intro r hr
    cases hr with
    | throws h => rw [dequantizeSequential, h]; rfl
    | sequential _ => rfl
    | parallel hn h hrun hjoin =>
      have hn' : 2 ≤ nthread := Int.not_lt.1 hn
      obtain ⟨m, hm⟩ := hsucc hn'
      have hlt := hlast _ h hn'
      rw [hm] at hlt hrun
      rw [dequantizeSequential_eq h, outputs h (splits_inv h hlt) hrun hjoin]

theorem lastElems_lt (hs : Splits J (m + 1)) : lastElems J (m + 1) < 2 ^ 31 := by
  have hmem : (⟨m * (nblocks J / (m + 1)) * blockSizeBytes J,
      m * (nblocks J / (m + 1)) * blockSize J, lastElems J (m + 1)⟩ : Thread) ∈
        threads J (m + 1) := by
    rw [threads_eq]
    exact List.mem_append_right _ (.head _)
  have hcount := hs.counts _ hmem
  exact (toInt_eq_iff (lastElems J (m + 1))).1 hcount

/-- Several threads convert a tensor as one does if and only if the number of elements of the
last one fits in an `int`. -/
theorem parallelAsSequential_iff (J : Job F) (nthread : Int) :
    ParallelAsSequential J nthread ↔
      ∀ conv, conversion J = .ok conv → 2 ≤ nthread → lastElems J nthread.toNat < 2 ^ 31 := by
  constructor
  · intro h conv hconv hn
    have hs := h.splits conv hconv hn
    have hm : nthread.toNat = nthread.toNat - 1 + 1 := by omega
    rw [hm] at hs ⊢
    exact lastElems_lt hs
  · exact parallelAsSequential

/-- A tensor of half precision of as many zeros as wanted. -/
def zeros (n : Nat) : Job Nat where
  type := .f16
  data := List.replicate (n * 2) 0
  nelements := n
  fp16ToFp32 b := ofLe b
  bf16ToFp32 b := ofLe b
  toFloat _ := none
  whole := Nat.one_dvd n
  data_length := by rw [List.length_replicate]; exact congrArg (· * 2) (Nat.div_one n).symm
  toFloat_length f hf := by cases hf

/-- Two threads with 2^31 elements each, whose counts become negative. -/
theorem not_parallelAsSequential_zeros :
    ¬ ParallelAsSequential (zeros (2 ^ 32)) 2 := by
  intro h
  have hs : Splits (zeros (2 ^ 32)) (1 + 1) := h.splits _ rfl le_rfl
  have hlast : lastElems (zeros (2 ^ 32)) 2 = 2 ^ 31 := rfl
  have hlt := lastElems_lt hs
  rw [hlast] at hlt
  exact Nat.lt_irrefl _ hlt

end Partition
end ActQuant.Quant.ParallelDequant
