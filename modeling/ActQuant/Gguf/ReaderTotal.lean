import ActQuant.Gguf.ReaderSpec

namespace ActQuant.Gguf
open ActQuant.Lib ActQuant.Quant ActQuant.Lib.Reader

section Pool
variable {mem : Memory} {params : InitParams}

/-- The pool that is asked for; each of the sums may wrap around. -/
def InitParams.pool (params : InitParams) (nTensors size : Nat) : Nat :=
  let memSize := if params.noAlloc then word (nTensors * tensorOverhead)
    else word ((nTensors + 1) * tensorOverhead + size)
  ggmlPad (if memSize = 0 then memAlign else memSize) memAlign

def NoBuffer (mem : Memory) (pool : Nat) : Prop := pool = 0 ∨ mem pool = false

/-- The end of the object that holds the tensor data. -/
def blobEnd (size : Nat) : Nat := word (objectSize + ggmlPad (word (tensorSize + size)) memAlign)

/-- One of the tensors ends behind the pool. -/
def NoRoom (pool curEnd nTensors : Nat) : Prop :=
  ∃ k < nTensors, pool < word (curEnd + (k + 1) * tensorOverhead)

/-- The faults in the memory of the tensors, with so many bytes left in the file. -/
inductive PoolFault (mem : Memory) (params : InitParams) (nTensors size left : Nat) :
    Fault → Prop where
  | buffer (h : NoBuffer mem (params.pool nTensors size)) :
      PoolFault mem params nTensors size left .noMemBuffer
  | blob (halloc : params.noAlloc = false) (hpool : ¬ NoBuffer mem (params.pool nTensors size))
      (h : params.pool nTensors size < blobEnd size) :
      PoolFault mem params nTensors size left .noObject
  | beyond (halloc : params.noAlloc = false) (hpool : ¬ NoBuffer mem (params.pool nTensors size))
      (hblob : blobEnd size ≤ params.pool nTensors size)
      (h : params.pool nTensors size < tensorOverhead + min left size) :
      PoolFault mem params nTensors size left .beyondPool
  | tensors (halloc : params.noAlloc = false)
      (hpool : ¬ NoBuffer mem (params.pool nTensors size))
      (hblob : blobEnd size ≤ params.pool nTensors size)
      (hfit : tensorOverhead + min left size ≤ params.pool nTensors size) (hleft : size ≤ left)
      (h : NoRoom (params.pool nTensors size) (blobEnd size) nTensors) :
      PoolFault mem params nTensors size left .noObject
  | emptyTensors (halloc : params.noAlloc = true)
      (hpool : ¬ NoBuffer mem (params.pool nTensors size))
      (h : NoRoom (params.pool nTensors size) 0 nTensors) :
      PoolFault mem params nTensors size left .noObject

theorem noBuffer_iff {pool : Nat} : NoBuffer mem pool ↔ pool = 0 ∨ ¬ mem pool = true :=
  or_congr_right (Bool.not_eq_true _).symm.to_iff

theorem ggmlInit_eq_ok {memSize pool : Nat} : ggmlInit mem memSize = .ok pool ↔
    pool = ggmlPad (if memSize = 0 then memAlign else memSize) memAlign ∧ ¬ NoBuffer mem pool := by
  refine Load.check_eq_ok.trans (and_congr_right ?_)
  rintro rfl
  rw [noBuffer_iff]

theorem ggmlInit_eq_crash {memSize : Nat} : ggmlInit mem memSize = .crash f ↔
    f = .noMemBuffer ∧
      NoBuffer mem (ggmlPad (if memSize = 0 then memAlign else memSize) memAlign) := by
  rw [noBuffer_iff]
  exact Load.check_eq_crash

theorem ggmlNewObject_eq_crash {pool curEnd size : Nat} :
    ggmlNewObject pool curEnd size = .crash f ↔
      f = .noObject ∧ pool < word (curEnd + (objectSize + ggmlPad size memAlign)) := by
  rw [← Nat.add_assoc, Nat.add_right_comm curEnd objectSize]
  exact Load.check_eq_crash

theorem ggmlNewObject_eq_ok {pool curEnd size next : Nat} :
    ggmlNewObject pool curEnd size = .ok next ↔
      next = word (curEnd + (objectSize + ggmlPad size memAlign)) ∧ next ≤ pool := by
  refine Load.check_eq_ok.trans ?_
  rw [Nat.not_lt, ← Nat.add_assoc]
  refine and_congr_right ?_
  rintro rfl
  rw [Nat.add_right_comm curEnd objectSize]

theorem ggmlPad_tensorSize : objectSize + ggmlPad tensorSize memAlign = tensorOverhead := by decide

theorem word_add_word (a b : Nat) : word (word a + b) = word (a + b) := Nat.mod_add_mod a _ b

/-- The tensors lie one behind the other; the first that does not fit ends the process. -/
theorem ggmlNewTensors_eq_crash {pool n curEnd : Nat} :
    ggmlNewTensors pool n curEnd = .crash f ↔ f = .noObject ∧ NoRoom pool curEnd n := by
  induction n generalizing curEnd with
  | zero =>
    constructor
    · intro h
      cases h
    · rintro ⟨_, k, hk, _⟩
      exact (Nat.not_lt_zero k hk).elim
  | succ n ih =>
    rw [ggmlNewTensors, Load.bind_eq_crash, ggmlNewObject_eq_crash, ggmlPad_tensorSize]
    have hshift (k : Nat) : word (word (curEnd + tensorOverhead) + (k + 1) * tensorOverhead) =
        word (curEnd + (k + 1 + 1) * tensorOverhead) := by
      rw [word_add_word, Nat.succ_mul (k + 1), Nat.add_assoc, Nat.add_comm tensorOverhead]
    constructor
    · rintro (⟨rfl, h⟩ | ⟨next, hnext, h⟩)
      · refine ⟨rfl, 0, Nat.succ_pos n, ?_⟩
        rwa [Nat.zero_add, Nat.one_mul]
      · obtain ⟨rfl, k, hk, hlt⟩ := ih.1 h
        rw [ggmlNewObject_eq_ok, ggmlPad_tensorSize] at hnext
        rw [hnext.1, hshift] at hlt
        exact ⟨rfl, k + 1, Nat.succ_lt_succ hk, hlt⟩
    · rintro ⟨rfl, k, hk, hlt⟩
      by_cases hfirst : pool < word (curEnd + tensorOverhead)
      · exact .inl ⟨rfl, hfirst⟩
      · refine .inr ⟨_, ggmlNewObject_eq_ok.2 ⟨rfl, ?_⟩, ih.2 ⟨rfl, ?_⟩⟩
        · rw [ggmlPad_tensorSize]
          exact Nat.le_of_not_lt hfirst
        · rw [ggmlPad_tensorSize]
          cases k with
          | zero =>
            rw [Nat.zero_add, Nat.one_mul] at hlt
            exact (hfirst hlt).elim
          | succ k =>
            refine ⟨k, Nat.lt_of_succ_lt_succ hk, ?_⟩
            rwa [hshift]

theorem loadEmpty_eq_crash {file : File} {nTensors offset size left : Nat} :
    loadData mem ⟨true, true⟩ file nTensors offset size = .crash f ↔
      PoolFault mem ⟨true, true⟩ nTensors size left f := by
  change (ggmlInit mem _).bind (fun pool => (ggmlNewTensors pool nTensors 0).bind _) = _ ↔ _
  rw [Load.bind_eq_crash, ggmlInit_eq_crash]
  constructor
  · rintro (⟨rfl, hbuffer⟩ | ⟨pool, hpool, h⟩)
    · exact .buffer hbuffer
    · obtain ⟨rfl, hpool⟩ := ggmlInit_eq_ok.1 hpool
      obtain h | ⟨_, _, h⟩ := Load.bind_eq_crash.1 h
      · obtain ⟨rfl, hroom⟩ := ggmlNewTensors_eq_crash.1 h
        exact .emptyTensors rfl hpool hroom
      · cases h
  · intro h
    cases h with
    | buffer hbuffer => exact .inl ⟨rfl, hbuffer⟩
    | blob halloc => cases halloc
    | beyond halloc => cases halloc
    | tensors halloc => cases halloc
    | emptyTensors _ hpool hroom =>
      exact .inr ⟨_, ggmlInit_eq_ok.2 ⟨rfl, hpool⟩,
        Load.bind_eq_crash.2 (.inl (ggmlNewTensors_eq_crash.2 ⟨rfl, hroom⟩))⟩

/-- The tensors come behind the tensor data, once that is read. -/
theorem loadBlob_eq_crash {file : File} {nTensors offset size : Nat} :
    loadData mem ⟨true, false⟩ file nTensors offset size = .crash f ↔
      PoolFault mem ⟨true, false⟩ nTensors size (file.bytes.drop offset).length f := by
  change (ggmlInit mem _).bind (fun pool =>
    (ggmlNewObject pool 0 (word (tensorSize + size))).bind fun curEnd =>
      if pool < tensorOverhead + min (file.bytes.drop offset).length size then
        Load.crash .beyondPool
      else if (file.bytes.drop offset).length < size then Load.null
      else (ggmlNewTensors pool nTensors curEnd).bind _) = _ ↔ _
  rw [Load.bind_eq_crash, ggmlInit_eq_crash]
  have hend : word (0 + (objectSize + ggmlPad (word (tensorSize + size)) memAlign)) =
      blobEnd size := by
    rw [Nat.zero_add]
    rfl
  constructor
  · rintro (⟨rfl, hbuffer⟩ | ⟨pool, hpool, h⟩)
    · exact .buffer hbuffer
    · obtain ⟨rfl, hpool⟩ := ggmlInit_eq_ok.1 hpool
      obtain h | ⟨curEnd, hblob, h⟩ := Load.bind_eq_crash.1 h
      · obtain ⟨rfl, hlt⟩ := ggmlNewObject_eq_crash.1 h
        rw [hend] at hlt
        exact .blob rfl hpool hlt
      · obtain ⟨rfl, hle⟩ := ggmlNewObject_eq_ok.1 hblob
        rw [hend] at hle h
        by_cases hbeyond : InitParams.pool ⟨true, false⟩ nTensors size <
          tensorOverhead + min (file.bytes.drop offset).length size
        · cases (if_pos hbeyond).symm.trans h
          exact .beyond rfl hpool hle hbeyond
        · replace h := (if_neg hbeyond).symm.trans h
          split at h
          case isTrue => cases h
          case isFalse hleft =>
            obtain h | ⟨_, _, h⟩ := Load.bind_eq_crash.1 h
            · obtain ⟨rfl, hroom⟩ := ggmlNewTensors_eq_crash.1 h
              exact .tensors rfl hpool hle (Nat.le_of_not_lt hbeyond) (Nat.le_of_not_lt hleft) hroom
            · cases h
  · intro h
    cases h with
    | buffer hbuffer => exact .inl ⟨rfl, hbuffer⟩
    | blob _ hpool hlt =>
      rw [← hend] at hlt
      exact .inr ⟨_, ggmlInit_eq_ok.2 ⟨rfl, hpool⟩,
        Load.bind_eq_crash.2 (.inl (ggmlNewObject_eq_crash.2 ⟨rfl, hlt⟩))⟩
    | beyond _ hpool hle hbeyond =>
      refine .inr ⟨_, ggmlInit_eq_ok.2 ⟨rfl, hpool⟩,
        Load.bind_eq_crash.2 (.inr ⟨blobEnd size, ?_, ?_⟩)⟩
      · exact ggmlNewObject_eq_ok.2 ⟨hend.symm, hle⟩
      · exact if_pos hbeyond
    | tensors _ hpool hle hfit hleft hroom =>
      refine .inr ⟨_, ggmlInit_eq_ok.2 ⟨rfl, hpool⟩,
        Load.bind_eq_crash.2 (.inr ⟨blobEnd size, ?_, ?_⟩)⟩
      · exact ggmlNewObject_eq_ok.2 ⟨hend.symm, hle⟩
      · refine (if_neg (Nat.not_lt_of_le hfit)).trans ?_
        rw [if_neg (Nat.not_lt_of_le hleft)]
        exact Load.bind_eq_crash.2 (.inl (ggmlNewTensors_eq_crash.2 ⟨rfl, hroom⟩))
    | emptyTensors halloc => cases halloc

theorem loadData_eq_crash {file : File} {nTensors offset size : Nat} :
    loadData mem params file nTensors offset size = .crash f ↔
      params.ctx = true ∧ PoolFault mem params nTensors size (file.bytes.drop offset).length f := by
  obtain ⟨ctx, noAlloc⟩ := params
  cases ctx with
  | false => exact ⟨fun h => (nomatch h), fun h => (nomatch h.1)⟩
  | true =>
    rw [eq_self, true_and]
    cases noAlloc with
    | true => exact loadEmpty_eq_crash
    | false => exact loadBlob_eq_crash

end Pool

section Total
variable {mem : Memory} {params : InitParams} {file : File}

/-- The faults of the reader on a file: in the metadata, or in the memory of the tensors. -/
inductive InitFault (mem : Memory) (params : InitParams) (file : File) : Fault → Prop where
  | metadata (h : MetaFault mem f file.bytes) : InitFault mem params file f
  | pool (hbytes : file.bytes = enc ++ rest) (hmeta : MetaEnc mem enc m)
      (hoffset : ggmlPad enc.length m.alignment < 2 ^ 63)
      (hsize : dataSize m.alignment 0 m.infos = some size) (hctx : params.ctx = true)
      (h : PoolFault mem params m.infos.length size
        (file.bytes.drop (ggmlPad enc.length m.alignment)).length f) :
      InitFault mem params file f

theorem ggufInitFromFile_eq_crash :
    ggufInitFromFile mem params file = .crash f ↔ InitFault mem params file f := by
  change (readMeta mem file.bytes).bind _ = _ ↔ _
  rw [Load.bind_eq_crash, spec_readMeta.crash]
  constructor
  · rintro (h | ⟨⟨m, rest⟩, hread, h⟩)
    · exact .metadata h
    · obtain ⟨enc, hbytes, hmeta⟩ := spec_readMeta.ok.1 hread
      have hlen : file.bytes.length - rest.length = enc.length := by
        rw [hbytes, List.length_append, Nat.add_sub_cancel]
      simp only [hlen] at h
      split at h
      case isTrue => cases h
      case isFalse hoffset =>
        split at h
        case h_1 => cases h
        case h_2 size hsize =>
          obtain h | ⟨_, _, h⟩ := Load.bind_eq_crash.1 h
          · obtain ⟨hctx, hfault⟩ := loadData_eq_crash.1 h
            exact .pool hbytes hmeta (Nat.lt_of_not_le hoffset) hsize hctx hfault
          · cases h
  · intro h
    cases h with
    | metadata h => exact .inl h
    | @pool enc rest m size _ hbytes hmeta hoffset hsize hctx h =>
      refine .inr ⟨(m, rest), spec_readMeta.ok.2 ⟨enc, hbytes, hmeta⟩, ?_⟩
      have hlen : file.bytes.length - rest.length = enc.length := by
        rw [hbytes, List.length_append, Nat.add_sub_cancel]
      simp only [hlen]
      rw [if_neg (Nat.not_le_of_lt hoffset), hsize]
      exact Load.bind_eq_crash.2 (.inl (loadData_eq_crash.2 ⟨hctx, h⟩))

/-- The reader ends with a context or with a null pointer. -/
def Returns (mem : Memory) (params : InitParams) (file : File) : Prop :=
  (∃ ctx, ggufInitFromFile mem params file = .ok ctx) ∨ ggufInitFromFile mem params file = .null

theorem not_returns_of_fault (h : InitFault mem params file f) : ¬ Returns mem params file := by
  intro hend
  rw [Returns, ggufInitFromFile_eq_crash.2 h] at hend
  obtain ⟨_, h⟩ | h := hend
  · cases h
  · cases h

def headerBytes (nTensors nKv : Nat) : Bytes :=
  ggufMagic ++ (leBytes 4 3 ++ (leBytes 8 nTensors ++ leBytes 8 nKv))

/-- A pair without a key. -/
def emptyKeyFile : Bytes :=
  headerBytes 0 1 ++ (encodeStr [] ++ (leBytes 4 GgufType.uint8.number ++ [0]))

/-- An alignment that is a byte. -/
def byteAlignmentFile : Bytes :=
  headerBytes 0 1 ++ (encodeStr generalAlignment ++ (leBytes 4 GgufType.uint8.number ++ [32]))

/-- A tensor of no rows. -/
def noRowsFile : Bytes :=
  headerBytes 1 0 ++ (encodeStr [] ++ (leBytes 4 2 ++ (leBytes 8 1 ++ leBytes 8 0)))

theorem byteAlignmentFile_fault : MetaFault (fun _ => true) .alignmentValue byteAlignmentFile := by
  have hheader : HeaderEnc (headerBytes 0 1) ⟨3, 0, 1⟩ :=
    ⟨rfl, .inr rfl, by decide, by decide⟩
  have hvalue : KvValueEnc (fun _ => true) (leBytes 4 GgufType.uint8.number ++ [32])
      (.scalar .uint8 (32 : UInt8)) := .scalar ⟨32, ⟨rfl, by decide⟩, rfl⟩
  have hkv : KvStep (fun _ => true) [] _ _ := ⟨generalAlignment, _, _, _, rfl,
    ⟨rfl, by decide, rfl⟩, List.not_mem_nil, hvalue, by decide, rfl⟩
  have hfind : findKey [(generalAlignment, .scalar .uint8 (32 : UInt8))] generalAlignment = _ :=
    List.find?_cons_of_pos (by decide +kernel)
  have hfault := MetaFault.alignment hheader (.succ hkv .zero) ⟨_, hfind, rfl⟩ []
  rwa [List.append_nil, List.append_nil] at hfault

end Total

end ActQuant.Gguf
