import ActQuant.KvCache.Cache
import ActQuant.Lib.Reader

namespace ActQuant.KvCache
open ActQuant.Lib ActQuant.Batch

/-- The types and sizes of the K and V tensors of a layer; the row of V is used where V is not
transposed, the element and the width where it is. -/
structure Layer where
  kType : Nat
  kRow : Nat
  vType : Nat
  vRow : Nat
  vEl : Nat
  vWidth : Nat
  kType_lt : kType < 256 ^ 4
  kRow_lt : kRow < 256 ^ 8
  vType_lt : vType < 256 ^ 4
  vRow_lt : vRow < 256 ^ 8
  vEl_lt : vEl < 256 ^ 4
  vWidth_lt : vWidth < 256 ^ 4

/-- The configuration of a cache that its states depend on. -/
structure Config where
  params : Params
  layers : List Layer
  vTrans : Bool
  layers_lt : layers.length < 256 ^ 4

/-- The bytes of a tensor. -/
abbrev Buffer := Nat → UInt8

/-- `ggml_backend_tensor_set`. -/
def Buffer.write (b : Buffer) (offset : Nat) (bs : List UInt8) : Buffer := fun o =>
  if offset ≤ o ∧ o < offset + bs.length then bs.getD (o - offset) 0 else b o

/-- The cells of a cache with its K and V tensors, by layer and stream. -/
structure Store where
  cache : Cache
  kBuf : Nat × Nat → Buffer
  vBuf : Nat × Nat → Buffer

/-- A 32-bit integer from its bits. -/
def toInt32 (n : Nat) : Int := if n < 2147483648 then n else n - 4294967296

/-- `slot_info::head`: the first cell of the only row. -/
def SlotInfo.head? (r : SlotInfo) : Option Nat :=
  match r.rows with
  | [x] => x.2.head?
  | _ => none

namespace Store

/-- `clear(true)`. -/
def clear (cfg : Config) (st : Store) : Store :=
  ⟨st.cache.clear cfg.params, fun _ _ => 0, fun _ _ => 0⟩

def writeK (st : Store) (il t offset : Nat) (bs : List UInt8) : Store :=
  { st with
    kBuf := Function.update st.kBuf (il, t) ((st.kBuf (il, t)).write offset bs) }

def writeV (st : Store) (il t offset : Nat) (bs : List UInt8) : Store :=
  { st with
    vBuf := Function.update st.vBuf (il, t) ((st.vBuf (il, t)).write offset bs) }

/-! `state_read`. The input may run out, which is thrown, and a check may refuse it. -/

open Reader in
/-- A field that has to have a value. -/
def field (width n : Nat) : Reader Unit Unit := do
  let m ← number width
  if m = n then return () else crash ()

open Reader in
/-- The cells of a single sequence: their positions, each with one sequence, which is not used. -/
def readPositions : Nat → Reader Unit (List Int)
  | 0 => return []
  | n + 1 => do
    let pos ← number 4
    let nSeqId ← number 4
    if nSeqId ≠ 1 then crash ()
    else do
      let _ ← bytes 4
      let ps ← readPositions n
      return toInt32 pos :: ps

open Reader in
def readKLayer (t head n : Nat) (st : Store) (x : Layer × Nat) : Reader Unit Store := do
  field 4 x.1.kType
  field 8 x.1.kRow
  let bs ← bytes (n * x.1.kRow)
  return st.writeK x.2 t (head * x.1.kRow) bs

open Reader in
def readVLayer (cfg : Config) (t head n : Nat) (st : Store) (x : Layer × Nat) :
    Reader Unit Store :=
  if cfg.vTrans then do
    field 4 x.1.vType
    field 4 x.1.vEl
    field 4 x.1.vWidth
    (List.range x.1.vWidth).foldlM (fun st j => do
      let bs ← bytes (n * x.1.vEl)
      return st.writeV x.2 t ((head + j * (st.cache.cells t).size) * x.1.vEl) bs) st
  else do
    field 4 x.1.vType
    field 8 x.1.vRow
    let bs ← bytes (n * x.1.vRow)
    return st.writeV x.2 t (head * x.1.vRow) bs

open Reader in
/-- `state_read_data`; the tensors of a read that fails are not kept. -/
def readData (cfg : Config) (t n : Nat) (st : Store) : Reader Unit Store := do
  let vTrans ← number 4
  let nLayer ← number 4
  if nLayer ≠ cfg.layers.length then crash ()
  else if (st.cache.cells t).size < n then crash ()
  else if cfg.vTrans ≠ decide (vTrans ≠ 0) then crash ()
  else do
    let st ← cfg.layers.zipIdx.foldlM (readKLayer t (st.cache.head t) n) st
    cfg.layers.zipIdx.foldlM (readVLayer cfg t (st.cache.head t) n) st

/-- How the reading of a part ends: with a value, because the input runs out, because a check
refuses it, or with an assertion. -/
inductive Part (α : Type) where
  | ok (a : α) (rest : List UInt8)
  | ended (k : Cache)
  | refused (k : Cache)
  | fault

/-- The assertions on the cells of the restored sequence. -/
def ReadBack (c : Cells) (head : Nat) (s : Nat) (ps : List Int) : Prop :=
  head + ps.length ≤ c.size ∧
    (c.cell head).pos = ps.headD (-1) ∧ (c.cell (head + ps.length - 1)).pos = ps.getLastD (-1) ∧
    s ∈ (c.cell head).seq ∧ s ∈ (c.cell (head + ps.length - 1)).seq

instance (c : Cells) (head s : Nat) (ps : List Int) : Decidable (ReadBack c head s ps) :=
  inferInstanceAs (Decidable (_ ∧ _))

/-- The tokens of a single sequence. -/
def seqUbatch (s : Nat) (ps : List Int) : Ubatch :=
  ⟨true, 1, ps.map fun pos => ⟨pos, [s], false⟩⟩

/-- `state_read_meta` for a single sequence. -/
def readSeqMeta (p : Params) (s t n : Nat) (k : Cache) (bs : List UInt8) : Part Cache :=
  match k.seqRm p s (-1) (-1) with
  | none => .fault
  | some k =>
    match readPositions n bs with
    | .null => .ended k
    | .crash _ => .refused k
    | .ok (ps, rest) =>
      match k.findSlot p (seqUbatch s ps) true with
      | none => .fault
      | some none => .refused k
      | some (some r) =>
        match k.applyUbatch p r (seqUbatch s ps), r.head? with
        | some k, some head =>
          if ReadBack (k.cells t) head s ps then
            .ok { k with head := Function.update k.head t head } rest
          else .fault
        | _, _ => .fault

/-- The sequences of one cell. -/
def readIds (p : Params) (t i : Nat) : Nat → Cache → List UInt8 → Part Cache
  | 0, k, bs => .ok k bs
  | n + 1, k, bs =>
    match Reader.number (ε := Unit) 4 bs with
    | .null => .ended k
    | .crash _ => .fault
    | .ok (id, rest) =>
      if 0 ≤ toInt32 id ∧ id < p.nSeqMax then
        match (k.cells t).seqAdd i id with
        | none => .fault
        | some c => readIds p t i n (k.setStream t c (k.head t)) rest
      else .refused k

open Reader in
/-- The position of a cell and the number of its sequences. -/
def readHead : Reader Unit (Nat × Nat) := do
  let pos ← number 4
  let nSeqId ← number 4
  return (pos, nSeqId)

/-- The cells of a stream, from one on. -/
def readCells (p : Params) (t : Nat) : Nat → Nat → Cache → List UInt8 → Part Cache
  | 0, _, k, bs => .ok k bs
  | n + 1, i, k, bs =>
    match readHead bs with
    | .null => .ended k
    | .crash _ => .fault
    | .ok ((pos, nSeqId), rest) =>
      match (k.cells t).posSet i (toInt32 pos) with
      | none => .fault
      | some c =>
        match readIds p t i nSeqId (k.setStream t c (k.head t)) rest with
        | .ok k rest => readCells p t n (i + 1) k rest
        | part => part

/-- `state_read_meta` for the whole cache. -/
def readAllMeta (cfg : Config) (t n : Nat) (st : Store) (bs : List UInt8) : Part Store :=
  if (st.cache.cells t).size < n then .refused st.cache
  else
    match readCells cfg.params t n 0 (st.clear cfg).cache bs with
    | .ok k rest =>
      .ok { st.clear cfg with cache := { k with head := Function.update k.head t 0 } } rest
    | .ended k => .ended k
    | .refused k => .refused k
    | .fault => .fault

def readMeta (cfg : Config) (s : Int) (t n : Nat) (st : Store) (bs : List UInt8) : Part Store :=
  if s = -1 then readAllMeta cfg t n st bs
  else
    match readSeqMeta cfg.params s.toNat t n st.cache bs with
    | .ok k rest => .ok { st with cache := k } rest
    | .ended k => .ended k
    | .refused k => .refused k
    | .fault => .fault

/-- A stream of the state that has cells. -/
def readSection (cfg : Config) (s : Int) (t n : Nat) (st : Store) (bs : List UInt8) : Part Store :=
  match readMeta cfg s t n st bs with
  | .ok st rest =>
    match readData cfg t n st rest with
    | .ok (st, rest) => .ok st rest
    | .null => .ended st.cache
    | .crash _ => .refused st.cache
  | part => part

/-- What a state that was refused is replaced by. -/
def cleanup (cfg : Config) (s : Int) (k : Cache) : Option Cache :=
  if s = -1 then some (k.clear cfg.params) else k.seqRm cfg.params s (-1) (-1)

/-- How the reading of a state ends: all of it is read, or an exception leaves these cells. -/
inductive Outcome where
  | done (st : Store) (rest : List UInt8)
  | threw (k : Cache)
  | fault

/-- The cells behind an exception. -/
def Outcome.thrown : Outcome → Option Cache
  | .threw k => some k
  | _ => none

/-- The loop over the streams. -/
def readStreams (cfg : Config) (s : Int) : List Nat → Store → List UInt8 → Outcome
  | [], st, bs => .done st bs
  | t :: ts, st, bs =>
    match Reader.number (ε := Unit) 4 bs with
    | .null => .threw st.cache
    | .crash _ => .fault
    | .ok (n, rest) =>
      if n = 0 then readStreams cfg s ts st rest
      else
        match readSection cfg s (if s = -1 then t else cfg.params.stream s.toNat) n st rest with
        | .ok st rest => readStreams cfg s ts st rest
        | .ended k => .threw k
        | .refused k =>
          match cleanup cfg s k with
          | some k => .threw k
          | none => .fault
        | .fault => .fault

def stateRead (cfg : Config) (s : Int) (st : Store) (bs : List UInt8) : Outcome :=
  if s = -1 ∨ Cache.validSeq cfg.params s then
    match Reader.number (ε := Unit) 4 bs with
    | .null => .threw st.cache
    | .crash _ => .fault
    | .ok (n, rest) =>
      if n = cfg.params.nStream then
        readStreams cfg s (List.range cfg.params.nStream) st rest
      else .threw st.cache
  else .fault

end Store
end ActQuant.KvCache

namespace ActQuant.KvCache.Store
open ActQuant.Lib ActQuant.Batch

/-! The fields of a state, apart from what is done with them. -/

open Reader in
/-- The sequences of a cell. -/
def idFields (p : Params) : Nat → Reader Unit Unit
  | 0 => return ()
  | n + 1 => do
    let id ← number 4
    if 0 ≤ toInt32 id ∧ id < p.nSeqMax then idFields p n else crash ()

def cellFields (p : Params) : Nat → Reader Unit Unit
  | 0 => return ()
  | n + 1 => do
    let x ← readHead
    let _ ← idFields p x.2
    cellFields p n

open Reader in
def kFields (n : Nat) (x : Layer) : Reader Unit Unit := do
  let _ ← field 4 x.kType
  let _ ← field 8 x.kRow
  let _ ← bytes (n * x.kRow)
  return ()

open Reader in
def vFields (cfg : Config) (n : Nat) (x : Layer) : Reader Unit Unit :=
  if cfg.vTrans then do
    let _ ← field 4 x.vType
    let _ ← field 4 x.vEl
    let _ ← field 4 x.vWidth
    (List.range x.vWidth).foldlM (fun _ _ => do
      let _ ← bytes (n * x.vEl)
      return ()) ()
  else do
    let _ ← field 4 x.vType
    let _ ← field 8 x.vRow
    let _ ← bytes (n * x.vRow)
    return ()

open Reader in
/-- The K and V data of so many cells. -/
def dataFields (cfg : Config) (n : Nat) : Reader Unit Unit := do
  let vTrans ← number 4
  let nLayer ← number 4
  if nLayer ≠ cfg.layers.length then crash ()
  else if cfg.vTrans ≠ decide (vTrans ≠ 0) then crash ()
  else do
    let _ ← cfg.layers.zipIdx.foldlM (fun _ x => kFields n x.1) ()
    cfg.layers.zipIdx.foldlM (fun _ x => vFields cfg n x.1) ()

/-- A store with the cells of another one. -/
def SameCells (k : Cache) (st : Store) (_ : Unit) : Prop := st.cache = k

open Reader (Alike)

theorem readKLayer_alike (h : SameCells k st u) (x : Layer × Nat) :
    Alike (SameCells k) (readKLayer t head n st x) (kFields n x.1) := by
  refine .after _ fun _ => .after _ fun _ => .after _ fun bs => .pure ?_
  exact h

theorem readVLayer_alike (h : SameCells k st u) (x : Layer × Nat) :
    Alike (SameCells k) (readVLayer cfg t head n st x) (vFields cfg n x.1) := by
  rw [readVLayer, vFields]
  split
  · refine .after _ fun _ => .after _ fun _ => .after _ fun _ => .foldlM ?_ h
    exact fun st _ hst j _ => .after _ fun bs => .pure hst
  · refine .after _ fun _ => .after _ fun _ => .after _ fun bs => .pure ?_
    exact h

/-- Where the cells fit, the reading of the data depends on the input only. -/
theorem readData_alike (cfg : Config) (st : Store) (hn : n ≤ (st.cache.cells t).size) :
    Alike (SameCells st.cache) (readData cfg t n st) (dataFields cfg n) := by
  refine .after _ fun vTrans => .after _ fun nLayer => ?_
  rw [if_neg (Nat.not_lt.2 hn)]
  split
  · exact .crash ()
  · split
    · exact .crash ()
    · refine .bind (.foldlM (fun st _ hst x _ => readKLayer_alike hst x) rfl) ?_
      intro st' _ hst'
      exact .foldlM (fun st _ hst x _ => readVLayer_alike hst x) hst'

end ActQuant.KvCache.Store
