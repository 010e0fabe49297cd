import ActQuant.Lib.Bytes
import ActQuant.Lib.Wire
import ActQuant.Lib.Dict
import ActQuant.Lib.Chars

namespace ActQuant.Fisher
open ActQuant.Lib

abbrev Bytes := List UInt8

/-- What the parser may raise. -/
inductive Raised where
  | indexError
  | unknownWireType (wt : Nat)
  | unicodeDecodeError
  | bufferSize
  deriving DecidableEq

/-- The outcome of a parser run for so many turns of its loops. -/
inductive Parse (α : Type) where
  | ok (a : α)
  | raised (e : Raised)
  | running
  deriving DecidableEq

def Parse.bind (x : Parse α) (f : α → Parse β) : Parse β :=
  match x with
  | .ok a => f a
  | .raised e => .raised e
  | .running => .running

instance : Monad Parse where
  pure := .ok
  bind := Parse.bind

/-- The loop of `_vint` from a shift on. A position is given by the bytes from there on. -/
def vintFrom (result shift : Nat) : Bytes → Parse (Nat × Bytes)
  | [] => .raised .indexError
  | b :: rest =>
    let result := result ||| (b.toNat &&& 0x7f) <<< shift
    if b.toNat &&& 0x80 = 0 then .ok (result, rest) else vintFrom result (shift + 7) rest

def vint (buf : Bytes) : Parse (Nat × Bytes) := vintFrom 0 0 buf

def skipVarint : Bytes → Parse Bytes
  | [] => .raised .indexError
  | b :: rest => if b.toNat &&& 0x80 = 0 then .ok rest else skipVarint rest

/-- `_skip`; a position past the end is the end. -/
def skip (buf : Bytes) (wt : Nat) : Parse Bytes :=
  match wt with
  | 0 => skipVarint buf
  | 1 => .ok (buf.drop 8)
  | 5 => .ok (buf.drop 4)
  | 2 => do
    let (n, rest) ← vint buf
    .ok (rest.drop n)
  | wt => .raised (.unknownWireType wt)

/-- `n, pos = _vint(buf, pos); val = buf[pos:pos + n]; pos += n`. -/
def takeLen (buf : Bytes) : Parse (Bytes × Bytes) := do
  let (n, rest) ← vint buf
  .ok (rest.take n, rest.drop n)

/-- The loop the parsers share: a tag, split into field number and wire type, and then what the
parser does with the field. -/
def eachField (body : σ → Nat → Nat → Bytes → Parse (Flow σ × Bytes)) :
    Nat → σ → Bytes → Parse σ
  | _, s, [] => .ok s
  | 0, _, _ :: _ => .running
  | turns + 1, s, b :: data => do
    let (tag, rest) ← vint (b :: data)
    let (flow, rest) ← body s (tag >>> 3) (tag &&& 7) rest
    match flow with
    | .next s => eachField body turns s rest
    | .leave s => .ok s

/-- The bodies of the loops, each under the name of its parser. -/
def bytesListField (out : List Bytes) (fn wt : Nat) (rest : Bytes) :
    Parse (Flow (List Bytes) × Bytes) :=
  if fn = 1 ∧ wt = 2 then do
    let (val, rest) ← takeLen rest
    .ok (.next (out ++ [val]), rest)
  else do
    let rest ← skip rest wt
    .ok (.next out, rest)

def parseBytesList (data : Bytes) : Parse (List Bytes) :=
  eachField bytesListField data.length [] data

/-- Whole numbers of singles, by their bits. -/
def float32s : Bytes → List UInt32
  | a :: b :: c :: d :: rest => (ofLe [a, b, c, d]).toUInt32 :: float32s rest
  | _ => []

/-- `np.frombuffer(chunk, dtype=np.float32)`. -/
def frombuffer (chunk : Bytes) : Parse (List UInt32) :=
  if chunk.length % 4 = 0 then .ok (float32s chunk) else .raised .bufferSize

def floatListField (floats : List UInt32) (fn wt : Nat) (rest : Bytes) :
    Parse (Flow (List UInt32) × Bytes) :=
  if fn = 1 ∧ wt = 2 then do
    let (chunk, rest) ← takeLen rest
    let values ← frombuffer chunk
    .ok (.next (floats ++ values), rest)
  else do
    let rest ← skip rest wt
    .ok (.next floats, rest)

def parseFloatListPacked (data : Bytes) : Parse (List UInt32) :=
  eachField floatListField data.length [] data

/-- What `_parse_feature` returns, but for `None`. -/
inductive Feature where
  | bytes (values : List Bytes)
  | floats (values : List UInt32)
  deriving DecidableEq

/-- `_parse_feature` leaves its loop at the first list of bytes or singles. -/
def featureField (kind : Option (Nat × Bytes)) (fn wt : Nat) (rest : Bytes) :
    Parse (Flow (Option (Nat × Bytes)) × Bytes) :=
  if wt ≠ 2 then do
    let rest ← skip rest wt
    .ok (.next kind, rest)
  else do
    let (val, rest) ← takeLen rest
    if fn = 1 ∨ fn = 2 then .ok (.leave (some (fn, val)), rest)
    else .ok (.next kind, rest)

def parseFeature (data : Bytes) : Parse (Option Feature) := do
  match ← eachField featureField data.length none data with
  | none => .ok none
  | some (fn, val) =>
    if fn = 1 then do
      let values ← parseBytesList val
      .ok (some (.bytes values))
    else do
      let values ← parseFloatListPacked val
      .ok (some (.floats values))

/-- The first loop of `_parse_example`. -/
def exampleField (found : Option Bytes) (fn wt : Nat) (rest : Bytes) :
    Parse (Flow (Option Bytes) × Bytes) :=
  if fn = 1 ∧ wt = 2 then do
    let (features, rest) ← takeLen rest
    .ok (.leave (some features), rest)
  else do
    let rest ← skip rest wt
    .ok (.next found, rest)

abbrev Entry := Option (List Char) × Option Bytes

/-- The loop of `_parse_example` over an entry of the map: its key and its feature. -/
def entryField (s : Entry) (efn ewt : Nat) (rest : Bytes) : Parse (Flow Entry × Bytes) :=
  if ewt ≠ 2 then do
    let rest ← skip rest ewt
    .ok (.next s, rest)
  else do
    let (ev, rest) ← takeLen rest
    if efn = 1 then
      match decodeUtf8 ev with
      | some key => .ok (.next (some key, s.2), rest)
      | none => .raised .unicodeDecodeError
    else if efn = 2 then .ok (.next (s.1, some ev), rest)
    else .ok (.next s, rest)

abbrev Parsed := Dict (List Char) (Option Feature)

def addEntry (wanted : List (List Char)) (out : Parsed) : Entry → Parse Parsed
  | (some key, some featRaw) =>
    if wanted.contains key then do
      let feature ← parseFeature featRaw
      .ok (out.set key feature)
    else .ok out
  | _ => .ok out

/-- The loop of `_parse_example` over the map. -/
def featuresField (wanted : List (List Char)) (out : Parsed) (fn wt : Nat) (rest : Bytes) :
    Parse (Flow Parsed × Bytes) :=
  if fn = 1 ∧ wt = 2 then do
    let (ent, rest) ← takeLen rest
    let entry ← eachField entryField ent.length (none, none) ent
    let out ← addEntry wanted out entry
    .ok (.next out, rest)
  else do
    let rest ← skip rest wt
    .ok (.next out, rest)

def parseExample (raw : Bytes) (wanted : List (List Char)) : Parse Parsed := do
  match ← eachField exampleField raw.length none raw with
  | none => .ok []
  | some features => eachField (featuresField wanted) features.length [] features

end ActQuant.Fisher
