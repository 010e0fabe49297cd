import ActQuant.Pi05.PrefixCache

namespace ActQuant.Pi05.Context
open ActQuant.Lib

/-- Floats, by their bits. -/
abbrev Floats := List UInt32

/-- `Pi05Memory`: the recorded length, and the keys and values of every layer at each position. -/
structure Memory (Row : Type) where
  maxSeqLen : Nat
  nPrefix : Int
  kv : Nat → Row

structure GraphResult where
  cachedNPrefix : Int
  cachedNSuffix : Int
  valid : Bool
  deriving DecidableEq

def GraphResult.canReuse (g : GraphResult) (nPrefix nSuffix : Int) : Bool :=
  g.valid && g.cachedNPrefix = nPrefix && g.cachedNSuffix = nSuffix

def GraphResult.reset : GraphResult := ⟨-1, -1, false⟩

/-- The expert's dimensions and its two forwards, the suffix's over the rows it is given. -/
structure Expert (Row : Type) where
  paliHiddenSize : Nat
  actionDim : Nat
  actionHorizon : Nat
  timestepDim : Nat
  prefixForward : Floats → Nat → Row
  suffixForward : List Row → List MaskValue → List Int → Floats → Floats →
    (Nat → Row) × Floats

structure Pi05Context (Row : Type) where
  initialized : Bool
  memory : Memory Row
  prefixResult : GraphResult
  suffixResult : GraphResult

/-- How a call goes after the graph is there; a failed compute leaves the rows it had written. -/
inductive Outcome (Row : Type) where
  | allocFailed
  | computeFailed (written : Nat → Option Row)
  | succeeded

variable {Row : Type}

/-- `set_prefix_len` writes the length alone. -/
def Memory.setPrefixLen (nPrefix : Int) (m : Memory Row) : Memory Row := { m with nPrefix }

/-- The copies of `cpy_k` and `cpy_v` into the rows from `offset` on. -/
def Memory.cpy (offset n : Int) (rows : Nat → Option Row) (m : Memory Row) : Memory Row :=
  { m with
    kv := fun j =>
      if offset ≤ j ∧ j < offset + n then (rows (j - offset.toNat)).getD (m.kv j) else m.kv j }

/-- The first rows, as `get_k` and `get_v` view them. -/
def Memory.view (seqLen : Int) (m : Memory Row) : List Row := (List.range seqLen.toNat).map m.kv

/-- A copy that does not fit is a null node, on which the graph's construction crashes. -/
def buildPrefixGraph (m : Memory Row) (nPrefix : Int) : Option GraphResult :=
  if 0 ≤ nPrefix ∧ nPrefix ≤ m.maxSeqLen then some ⟨nPrefix, 0, true⟩ else none

def buildSuffixGraph (m : Memory Row) (nPrefix nSuffix : Int) : Option GraphResult :=
  if nPrefix + nSuffix ≤ m.maxSeqLen then some ⟨nPrefix, nSuffix, true⟩ else none

def prefixGraph (c : Pi05Context Row) (nPrefix : Int) : Option GraphResult :=
  if c.prefixResult.canReuse nPrefix 0 then some c.prefixResult
  else buildPrefixGraph c.memory nPrefix

def suffixGraph (c : Pi05Context Row) (nPrefix nSuffix : Int) : Option GraphResult :=
  if c.suffixResult.canReuse nPrefix nSuffix then some c.suffixResult
  else buildSuffixGraph c.memory nPrefix nSuffix

/-- The compute of the prefix graph, after its inputs passed the size check. -/
def computePrefix (P : Expert Row) (prefixHidden : Floats) (nPrefix : Int)
    (outcome : Outcome Row) (c : Pi05Context Row) : Option (Bool × Pi05Context Row) :=
  match outcome with
  | .allocFailed => some (false, c)
  | .computeFailed written =>
    if prefixHidden.length ≠ P.paliHiddenSize * nPrefix then none
    else some (false, { c with memory := c.memory.cpy 0 nPrefix written })
  | .succeeded =>
    if prefixHidden.length ≠ P.paliHiddenSize * nPrefix then none
    else
      let rows := fun j => some (P.prefixForward prefixHidden j)
      some (true, { c with memory := c.memory.cpy 0 nPrefix rows })

def processPrefix (P : Expert Row) (prefixHidden : Floats) (nPrefix : Int)
    (outcome : Outcome Row) (c : Pi05Context Row) : Option (Bool × Pi05Context Row) :=
  if !c.initialized then some (false, c)
  else
    let c := { c with memory := c.memory.setPrefixLen nPrefix }
    (prefixGraph c nPrefix).bind fun prefixResult =>
      computePrefix P prefixHidden nPrefix outcome { c with prefixResult }

structure SuffixCall where
  noisyActions : Floats
  timestepEmb : Floats
  maskedStart : Int
  maskedEnd : Int

def SuffixCall.sizesFit (P : Expert Row) (call : SuffixCall) : Bool :=
  call.noisyActions.length = P.actionDim * P.actionHorizon &&
    call.timestepEmb.length = P.timestepDim

/-- What the suffix layers compute over the memory: the rows they write, and the velocity. -/
def suffixCompute (P : Expert Row) (call : SuffixCall) (m : Memory Row) :
    (Nat → Row) × Floats :=
  let mask := fillSuffixAttnMask m.nPrefix.toNat P.actionHorizon call.maskedStart call.maskedEnd
  let positions := (List.range P.actionHorizon).map fun i => m.nPrefix + (i : Int)
  P.suffixForward (m.view m.nPrefix) mask positions call.noisyActions call.timestepEmb

def computeSuffix (P : Expert Row) (call : SuffixCall) (outcome : Outcome Row)
    (c : Pi05Context Row) : Option (Option (Floats) × Pi05Context Row) :=
  let m := c.memory
  match outcome with
  | .allocFailed => some (none, c)
  | .computeFailed written =>
    if !call.sizesFit P then none
    else some (none, { c with memory := m.cpy m.nPrefix P.actionHorizon written })
  | .succeeded =>
    if !call.sizesFit P then none
    else
      let result := suffixCompute P call m
      let rows := fun j => some (result.1 j)
      some (some result.2, { c with memory := m.cpy m.nPrefix P.actionHorizon rows })

/-- The velocity is there where the call returns true. -/
def processSuffix (P : Expert Row) (call : SuffixCall) (outcome : Outcome Row)
    (c : Pi05Context Row) : Option (Option (Floats) × Pi05Context Row) :=
  if !c.initialized then some (none, c)
  else if c.memory.nPrefix ≤ 0 then some (none, c)
  else
    (suffixGraph c c.memory.nPrefix P.actionHorizon).bind fun suffixResult =>
      computeSuffix P call outcome { c with suffixResult }

def clear (c : Pi05Context Row) : Pi05Context Row :=
  { c with
    memory := c.memory.setPrefixLen 0
    prefixResult := .reset
    suffixResult := .reset }

inductive Op (Row : Type) where
  | processPrefix (prefixHidden : Floats) (nPrefix : Int) (outcome : Outcome Row)
  | processSuffix (call : SuffixCall) (outcome : Outcome Row)
  | clear

/-- A context with the prefixes its calls were given so far, which the code does not keep. -/
structure Traced (Row : Type) where
  context : Pi05Context Row
  prefixes : List (Floats × Int)

def Traced.step (P : Expert Row) (t : Traced Row) : Op Row → Option (Traced Row)
  | .processPrefix prefixHidden nPrefix outcome =>
    (processPrefix P prefixHidden nPrefix outcome t.context).map fun r =>
      ⟨r.2, t.prefixes ++ [(prefixHidden, nPrefix)]⟩
  | .processSuffix call outcome =>
    (processSuffix P call outcome t.context).map fun r => { t with context := r.2 }
  | .clear => some { t with context := clear t.context }

/-- The rows up to a length are those the forward of a prefix wrote. -/
def Holds (P : Expert Row) (m : Memory Row) (prefixHidden : Floats) (nPrefix : Int) : Prop :=
  ∀ j : Nat, j < nPrefix → m.kv j = P.prefixForward prefixHidden j

/-- The recorded length and the rows belong to one prefix, or the memory is marked unusable. -/
def KvSound (P : Expert Row) (t : Traced Row) : Prop :=
  0 < t.context.memory.nPrefix →
    ∃ r ∈ t.prefixes, r.2 = t.context.memory.nPrefix ∧
      Holds P t.context.memory r.1 t.context.memory.nPrefix

/-- A failure past `set_prefix_len` that leaves a length the rows in memory still belong to. -/
def FailsCleanly (P : Expert Row) (m : Memory Row) (prefixHidden : Floats) (nPrefix : Int) :
    Outcome Row → Prop
  | .allocFailed => nPrefix = m.nPrefix
  | .computeFailed written =>
    (nPrefix = m.nPrefix ∧ ∀ j : Nat, j < nPrefix → (written j).getD (m.kv j) = m.kv j) ∨
      ∀ j : Nat, j < nPrefix → (written j).getD (m.kv j) = P.prefixForward prefixHidden j
  | .succeeded => True

def Clean (P : Expert Row) (t : Traced Row) : Op Row → Prop
  | .processPrefix prefixHidden nPrefix outcome =>
    t.context.initialized = true → 0 < nPrefix →
      FailsCleanly P t.context.memory prefixHidden nPrefix outcome
  | .processSuffix _ _ | .clear => True

section Soundness
variable {P : Expert Row} {m : Memory Row} {c c' : Pi05Context Row} {t u : Traced Row}

theorem kv_cpy_lt {j : Nat} (h : (j : Int) < offset) : (m.cpy offset n rows).kv j = m.kv j :=
  if_neg fun hj => by omega

theorem kv_cpy_zero {j : Nat} (h : (j : Int) < n) :
    (m.cpy 0 n rows).kv j = (rows j).getD (m.kv j) := by
  simp only [Memory.cpy, Int.toNat_zero, Nat.sub_zero]
  exact if_pos ⟨by omega, by omega⟩

/-- Past the checks a call's length is recorded, and the rows are as its outcome leaves them. -/
theorem processPrefix_cases (h : processPrefix P e n outcome c = some (returned, c')) :
    (c.initialized = false ∧ c' = c) ∨
      (c.initialized = true ∧ c'.initialized = true ∧ c'.memory.nPrefix = n ∧
        match outcome with
        | .allocFailed => c'.memory.kv = c.memory.kv
        | .computeFailed written => c'.memory.kv = (c.memory.cpy 0 n written).kv
        | .succeeded => c'.memory.kv =
            (c.memory.cpy 0 n fun j => some (P.prefixForward e j)).kv) := by
  rw [processPrefix] at h
  split_ifs at h with hinit
  · cases h
    exact .inl ⟨by simpa using hinit, rfl⟩
  · have hinit : c.initialized = true := by simpa using hinit
    obtain ⟨g, _, h⟩ := Option.bind_eq_some_iff.1 h
    refine .inr ⟨hinit, ?_⟩
    cases outcome with
    | allocFailed =>
      cases h
      exact ⟨hinit, rfl, rfl⟩
    | computeFailed written =>
      simp only [computePrefix] at h
      split_ifs at h
      cases h
      exact ⟨hinit, rfl, rfl⟩
    | succeeded =>
      simp only [computePrefix] at h
      split_ifs at h
      cases h
      exact ⟨hinit, rfl, rfl⟩

/-- A suffix call writes past the recorded length only. -/
theorem processSuffix_frame (h : processSuffix P call outcome c = some (velocity, c')) :
    c'.memory.nPrefix = c.memory.nPrefix ∧
      ∀ j : Nat, j < c.memory.nPrefix → c'.memory.kv j = c.memory.kv j := by
  rw [processSuffix] at h
  split_ifs at h
  · cases h
    exact ⟨rfl, fun _ _ => rfl⟩
  · cases h
    exact ⟨rfl, fun _ _ => rfl⟩
  · obtain ⟨g, _, h⟩ := Option.bind_eq_some_iff.1 h
    cases outcome with
    | allocFailed =>
      cases h
      exact ⟨rfl, fun _ _ => rfl⟩
    | computeFailed written =>
      simp only [computeSuffix] at h
      split_ifs at h
      cases h
      exact ⟨rfl, fun _ hj => kv_cpy_lt hj⟩
    | succeeded =>
      simp only [computeSuffix] at h
      split_ifs at h
      cases h
      refine ⟨rfl, fun j hj => ?_⟩
      rw [kv_cpy_lt hj]

theorem processPrefix_sound (hs : KvSound P t) (hclean : Clean P t (.processPrefix e n outcome))
    (h : processPrefix P e n outcome t.context = some (returned, c')) :
    KvSound P ⟨c', t.prefixes ++ [(e, n)]⟩ := by
  have hnew : (e, n) ∈ t.prefixes ++ [(e, n)] :=
    List.mem_append_right t.prefixes (List.mem_singleton.2 rfl)
  rcases processPrefix_cases h with ⟨_, rfl⟩ | ⟨hinit, _, hlen, hkv⟩
  · intro hpos
    obtain ⟨r, hr, hrest⟩ := hs hpos
    exact ⟨r, List.mem_append_left _ hr, hrest⟩
  · intro hpos
    simp only [hlen] at hpos ⊢
    have hfails := hclean hinit hpos
    -- Either the rows are still those of the recorded length, or they are the new prefix's.
    have hold (hn : n = t.context.memory.nPrefix)
        (hrows : ∀ j : Nat, j < n → c'.memory.kv j = t.context.memory.kv j) :
        ∃ r ∈ t.prefixes ++ [(e, n)], r.2 = n ∧ Holds P c'.memory r.1 n := by
      obtain ⟨r, hr, hrlen, hrows'⟩ := hs (hn ▸ hpos)
      refine ⟨r, List.mem_append_left _ hr, hrlen.trans hn.symm, fun j hj => ?_⟩
      rw [hrows j hj, hrows' j (hn ▸ hj)]
    cases outcome with
    | allocFailed => exact hold hfails fun j _ => congrFun hkv j
    | computeFailed written =>
      rcases hfails with ⟨hn, hsame⟩ | hall
      · refine hold hn fun j hj => ?_
        rw [hkv, kv_cpy_zero hj, hsame j hj]
      · refine ⟨_, hnew, rfl, fun j hj => ?_⟩
        rw [hkv, kv_cpy_zero hj, hall j hj]
    | succeeded =>
      refine ⟨_, hnew, rfl, fun j hj => ?_⟩
      rw [hkv, kv_cpy_zero hj, Option.getD_some]

theorem step_sound (hs : KvSound P t) (hclean : Clean P t op) (h : t.step P op = some u) :
    KvSound P u := by
  cases op with
  | processPrefix e n outcome =>
    obtain ⟨⟨returned, c'⟩, hcall, rfl⟩ := Option.map_eq_some_iff.1 h
    exact processPrefix_sound hs hclean hcall
  | processSuffix call outcome =>
    obtain ⟨⟨velocity, c'⟩, hcall, rfl⟩ := Option.map_eq_some_iff.1 h
    obtain ⟨hlen, hrows⟩ := processSuffix_frame hcall
    intro hpos
    simp only [hlen] at hpos ⊢
    obtain ⟨r, hr, hrlen, hrows'⟩ := hs hpos
    refine ⟨r, hr, hrlen, fun j hj => ?_⟩
    rw [hrows j hj, hrows' j hj]
  | clear =>
    cases h
    exact fun hpos => absurd hpos (lt_irrefl _)

def Traced.init (initialized : Bool) (maxSeqLen : Nat) (kv : Nat → Row) : Traced Row :=
  ⟨⟨initialized, ⟨maxSeqLen, 0, kv⟩, .reset, .reset⟩, []⟩

end Soundness

section Instances

/-- An expert of one value a token, whose K/V is that value. -/
def copyingExpert : Expert UInt32 where
  paliHiddenSize := 1
  actionDim := 1
  actionHorizon := 1
  timestepDim := 1
  prefixForward e j := e.getD j 0
  suffixForward kv _ _ _ _ := (fun _ => 0, kv)

def freshContext : Traced UInt32 := .init true 1024 fun _ => 0

def suffixCall : SuffixCall := ⟨[0], [0], -1, -1⟩

/-- Two prefixes, the second after a failure at the length of the first. -/
def cleanOps : List (Op UInt32) :=
  [.processPrefix [1, 2] 2 .succeeded, .processSuffix suffixCall .succeeded,
    .processPrefix [3, 4] 2 .allocFailed, .processPrefix [3] 1 .succeeded]

end Instances
end ActQuant.Pi05.Context
