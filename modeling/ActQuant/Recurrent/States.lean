import ActQuant.Lib.Run
import ActQuant.Recurrent.Removal
import ActQuant.Recurrent.Staged

namespace ActQuant.Recurrent
open ActQuant.Batch ActQuant.KvCache ActQuant.Lib

/-! The memory with the states in its buffers, and with the states that the sequences need. -/

section System

variable {σ : Type} (zero : σ) (advance : σ → List Token → σ)

/-- The tokens of a set. -/
def tokensOf (u : Ubatch) (k : Nat) : List Token :=
  (u.tokens.drop (k * u.nSeqTokens)).take u.nSeqTokens

structure System (σ : Type) where
  mem : Memory
  stored : Nat → σ
  history : Nat → σ
  errors : List TailError

namespace System

def create (memSize : Nat) : System σ :=
  ⟨Memory.create memSize, fun _ => zero, fun _ => zero, []⟩

/-- The graph of a ubatch: the cell `rs_z` is cleared, the cells of the range are loaded from their
sources, and the states of the sets go on with their tokens. -/
def compute (m : Memory) (u : Ubatch) (stored : Nat → σ) : Nat → σ :=
  let cleared := m.rsZ.elim stored fun z => Function.update stored z zero
  fun i =>
    if m.head ≤ i ∧ i < m.head + m.n then
      let x := (m.cell i).src0.elim zero cleared
      if i < m.head + u.nSeqs then advance x (tokensOf u (i - m.head)) else x
    else cleared i

/-- The set that a sequence is in. -/
def setOf (u : Ubatch) (s : Nat) : Option Nat :=
  (List.range u.nSeqs).find? fun k => s ∈ seqsOf u k

/-- The tokens of a sequence. -/
def ownTokens (u : Ubatch) (s : Nat) : List Token := u.tokens.filter fun x => s ∈ x.seqId

/-- The state a sequence needs: its own tokens after the state of the first one of its set, which
loses its own where it comes again later in a set. -/
def advanced (u : Ubatch) (history : Nat → σ) (s : Nat) : σ :=
  (setOf u s).elim (history s) fun k =>
    advance (if Later u (owner u k) then zero else history (owner u k)) (ownTokens u s)

/-- A sequence without a cell needs no state. -/
def dropped (m : Memory) (history : Nat → σ) (s : Nat) : σ :=
  if m.tail s = none then zero else history s

/-- After an operation that moves no state. -/
def with_ (x : System σ) (m : Memory) : System σ :=
  { x with mem := m, history := dropped zero m x.history }

inductive Op
  | clear (data : Bool)
  | seqRm (seqId p₀ p₁ : Int)
  | seqCp (src dst : Int)
  | seqKeep (seqId : Int)
  | seqAdd (seqId p₀ p₁ shift : Int)
  | seqDiv (seqId p₀ p₁ d : Int)
  | findSlot (u : Ubatch)

def copied (m : Memory) (src dst : Int) (history : Nat → σ) : Nat → σ :=
  if 0 ≤ src ∧ src < m.size ∧ 0 ≤ dst ∧ dst < m.size then
    Function.update history dst.toNat (history src.toNat)
  else history

/-- One call; none where an assertion fails or the arithmetic is undefined. -/
def step (x : System σ) : Op → Option (System σ)
  | .clear data => some
    { x with
      mem := x.mem.clear
      stored := if data then fun _ => zero else x.stored
      history := fun _ => zero }
  | .seqRm s p₀ p₁ => some (x.with_ zero (x.mem.seqRm s p₀ p₁).2)
  | .seqCp src dst => some
    { x with mem := x.mem.seqCp src dst, history := copied x.mem src dst x.history }
  | .seqKeep s => some (x.with_ zero (x.mem.seqKeep s))
  | .seqAdd s p₀ p₁ shift => (x.mem.seqAdd s p₀ p₁ shift).map (x.with_ zero)
  | .seqDiv s p₀ p₁ d => (x.mem.seqDiv s p₀ p₁ d).map (x.with_ zero)
  | .findSlot u => (x.mem.findSlot u).map fun f =>
    if f.ok then
      { mem := f.mem
        stored := compute zero advance f.mem u x.stored
        history := advanced zero advance u x.history
        errors := x.errors ++ f.errors }
    else { x.with_ zero f.mem with errors := x.errors ++ f.errors }

/-- Each token is in a set, and all tokens of a set are of the same sequences. The sets that
`split_seq` makes may lose sequences on the way. -/
structure Uniform (u : Ubatch) : Prop where
  whole : u.tokens.length = u.nSeqs * u.nSeqTokens
  same : ∀ k < u.nSeqs, ∀ x ∈ tokensOf u k, ∀ s, s ∈ x.seqId ↔ s ∈ seqsOf u k

/-- The calls that do not meet the two slips of `seq_rm` and `seq_keep` or undefined arithmetic,
with ubatches as they are split from a batch. -/
def Allowed (x : System σ) : Op → Prop
  | .seqRm s p₀ p₁ => x.mem.RmAllowed s p₀ p₁
  | .seqKeep s => x.mem.KeepAllowed s
  | .seqAdd s p₀ p₁ shift => shift ≠ 0 → x.mem.PosAllowed s p₀ p₁ (addInt32 · shift)
  | .seqDiv _ _ _ d => d ≠ 0
  | .findSlot u => Splits u ∧ Uniform u
  | _ => True

/-- The state that is loaded from a source. -/
def load (stored : Nat → σ) (src : Option Nat) : σ := src.elim zero stored

/-- Every cell loads the state that its sequences need, and a state that is needed is in a cell. -/
structure Stored (m : Memory) (stored history : Nat → σ) : Prop where
  loaded : ∀ i < m.size, ∀ s ∈ (m.cell i).seqId, load zero stored (m.cell i).src = history s
  fresh : ∀ i < m.size, (m.cell i).seqId = ∅ → load zero stored (m.cell i).src = zero
  absent : ∀ s < m.size, m.tail s = none → history s = zero

structure Inv (x : System σ) : Prop where
  booked : x.mem.Booked
  stored : Stored zero x.mem x.stored x.history
  errors : x.errors = []

variable {zero advance}

theorem create_inv (n : Nat) : (create zero n).Inv zero :=
  ⟨Memory.create_booked n, ⟨fun _ _ _ hs => (Finset.notMem_empty _ hs).elim, fun _ _ _ => rfl,
    fun _ _ _ => rfl⟩, rfl⟩

/-- Where cells only lose sequences, what is left is stored as before. -/
theorem Stored.shrunk {m m' : Memory} {stored history : Nat → σ}
    (h : Stored zero m stored history) (hs : Memory.Shrunk m m') (hb : m'.Booked) :
    Stored zero m' stored (dropped zero m' history) where
  loaded := by
    intro i hi s hmem
    rw [hs.size] at hi
    have hin := hs.subset i hi hmem
    have htail : m'.tail s = some i := by
      rw [hb.sets i (hs.size.symm ▸ hi)] at hmem
      exact (Memory.mem_tailsAt.1 hmem).2
    have hkeep : dropped zero m' history s = history s := by
      rw [dropped, htail]
      exact if_neg (Option.some_ne_none i)
    rw [hkeep]
    rcases hs.src i hi with ⟨hsrc, -⟩ | ⟨-, he⟩
    · rw [hsrc]
      exact h.loaded i hi s hin
    · rw [he] at hmem
      exact (Finset.notMem_empty s hmem).elim
  fresh := by
    intro i hi he
    rw [hs.size] at hi
    rcases hs.src i hi with ⟨hsrc, hempty⟩ | ⟨hsrc, -⟩
    · rw [hsrc]
      exact h.fresh i hi (hempty he)
    · rw [hsrc]
      rfl
  absent := by
    intro s _ hnone
    exact if_pos hnone

theorem Inv.with_ {x : System σ} (h : x.Inv zero) (hb : m.Booked ∧ Memory.Shrunk x.mem m) :
    (x.with_ zero m).Inv zero :=
  ⟨hb.1, h.stored.shrunk hb.2 hb.1, h.errors⟩

theorem Inv.clear {x : System σ} (h : x.Inv zero) (stored : Nat → σ) :
    Inv zero { x with mem := x.mem.clear, stored := stored, history := fun _ => zero } :=
  ⟨x.mem.clear_booked, ⟨fun _ _ _ hs => (Finset.notMem_empty _ hs).elim, fun _ _ _ => rfl,
    fun _ _ _ => rfl⟩, h.errors⟩

/-- A copy shares the cell, and the state, of the source. -/
theorem Stored.seqCpOf {m : Memory} {stored history : Nat → σ} (h : Stored zero m stored history)
    (hb : m.Booked) (hsrc : src < m.size) (hdst : dst < m.size) (hne : src ≠ dst) :
    Stored zero (m.seqCpOf src dst) stored (Function.update history dst (history src)) := by
  obtain ⟨hbook, hshrunk⟩ := hb.leave hdst
  have hleft := h.shrunk hshrunk hbook
  have htail : ∀ s, s ≠ dst → (m.leave dst).tail s = m.tail s := by
    intro s hs
    rw [Memory.leave_tail, Function.update_of_ne hs]
  have hdstNone : (m.leave dst).tail dst = none := by
    rw [Memory.leave_tail, Function.update_self]
  have hsame : ∀ s < m.size, s ≠ dst → dropped zero (m.leave dst) history s = history s := by
    intro s hs hsd
    rw [dropped, htail s hsd]
    split
    · case isTrue hnone => exact (h.absent s hs hnone).symm
    · rfl
  have hinside : ∀ i < m.size, ∀ s ∈ ((m.leave dst).cell i).seqId, s < m.size ∧ s ≠ dst := by
    intro i hi s hs
    rw [hbook.sets i (hshrunk.size.symm ▸ hi)] at hs
    obtain ⟨hsn, hst⟩ := Memory.mem_tailsAt.1 hs
    refine ⟨hshrunk.size ▸ hsn, ?_⟩
    rintro rfl
    rw [hdstNone] at hst
    cases hst
  have hloaded : ∀ i < m.size, ∀ s ∈ ((m.leave dst).cell i).seqId,
      load zero stored ((m.leave dst).cell i).src = history s := by
    intro i hi s hs
    obtain ⟨hsn, hsd⟩ := hinside i hi s hs
    rw [← hsame s hsn hsd]
    exact hleft.loaded i (hshrunk.size.symm ▸ hi) s hs
  rw [Memory.seqCpOf_eq]
  cases ht : (m.leave dst).tail src with
  | none =>
    rw [Option.elim_none]
    rw [htail src hne] at ht
    refine ⟨fun i hi s hs => ?_, hleft.fresh, fun s hs hnone => ?_⟩
    · rw [hshrunk.size] at hi
      rw [Function.update_of_ne (hinside i hi s hs).2]
      exact hloaded i hi s hs
    · rw [hshrunk.size] at hs
      by_cases hsd : s = dst
      · rw [hsd, Function.update_self]
        exact h.absent src hsrc ht
      · rw [htail s hsd] at hnone
        rw [Function.update_of_ne hsd]
        exact h.absent s hs hnone
  | some t =>
    obtain ⟨htn, hmem⟩ := (hbook.tail_iff (hshrunk.size.symm ▸ hsrc)).1 ht
    rw [Option.elim_some]
    refine ⟨fun i hi s hs => ?_, fun i hi he => ?_, fun s hs hnone => ?_⟩
    · change i < (m.leave dst).size at hi
      obtain ⟨-, hsrc', hset⟩ := Memory.join_cell (m.leave dst) dst t i
      rw [hset] at hs
      rw [hsrc']
      rw [hshrunk.size] at hi htn
      by_cases hit : i = t
      · subst hit
        rw [if_pos rfl] at hs
        rcases Finset.mem_insert.1 hs with rfl | hs
        · rw [Function.update_self]
          exact hloaded i hi src hmem
        · rw [Function.update_of_ne (hinside i hi s hs).2]
          exact hloaded i hi s hs
      · rw [if_neg hit] at hs
        rw [Function.update_of_ne (hinside i hi s hs).2]
        exact hloaded i hi s hs
    · change i < (m.leave dst).size at hi
      obtain ⟨-, hsrc', hset⟩ := Memory.join_cell (m.leave dst) dst t i
      rw [hset] at he
      rw [hsrc']
      by_cases hit : i = t
      · rw [if_pos hit] at he
        exact (Finset.insert_ne_empty _ _ he).elim
      · rw [if_neg hit] at he
        exact hleft.fresh i hi he
    · change s < (m.leave dst).size at hs
      rw [hshrunk.size] at hs
      rw [Memory.join_tail] at hnone
      by_cases hsd : s = dst
      · rw [hsd, Function.update_self] at hnone
        cases hnone
      · rw [Function.update_of_ne hsd, htail s hsd] at hnone
        rw [Function.update_of_ne hsd]
        exact h.absent s hs hnone

theorem Stored.seqCp {m : Memory} {stored history : Nat → σ} (h : Stored zero m stored history)
    (hb : m.Booked) (src dst : Int) :
    Stored zero (m.seqCp src dst) stored (copied m src dst history) := by
  rw [Memory.seqCp, copied]
  by_cases hin : 0 ≤ src ∧ src < m.size ∧ 0 ≤ dst ∧ dst < m.size
  · rw [if_pos hin, if_pos hin]
    split
    · case isTrue he =>
      rw [he, Function.update_eq_self]
      exact h
    · exact h.seqCpOf hb (by omega) (by omega) (by omega)
  · rw [if_neg hin, if_neg hin, ite_self]
    exact h

/-! ### A ubatch -/

theorem setOf_some (hu : Splits u) (hk : k < u.nSeqs) (hs : s ∈ seqsOf u k) :
    setOf u s = some k := by
  cases hf : setOf u s with
  | none =>
    have hnone := List.find?_eq_none.1 hf k (List.mem_range.2 hk)
    exact (hnone (decide_eq_true hs)).elim
  | some j =>
    have hj : s ∈ seqsOf u j := of_decide_eq_true (List.find?_some (p := fun k =>
      decide (s ∈ seqsOf u k)) hf)
    have hjn := List.mem_range.1 (List.mem_of_find?_eq_some hf)
    by_cases he : j = k
    · rw [he]
    · exact (hu.apart j hjn k hk he s hj hs).elim

theorem exists_tokensOf (hu : Uniform u) (hx : u.tokens[i]? = some x) :
    i / u.nSeqTokens < u.nSeqs ∧ x ∈ tokensOf u (i / u.nSeqTokens) := by
  have hi := (List.getElem?_eq_some_iff.1 hx).1
  rw [hu.whole] at hi
  have hpos : 0 < u.nSeqTokens := Nat.pos_of_ne_zero fun h => by simp [h] at hi
  refine ⟨(Nat.div_lt_iff_lt_mul hpos).2 hi, ?_⟩
  have hmod := Nat.mod_lt i hpos
  have hdiv := Nat.div_add_mod' i u.nSeqTokens
  rw [tokensOf, List.mem_iff_getElem?]
  refine ⟨i % u.nSeqTokens, ?_⟩
  rw [List.getElem?_take_of_lt hmod, List.getElem?_drop, hdiv, hx]

/-- Where the sets are uniform, a sequence has just the tokens of its set. -/
theorem ownTokens_eq (hu : Splits u) (hsame : Uniform u) (hk : k < u.nSeqs)
    (hs : s ∈ seqsOf u k) : ownTokens u s = tokensOf u k := by
  have hother (l : List Token) (hl : ∀ x ∈ l, ∃ j < u.nSeqs, j ≠ k ∧ x ∈ tokensOf u j) :
      (l.filter fun x => s ∈ x.seqId) = [] := by
    rw [List.filter_eq_nil_iff]
    intro x hx hmem
    obtain ⟨j, hj, hne, hin⟩ := hl x hx
    exact hu.apart j hj k hk hne s ((hsame.same j hj x hin s).1 (of_decide_eq_true hmem)) hs
  have hplace (i : Nat) (x : Token) (hx : u.tokens[i]? = some x) (hne : i / u.nSeqTokens ≠ k) :
      ∃ j < u.nSeqs, j ≠ k ∧ x ∈ tokensOf u j :=
    ⟨_, (exists_tokensOf hsame hx).1, hne, (exists_tokensOf hsame hx).2⟩
  have hsplit : u.tokens = u.tokens.take (k * u.nSeqTokens) ++ (tokensOf u k ++
      u.tokens.drop (k * u.nSeqTokens + u.nSeqTokens)) := by
    rw [tokensOf, ← List.drop_drop, List.take_append_drop, List.take_append_drop]
  rw [ownTokens, hsplit, List.filter_append, List.filter_append]
  rw [hother (u.tokens.take _), hother (u.tokens.drop _), List.nil_append, List.append_nil]
  · rw [List.filter_eq_self]
    exact fun x hx => decide_eq_true ((hsame.same k hk x hx s).2 hs)
  · intro x hx
    obtain ⟨i, hi⟩ := List.mem_iff_getElem?.1 hx
    rw [List.getElem?_drop] at hi
    refine hplace _ x hi fun he => ?_
    have hpos : 0 < u.nSeqTokens := Nat.pos_of_ne_zero fun h => by
      have hlt := (List.getElem?_eq_some_iff.1 hi).1
      rw [hsame.whole, h, Nat.mul_zero] at hlt
      exact Nat.not_lt_zero _ hlt
    have hlt := Nat.lt_div_mul_add hpos (a := k * u.nSeqTokens + u.nSeqTokens + i)
    rw [he] at hlt
    omega
  · intro x hx
    obtain ⟨i, hi⟩ := List.mem_iff_getElem?.1 hx
    have hlt : i < k * u.nSeqTokens := by
      by_contra hge
      rw [List.getElem?_take_eq_none (Nat.le_of_not_lt hge)] at hi
      cases hi
    rw [List.getElem?_take_of_lt hlt] at hi
    exact hplace i x hi (Nat.ne_of_lt (Nat.div_lt_of_lt_mul (Nat.mul_comm k _ ▸ hlt)))

theorem setOf_none (h : ∀ k < u.nSeqs, s ∉ seqsOf u k) : setOf u s = none := by
  rw [setOf, List.find?_eq_none]
  intro k hk hs
  exact h k (List.mem_range.1 hk) (of_decide_eq_true hs)

/-- What the graph computes for a cell, from the source that the cell had. -/
theorem Filled.compute_eq {m : Memory} {stored need : Nat → σ} {src : Nat → Option Nat}
    (h : Memory.Filled (load zero stored) need u src m) (hi : i < m.size) :
    load zero (compute zero advance m u stored) (m.cell i).src =
      if m.head ≤ i ∧ i < m.head + u.nSeqs then
        advance (load zero stored (src i)) (tokensOf u (i - m.head))
      else load zero stored (src i) := by
  have hwide := h.wide
  have hcleared : ∀ j, m.rsZ ≠ some j →
      m.rsZ.elim stored (fun z => Function.update stored z zero) j = stored j := by
    intro j hj
    cases hz : m.rsZ with
    | none => rfl
    | some z =>
      rw [Option.elim_some, Function.update_of_ne]
      rintro rfl
      exact hj hz
  by_cases hin : m.head ≤ i ∧ i < m.head + m.n
  · obtain ⟨hsrc, hsrc0, hzero⟩ := h.staged i hin.1 hin.2
    have hx : (m.cell i).src0.elim zero
        (m.rsZ.elim stored fun z => Function.update stored z zero) = load zero stored (src i) := by
      rw [hsrc0]
      cases hs : src i with
      | none =>
        obtain ⟨z, hz⟩ := Option.ne_none_iff_exists'.1 (hzero hs)
        rw [if_pos rfl, hz, Option.elim_some, Option.elim_some, Function.update_self]
        rfl
      | some j =>
        rw [if_neg (Option.some_ne_none j), Option.elim_some]
        exact hcleared j (h.spared i hi j hs).2
    rw [hsrc, load, Option.elim_some, compute]
    dsimp only
    rw [if_pos hin, hx]
    exact if_congr (by omega) rfl rfl
  · obtain ⟨hsrc, hown⟩ := h.own i hi hin
    rw [hsrc, if_neg fun hslot => hin ⟨hslot.1, by omega⟩]
    cases hs : src i with
    | none => rfl
    | some j =>
      have hji := hown j hs
      rw [hji] at hs ⊢
      rw [load, Option.elim_some, compute]
      dsimp only
      rw [if_neg hin]
      exact hcleared i (h.spared i hi i hs).2

/-- The graph leaves in every cell the state that its sequences need. -/
theorem Filled.stored {m : Memory} {stored need : Nat → σ} {src : Nat → Option Nat}
    (h : Memory.Filled (load zero stored) need u src m) (hu : Splits u) (hb : m.Booked)
    {history : Nat → σ}
    (hset : ∀ k < u.nSeqs, ∀ s ∈ seqsOf u k,
      history s = advance (need (owner u k)) (tokensOf u k))
    (hother : ∀ s < m.size, (∀ k < u.nSeqs, s ∉ seqsOf u k) → history s = need s)
    (habsent : ∀ s < m.size, m.tail s = none → history s = zero) :
    Stored zero m (compute zero advance m u stored) history := by
  have hwide := h.wide
  have hbound := h.bound
  have hslot : ∀ i, m.head ≤ i ∧ i < m.head + u.nSeqs →
      ∃ k < u.nSeqs, i = m.head + k ∧ i - m.head = k :=
    fun i hi => ⟨i - m.head, by omega, by omega, rfl⟩
  refine ⟨fun i hi s hs => ?_, fun i hi he => ?_, habsent⟩
  · rw [Filled.compute_eq h hi]
    by_cases hin : m.head ≤ i ∧ i < m.head + u.nSeqs
    · obtain ⟨k, hk, rfl, hsub⟩ := hslot i hin
      obtain ⟨hsets, -, hload⟩ := h.slots k hk
      rw [hsets, List.mem_toFinset] at hs
      rw [if_pos hin, hload, hsub, hset k hk s hs]
    · have hno : ∀ k < u.nSeqs, i ≠ m.head + k := fun k hk he => hin (by omega)
      have hs' : s ∈ m.tailsAt i := hb.sets i hi ▸ hs
      have hout : ∀ k < u.nSeqs, s ∉ seqsOf u k := by
        intro k hk hsk
        have hmem : s ∈ (m.cell (m.head + k)).seqId := by
          rw [(h.slots k hk).1]
          exact List.mem_toFinset.2 hsk
        rw [hb.sets _ (by omega)] at hmem
        have htails := (Memory.mem_tailsAt.1 hs').2.symm.trans (Memory.mem_tailsAt.1 hmem).2
        exact hno k hk (Option.some.inj htails)
      rw [if_neg hin, hother s (Memory.mem_tailsAt.1 hs').1 hout]
      exact h.others i hi hno s hs
  · rw [Filled.compute_eq h hi, if_neg]
    · exact h.fresh i hi he
    · intro hin
      obtain ⟨k, hk, rfl, -⟩ := hslot i hin
      rw [(h.slots k hk).1] at he
      exact Finset.ne_empty_of_mem (List.mem_toFinset.2 (hu.owner_mem hk)) he

/-- The states after the sequences of the sets were checked. -/
theorem Checked.need_owner {m m' : Memory} {stored history : Nat → σ}
    (h : Memory.Checked u m m') (hst : Stored zero m stored history) (hs : s < m.size) :
    dropped zero m' history s = if Later u s then zero else history s := by
  rw [dropped, h.cleared]
  by_cases hl : Later u s
  · rw [if_pos hl, if_pos hl, if_pos rfl]
  · rw [if_neg hl, if_neg hl]
    split
    · case isTrue hnone => exact (hst.absent s hs hnone).symm
    · rfl

theorem Stored.advanced {m m' m'' : Memory} {stored history : Nat → σ} {src : Nat → Option Nat}
    (h : Stored zero m stored history) (hu : Splits u) (hsame : Uniform u)
    (hc : Memory.Checked u m m') (hsize : m''.size = m'.size) (hb : m''.Booked)
    (hf : Memory.Filled (load zero stored) (dropped zero m' history) u src m'')
    (hout : ∀ s, (∀ k < u.nSeqs, s ∉ seqsOf u k) → (m''.tail s = none ↔ m'.tail s = none)) :
    Stored zero m'' (compute zero advance m'' u stored) (advanced zero advance u history) := by
  have hsize' : m''.size = m.size := hsize.trans hc.shrunk.size
  have hnotLater : ∀ s, (∀ k < u.nSeqs, s ∉ seqsOf u k) → ¬ Later u s := by
    rintro s hs ⟨k, hk, hl⟩
    exact hs k hk (List.mem_of_mem_tail hl)
  refine Filled.stored hf hu hb (fun k hk s hs => ?_) (fun s hsn hs => ?_) fun s hsn hnone => ?_
  · rw [System.advanced, setOf_some hu hk hs, Option.elim_some, ownTokens_eq hu hsame hk hs]
    rw [Checked.need_owner hc h (hc.below k hk _ (hu.owner_mem hk))]
  · rw [System.advanced, setOf_none hs, Option.elim_none,
      Checked.need_owner hc h (hsize' ▸ hsn), if_neg (hnotLater s hs)]
  · have hs : ∀ k < u.nSeqs, s ∉ seqsOf u k := by
      intro k hk hs
      have hwide := hf.wide
      have hbound := hf.bound
      have hmem : s ∈ (m''.cell (m''.head + k)).seqId := by
        rw [(hf.slots k hk).1]
        exact List.mem_toFinset.2 hs
      rw [hb.sets _ (by omega)] at hmem
      rw [(Memory.mem_tailsAt.1 hmem).2] at hnone
      cases hnone
    rw [hout s hs, hc.cleared, if_neg (hnotLater s hs)] at hnone
    rw [System.advanced, setOf_none hs, Option.elim_none]
    exact h.absent s (hsize' ▸ hsn) hnone

/-- A ubatch is placed without a failed assertion or a report. -/
theorem Inv.findSlot {x : System σ} (h : x.Inv zero) (hu : Splits u) (hsame : Uniform u) :
    ∃ y, x.step zero advance (.findSlot u) = some y ∧ y.Inv zero := by
  obtain ⟨m, hm⟩ : ∃ m : Memory, m = { x.mem with
    head := if x.mem.used + 2 * u.nSeqs < x.mem.head then 0 else x.mem.head } := ⟨_, rfl⟩
  have hb : m.Booked := by
    rw [hm]
    refine ⟨h.booked.tails, h.booked.sets, h.booked.vacant, h.booked.used, h.booked.own,
      h.booked.kept, ?_⟩
    dsimp only
    split
    · exact Nat.zero_le _
    · exact h.booked.head
  have hst : Stored zero m x.stored x.history := by
    rw [hm]
    exact ⟨h.stored.loaded, h.stored.fresh, h.stored.absent⟩
  rw [step, Memory.findSlot, ← hm, if_neg (not_not.2 hu.equal)]
  cases hun : Memory.unshare u m with
  | error m' =>
    have hleft := hb.unshare_error hun
    refine ⟨_, rfl, hleft.booked, hst.shrunk hleft.shrunk hleft.booked, ?_⟩
    exact (List.append_nil _).trans h.errors
  | ok m' =>
    have hc := hb.checked hun
    have hleft := hst.shrunk hc.shrunk hc.booked
    obtain ⟨src, m'', hfound, hsize, hbooked, hfilled, hout⟩ :=
      hc.findRange hu hleft.loaded hleft.fresh hleft.absent
    dsimp only
    rw [hfound]
    refine ⟨_, rfl, hbooked, ?_, ?_⟩
    · exact hst.advanced hu hsame hc hsize hbooked hfilled hout
    · exact (List.append_nil _).trans h.errors

/-! ### Runs -/

theorem Inv.step {x : System σ} (h : x.Inv zero) (ha : x.Allowed op) :
    ∃ y, x.step zero advance op = some y ∧ y.Inv zero := by
  cases op with
  | clear data => exact ⟨_, rfl, h.clear _⟩
  | seqRm s p₀ p₁ => exact ⟨_, rfl, h.with_ (h.booked.seqRm ha)⟩
  | seqCp src dst =>
    exact ⟨_, rfl, h.booked.seqCp src dst, h.stored.seqCp h.booked src dst, h.errors⟩
  | seqKeep s => exact ⟨_, rfl, h.with_ (h.booked.seqKeep ha)⟩
  | seqAdd s p₀ p₁ shift =>
    obtain ⟨m, hm, hb⟩ := h.booked.seqAdd ha
    exact ⟨_, by rw [System.step, hm, Option.map_some], h.with_ hb⟩
  | seqDiv s p₀ p₁ d =>
    obtain ⟨m, hm, hb⟩ := h.booked.seqDiv s p₀ p₁ ha
    exact ⟨_, by rw [System.step, hm, Option.map_some], h.with_ hb⟩
  | findSlot u => exact h.findSlot ha.1 ha.2

/-- Tails, counts and sources as they are promised. -/
structure Sound (x : System σ) : Prop where
  tail : ∀ s < x.mem.size, ∀ i, x.mem.tail s = some i ↔
    i < x.mem.size ∧ s ∈ (x.mem.cell i).seqId
  used : x.mem.used = x.mem.usedCells
  source : ∀ i < x.mem.size, (x.mem.cell i).src = none ∨ ∃ j < x.mem.size,
    (x.mem.cell i).src = some j ∧ ∀ s ∈ (x.mem.cell i).seqId, x.stored j = x.history s
  errors : x.errors = []

theorem Inv.sound {x : System σ} (h : x.Inv zero) : x.Sound where
  tail := fun s hs i => h.booked.tail_iff hs
  used := h.booked.used
  source := by
    intro i hi
    cases hsrc : (x.mem.cell i).src with
    | none => exact .inl rfl
    | some j =>
      have hj := h.booked.own i hi j hsrc
      refine .inr ⟨j, hj ▸ hi, rfl, fun s hs => ?_⟩
      have hload := h.stored.loaded i hi s hs
      rw [hsrc] at hload
      exact hload
  errors := h.errors

/-- A run that avoids the two slips ends in a sound state, and no assertion fails on the way. -/
theorem sound_along {n : Nat} {ops : List Op}
    (h : EachStep (step zero advance) Allowed (create zero n) ops) :
    ∃ x, run (step zero advance) (create zero n) ops = some x ∧ x.Sound := by
  obtain ⟨x, hx, hinv⟩ := run_total (fun hI ha => Inv.step hI ha) (create_inv n) h
  exact ⟨x, hx, hinv.sound⟩

/-- One token of one sequence. -/
def single (s : Nat) (pos : Int) : Ubatch := ⟨true, 1, [⟨pos, [s], true⟩]⟩

theorem single_splits (s : Nat) (pos : Int) : Splits (single s pos) := by
  refine ⟨rfl, Nat.one_pos, fun k hk => ?_, fun j hj k hk hne => (hne ?_).elim⟩
  · obtain rfl : k = 0 := Nat.lt_one_iff.1 hk
    have hseqs : seqsOf (single s pos) 0 = [s] := by simp [seqsOf, single]
    rw [hseqs]
    exact List.cons_ne_nil s []
  · exact (Nat.lt_one_iff.1 hj).trans (Nat.lt_one_iff.1 hk).symm

theorem single_uniform (s : Nat) (pos : Int) : Uniform (single s pos) := by
  refine ⟨by simp [single, Ubatch.nSeqTokens, Ubatch.nTokens], fun k hk x hx a => ?_⟩
  obtain rfl : k = 0 := Nat.lt_one_iff.1 hk
  rw [tokensOf, Nat.zero_mul, List.drop_zero] at hx
  obtain rfl := List.mem_singleton.1 (List.mem_of_mem_take hx)
  rw [seqsOf, Nat.zero_mul]
  exact Iff.rfl

/-- States are numbers of tokens here. -/
abbrev countTokens (n : Nat) (tokens : List Token) : Nat := n + tokens.length

theorem sound_along_shared : ∃ x, run (step 0 countTokens) (create 0 2)
    [.findSlot (single 0 0), .seqCp 0 1, .findSlot (single 1 1), .seqRm 0 0 (-1)] = some x ∧
      x.Sound := by
  refine sound_along ⟨⟨single_splits 0 0, single_uniform 0 0⟩, fun x₁ _ => ⟨trivial, fun x₂ _ =>
    ⟨⟨single_splits 1 1, single_uniform 1 1⟩, fun x₃ _ => ⟨fun hneg => ?_, fun x₄ _ => trivial⟩⟩⟩⟩
  exact (Int.lt_irrefl 0 hneg).elim

/-- A removal for all sequences leaves a tail behind that the next ubatch stumbles over, a sequence
that is dropped at a negative position stays counted, and a sequence that leaves its set on the way
gets the state of a token that is not its own. -/
theorem seqRm_all_forgets_tails :
    (∀ s pos, Splits (single s pos) ∧ Uniform (single s pos)) ∧
      (run (step 0 countTokens) (create 0 2)
        [.findSlot (single 0 0), .seqRm (-1) (-1) (-1), .findSlot (single 0 1)]).isNone = true ∧
      ((run (step 0 countTokens) (create 0 2)
        [.findSlot (single 0 0), .seqAdd 0 0 (-1) (-5), .seqKeep 1]).any fun x =>
          x.mem.used ≠ x.mem.usedCells) = true ∧
      ((run (step 0 countTokens) (create 0 2)
        [.findSlot ⟨true, 1, [⟨0, [0, 1], false⟩, ⟨1, [0], true⟩]⟩]).any fun x =>
          x.mem.tail 1 = some 0 ∧ (x.mem.cell 0).src = some 0 ∧
            x.stored 0 ≠ x.history 1) = true := by
  refine ⟨fun s pos => ⟨single_splits s pos, single_uniform s pos⟩, ?_, ?_, ?_⟩ <;> decide +kernel

end System
end System
end ActQuant.Recurrent
