import ActQuant.KvCache.Entries
import ActQuant.Lib.Layout

namespace ActQuant.KvCache
open ActQuant.Lib ActQuant.Lib.Window ActQuant.Batch

/-! What the tokens of an ubatch read of the cache, against a log of all that their sequences were
given. -/

variable {α β : Type}

/-- The first stream of a slot. -/
def SlotInfo.s0 (r : SlotInfo) : Nat := r.rows.foldl (fun t x => min t x.1) LLAMA_MAX_SEQ

/-- `get_k` and `get_v`, whose views have the streams from the first on: what stands there for a
row of the slot. -/
def SlotInfo.viewed (r : SlotInfo) (t : Nat) : Nat := r.s0 + (r.rows.map Prod.fst).idxOf t

/-- A slot that the views and the mask fit: its streams come one after the other, with as many
tokens each. -/
structure SlotInfo.Viewable (r : SlotInfo) (u : Ubatch) : Prop where
  streams : r.rows.map Prod.fst = List.range' r.s0 r.rows.length
  even : ∀ x ∈ r.rows, x.2.length * r.rows.length = u.nTokens

theorem SlotInfo.Viewable.viewed_eq {r : SlotInfo} (h : r.Viewable u)
    (ht : t ∈ r.rows.map Prod.fst) : r.viewed t = t := by
  rw [SlotInfo.viewed, h.streams] at *
  obtain ⟨i, hi, rfl⟩ := List.mem_range'.1 ht
  have hlt : i < (List.range' r.s0 r.rows.length).length := by
    rw [List.length_range']
    exact hi
  have hget : (List.range' r.s0 r.rows.length)[i] = r.s0 + 1 * i := List.getElem_range' _
  rw [← hget, List.Nodup.idxOf_getElem List.nodup_range', hget, Nat.one_mul]

namespace Cache

/-- `get_n_kv`: as many cells as the fullest stream of the slot needs. -/
def getNKv (p : Params) (k : Cache) (r : SlotInfo) : Nat :=
  r.rows.foldl (fun n x =>
    max (min (k.cells x.1).size (max p.nPad (padTo p.nPad (k.cells x.1).usedMaxP1))) n) 0

/-- What the mask adds for a cell that is open. -/
def kqBias (useAlibi : Bool) (p₁ pos : Int) : Int := if useAlibi then -(pos - p₁).natAbs else 0

/-- `set_input_kq_mask` for a token and a cell, none where the mask is minus infinity. -/
def kqMask (p : Params) (causal useAlibi : Bool) (c : Cells) (s : Nat) (p₁ : Int) (j : Nat) :
    Option Int :=
  if (c.cell j).isEmpty then none
  else if !(c.cell j).seqHas s then none
  else if causal && decide (p₁ < (c.cell j).pos) then none
  else if p.isMaskedSwa (c.cell j).pos p₁ then none
  else some (kqBias useAlibi p₁ (c.cell j).pos)

/-- What a token may read by the positions: nothing later where attention is causal, and nothing
that the window has passed. -/
def Sees (p : Params) (causal : Bool) (p₁ pos : Int) : Prop :=
  (causal = true → pos ≤ p₁) ∧ ¬ p.isMaskedSwa pos p₁ = true

instance (p : Params) (causal : Bool) (p₁ : Int) : DecidablePred (Sees p causal p₁) :=
  fun _ => inferInstanceAs (Decidable (_ ∧ _))

end Cache

/-- Rotary embeddings: a row that is stored for a position can be turned on by a shift. This is the
exact arithmetic, with an attention factor of 1. -/
structure Rope (α β : Type) where
  rot : Int → β → α
  turn : Int → α → α
  turn_rot : ∀ d pos b, turn d (rot pos b) = rot (pos + d) b

/-- The cache with the rows of a tensor, one for each cell. -/
structure KvMemory (α : Type) where
  cache : Cache
  row : Nat × Nat → α

namespace KvMemory

/-- The rows once the pending copies of buffers are made. -/
def settled (M : KvMemory α) : Nat × Nat → α :=
  M.cache.copies.foldl (fun f x => Cache.copyRows x.1 x.2 f) M.row

/-- The shift that a row is turned by. -/
def kShift (M : KvMemory α) (y : Nat × Nat) : Int :=
  if (M.cache.at' y).isEmpty then 0 else (M.cache.at' y).shift

/-- `update`: the copies, then the shifts where some are pending. -/
def update (p : Params) (rope : Rope α β) (M : KvMemory α) : KvMemory α where
  cache := M.cache.update p (M.cache.getHasShift p)
  row y :=
    if M.cache.getHasShift p ∧ y.1 < p.nStream ∧ y.2 < (M.cache.cells y.1).size then
      rope.turn (M.kShift y) (M.settled y)
    else M.settled y

/-- The rows of the new tokens go to the cells of the slot. -/
def store (rope : Rope α β) (M : KvMemory α) (k : Cache) (r : SlotInfo) (u : Ubatch)
    (keys : List β) : KvMemory α where
  cache := k
  row := Cache.writeRows (Cache.rowsOf r u keys) (fun x => rope.rot x.1.pos x.2) M.row

/-- What attention reads for a token of a stream: the masks of the open cells, with their rows. -/
def seen (p : Params) (causal useAlibi : Bool) (M : KvMemory α) (r : SlotInfo) (t : Nat)
    (x : Token) : List (Int × α) :=
  (List.range (M.cache.getNKv p r)).filterMap fun j =>
    (Cache.kqMask p causal useAlibi (M.cache.cells (p.stream (x.seqId.headD 0)))
      (x.seqId.headD 0) x.pos j).map fun bias => (bias, M.row (r.viewed t, j))

end KvMemory

/-- What is done to a memory. A decode comes with what its tokens are given for their rows. -/
inductive KvCall (β : Type) where
  | clear
  | rm (s p₀ p₁ : Int)
  | keep (s : Int)
  | cp (src dst p₀ p₁ : Int)
  | add (s p₀ p₁ d : Int)
  | update
  | decode (r : SlotInfo) (u : Ubatch) (keys : List β)

/-- All that each sequence was given and that was not taken back. -/
abbrev Log (β : Type) := Nat → Multiset (Int × β)

namespace KvCall

def run (p : Params) (rope : Rope α β) (M : KvMemory α) : KvCall β → Option (KvMemory α)
  | clear => some { M with cache := M.cache.clear p }
  | rm s p₀ p₁ => (M.cache.seqRm p s p₀ p₁).map fun k => { M with cache := k }
  | keep s => (M.cache.seqKeep p s).map fun k => { M with cache := k }
  | cp src dst p₀ p₁ => (M.cache.seqCp p src dst p₀ p₁).map fun k => { M with cache := k }
  | add s p₀ p₁ d => (M.cache.seqAdd p s p₀ p₁ d).map fun k => { M with cache := k }
  | update => some (M.update p rope)
  | decode r u keys => (M.cache.applyUbatch p r u).map fun k => M.store rope k r u keys

/-- The same on the log. Only the sequences of the same stream leave where one is kept, and a copy
to another stream replaces what is there. -/
def record (p : Params) (L : Log β) : KvCall β → Log β
  | clear => fun _ => 0
  | rm s p₀ p₁ => fun q =>
    (L q).filter fun e => ¬ ((s < 0 ∨ (q : Int) = s) ∧ Within p₀ p₁ e.1)
  | keep s => fun q => if p.stream q = p.stream s.toNat ∧ (q : Int) ≠ s then 0 else L q
  | cp src dst p₀ p₁ =>
    if p.stream src.toNat = p.stream dst.toNat then
      if src = dst then L
      else fun q => L q + if (q : Int) = dst then
        (L src.toNat).filter (fun e => Within p₀ p₁ e.1) else 0
    else fun q => if q = dst.toNat then L src.toNat else L q
  | add s p₀ p₁ d => fun q =>
    if q = s.toNat then (L q).filterMap (Cache.shiftEntry p₀ p₁ d) else L q
  | update => L
  | decode _ u keys => fun q => L q + Cache.newEntries (u.tokens.zip keys) q

/-- What the callers see to. With a window, what is left of a sequence ends where the sequence
ended. A shift is of cells that no other sequence has, and without a window. The tokens of a decode
have a slot that the views of the tensors fit, are behind their sequences where there is a window,
and come after an update. -/
def Allowed (p : Params) (M : KvMemory α) (L : Log β) : KvCall β → Prop
  | clear => True
  | rm s p₀ p₁ => (s = -1 ∨ Cache.validSeq p s) ∧
    (p.swaType ≠ .none → ∀ q < p.nSeqIds, EndsWith (L q) ((rm s p₀ p₁).record p L q))
  | keep s => Cache.validSeq p s
  | cp src dst p₀ p₁ => Cache.validSeq p src ∧ Cache.validSeq p dst ∧
    (p.stream src.toNat ≠ p.stream dst.toNat →
      Cache.isFull (M.cache.cells (p.stream 0)).size p₀ p₁) ∧
    Cache.Unshared p M.cache src dst p₀ p₁ ∧
    (p.swaType ≠ .none → p.stream src.toNat = p.stream dst.toNat → src ≠ dst →
      EndsWith (L src.toNat) ((L src.toNat).filter fun e => Within p₀ p₁ e.1))
  | add s p₀ p₁ d => Cache.validSeq p s ∧ p.swaType = .none ∧
    ∀ x, Cache.Touched p M.cache s p₀ p₁ x → Cells.CanMove x d ∧ x.seq = {s.toNat}
  | update => True
  | decode r u keys => keys.length = u.nTokens ∧
    Cache.SlotFound p M.cache u r ∧ r.Viewable u ∧ Cache.Aligned p r u ∧
    (∀ x ∈ u.tokens, Cache.Accepted p x ∧ x.seqId.Nodup ∧ 0 ≤ x.pos ∧ x.pos ≤ posMax) ∧
    (p.swaType ≠ .none → ∀ x ∈ u.tokens, ∀ s ∈ x.seqId, Before (L s) x.pos) ∧
    M.cache.getHasShift p = false ∧ M.cache.copies = []

end KvCall

/-- The memories that calls lead to from an empty one, each with its log. -/
inductive Recorded (p : Params) (n : Nat) (rope : Rope α β) : KvMemory α → Log β → Prop where
  | create (row : Nat × Nat → α) : Recorded p n rope ⟨Cache.create n, row⟩ fun _ => 0
  | step {c : KvCall β} : Recorded p n rope M L → c.Allowed p M L → c.run p rope M = some M' →
      Recorded p n rope M' (c.record p L)

namespace Params

/-- A window moves on: what it has passed it does not come back to. -/
theorem fades (p : Params) : Fades fun a q => p.isMaskedSwa a q = true := by
  intro a a' q q' hmask haq ha hq
  rw [isMaskedSwa] at hmask ⊢
  cases hswa : p.swaType with
  | none =>
    rw [hswa] at hmask
    cases hmask
  | standard =>
    rw [hswa] at hmask
    simp only [decide_eq_true_eq] at hmask ⊢
    omega
  | chunked =>
    rw [hswa] at hmask
    simp only [decide_eq_true_eq] at hmask ⊢
    have hdiv : q / (p.nSwa : Int) ≤ q' / p.nSwa := by
      rcases Nat.eq_zero_or_pos p.nSwa with hzero | hpos
      · rw [hzero, Nat.cast_zero, Int.ediv_zero, Int.ediv_zero]
      · exact Int.ediv_le_ediv (Int.natCast_pos.2 hpos) hq
    have hmul := Int.mul_le_mul_of_nonneg_right hdiv (Int.natCast_nonneg p.nSwa)
    omega
  | symmetric =>
    rw [hswa] at hmask
    simp only [Bool.or_eq_true, decide_eq_true_eq] at hmask ⊢
    omega

theorem not_masked (p : Params) (h : p.swaType = .none) (a q : Int) :
    ¬ p.isMaskedSwa a q = true := by
  rw [isMaskedSwa, h]
  exact Bool.false_ne_true

end Params

namespace KvMemory

/-- The row of each cell in use is that of its value, at the position without the pending shift. -/
def Filled (p : Params) (n : Nat) (rope : Rope α β) (M : KvMemory α) (raw : Nat × Nat → β) : Prop :=
  ∀ y, y.1 < p.nStream → y.2 < n → (M.cache.at' y).pos ≠ -1 →
    M.settled y = rope.rot ((M.cache.at' y).pos - (M.cache.at' y).shift) (raw y)

/-- A memory that goes with a log: the cells hold of each sequence all but what the window has
passed, and the rows go with the cells. -/
structure Shows (p : Params) (n : Nat) (rope : Rope α β) (M : KvMemory α) (L : Log β) : Prop where
  booked : M.cache.Booked p n
  tended : M.cache.Tended p
  held : ∃ raw, M.Filled p n rope raw ∧ ∀ s < p.nSeqIds,
    Keeps (fun a q => p.isMaskedSwa a q = true) (L s) (L s) (M.cache.entries p raw s)

end KvMemory

section Steps
variable {p : Params} {rope : Rope α β} {M M' : KvMemory α} {L : Log β} {raw : Nat × Nat → β}
  {k k' : Cache}

open KvMemory Cache

/-- Where the cells come from others, with the rows of those, each has its own. -/
theorem KvMemory.Filled.of_stems (hM : M.Filled p n rope raw) (src : Nat × Nat → Nat × Nat)
    (hcells : ∀ y, (M.cache.at' (src y)).Stems p y.1 (k'.at' y))
    (hrows : settled { M with cache := k' } = M.settled ∘ src)
    (hsrc : ∀ y, y.1 < p.nStream → y.2 < n → (src y).1 < p.nStream ∧ (src y).2 < n) :
    Filled p n rope { M with cache := k' } (raw ∘ src) := by
  intro y hstream hy hpos
  rcases hcells y with hv | ⟨hused, _, hroot⟩
  · exact absurd (congrArg Cell.pos hv) hpos
  · rw [hrows, Function.comp_apply, hM _ (hsrc y hstream hy).1 (hsrc y hstream hy).2 hused]
    exact congrArg (rope.rot · (raw (src y))) hroot.symm

theorem KvMemory.Filled.stems (hM : M.Filled p n rope raw) (h : Cache.Stems p M.cache k') :
    Filled p n rope { M with cache := k' } raw := by
  apply hM.of_stems id h.cells _ fun _ hstream hy => ⟨hstream, hy⟩
  rw [settled, settled, h.rest.2, Function.comp_id]

/-- What a memory keeps of a log it keeps of the rest of the log. -/
theorem keeps_settle {log log' kept : Multiset (Int × β)}
    (h : Keeps (fun a q => p.isMaskedSwa a q = true) log log' kept)
    (hends : p.swaType ≠ .none → EndsWith log log') :
    Keeps (fun a q => p.isMaskedSwa a q = true) log' log' kept := by
  by_cases hswa : p.swaType = .none
  · rw [h.all (p.not_masked hswa)]
    exact .refl _ log' log'
  · exact h.settle (hends hswa)

theorem KvMemory.Shows.clear (hM : M.Shows p n rope L) :
    Shows p n rope { M with cache := M.cache.clear p } fun _ => 0 := by
  obtain ⟨hbooked, htended, raw, _, _⟩ := hM
  refine ⟨hbooked.clear, htended.clear p, raw, ?_, ?_⟩
  · intro y hstream _ hpos
    refine absurd ?_ hpos
    change ((M.cache.clear p).at' y).pos = -1
    rw [at', Cache.clear]
    dsimp only
    rw [if_pos hstream]
    rfl
  · intro s hs
    rw [entries_clear hs]
    exact .refl _ 0 0

theorem KvMemory.Shows.rm (hM : M.Shows p n rope L) (hs : s = -1 ∨ validSeq p s)
    (hends : p.swaType ≠ .none → ∀ q < p.nSeqIds,
      EndsWith (L q) ((KvCall.rm s p₀ p₁).record p L q)) :
    ∃ k, M.cache.seqRm p s p₀ p₁ = some k ∧
      Shows p n rope { M with cache := k } ((KvCall.rm s p₀ p₁).record p L) := by
  obtain ⟨hbooked, htended, raw, hfilled, hkeeps⟩ := hM
  obtain ⟨k, h, hk⟩ := hbooked.seqRm hs p₀ p₁
  have hstems := htended.seqRm h
  refine ⟨k, h, hk, hstems.tended, raw, hfilled.stems hstems, fun q hq => ?_⟩
  dsimp only
  rw [entries_seqRm hq hbooked.fits h]
  exact keeps_settle ((hkeeps q hq).filter _) fun hswa => hends hswa q hq

theorem KvMemory.Shows.keep (hM : M.Shows p n rope L) (hs : validSeq p s) :
    ∃ k, M.cache.seqKeep p s = some k ∧
      Shows p n rope { M with cache := k } ((KvCall.keep s).record p L) := by
  obtain ⟨hbooked, htended, raw, hfilled, hkeeps⟩ := hM
  have howned : AllOwned p M.cache s :=
    fun i _ hpos => (htended.cells (p.stream s.toNat, i)).seq_ne hpos
  obtain ⟨k, h, hk⟩ := hbooked.seqKeep hs howned
  have hstems := htended.seqKeep h
  refine ⟨k, h, hk, hstems.tended, raw, hfilled.stems hstems, fun q hq => ?_⟩
  dsimp only [KvCall.record]
  rw [entries_seqKeep hq hbooked.fits h]
  split
  · exact .refl _ 0 0
  · exact hkeeps q hq

theorem KvMemory.Shows.cp_same (hM : M.Shows p n rope L) (hsrc : validSeq p src)
    (hdst : validSeq p dst) (ht : p.stream src.toNat = p.stream dst.toNat)
    (hno : Unshared p M.cache src dst p₀ p₁)
    (hends : p.swaType ≠ .none → src ≠ dst →
      EndsWith (L src.toNat) ((L src.toNat).filter fun e => Within p₀ p₁ e.1)) :
    ∃ k, M.cache.seqCp p src dst p₀ p₁ = some k ∧
      Shows p n rope { M with cache := k } ((KvCall.cp src dst p₀ p₁).record p L) := by
  obtain ⟨hbooked, htended, raw, hfilled, hkeeps⟩ := hM
  obtain ⟨k, h, hk⟩ := hbooked.seqCp hsrc hdst (fun hne => absurd ht hne) hno
    fun hne => absurd ht hne
  have hstems := htended.seqCp_same ht h
  refine ⟨k, h, hk, hstems.tended, raw, hfilled.stems hstems, fun q hq => ?_⟩
  simp only [KvCall.record, if_pos ht]
  by_cases hsame : src = dst
  · subst hsame
    have hid : M.cache = k := by
      have hcp := h
      rw [seqCp, Option.ite_none_right_eq_some] at hcp
      obtain ⟨_, hcp⟩ := hcp
      rw [if_pos rfl, if_pos rfl] at hcp
      exact Option.some.inj hcp
    rw [if_pos rfl, ← hid]
    exact hkeeps q hq
  · rw [if_neg hsame, entries_seqCp_same ht hsame hno hq hbooked.fits h]
    by_cases hqd : (q : Int) = dst
    · rw [if_pos hqd, if_pos hqd]
      have hsrcq := hkeeps src.toNat (validSeq_eq.1 hsrc).2
      have hcopy := keeps_settle (hsrcq.filter fun e => Within p₀ p₁ e.1)
        fun hswa => hends hswa hsame
      refine ((hkeeps q hq).rebase ?_).add (hcopy.rebase ?_)
      · exact fun r hr => (before_add.1 hr).1
      · exact fun r hr => (before_add.1 hr).2
    · rw [if_neg hqd, if_neg hqd, add_zero, add_zero]
      exact hkeeps q hq

/-- A copy between streams: the rows are to be copied before they are read. -/
theorem KvMemory.Shows.cp_cross (hM : M.Shows p n rope L) (hsrc : validSeq p src)
    (hdst : validSeq p dst) (ht : p.stream src.toNat ≠ p.stream dst.toNat)
    (hfull : isFull (M.cache.cells (p.stream 0)).size p₀ p₁) :
    ∃ k, M.cache.seqCp p src dst p₀ p₁ = some k ∧
      Shows p n rope { M with cache := k } ((KvCall.cp src dst p₀ p₁).record p L) := by
  obtain ⟨hbooked, htended, raw, hfilled, hkeeps⟩ := hM
  obtain ⟨k, h, hk⟩ := hbooked.seqCp hsrc hdst (fun _ => hfull) (fun hsame => absurd hsame ht)
    fun _ i _ hin => (htended.cells (p.stream src.toNat, i)).unshifts (of_decide_eq_true hin)
  obtain ⟨hcells, htended', hcopies⟩ := htended.seqCp_cross ht h
  refine ⟨k, h, hk, htended', copyRows (p.stream src.toNat) (p.stream dst.toNat) raw, ?_,
    fun q hq => ?_⟩
  · apply hfilled.of_stems _ hcells
    · rw [settled, hcopies, List.foldl_append]
      rfl
    · intro y hstream hy
      rw [copySource]
      split
      · exact ⟨stream_lt (validSeq_eq.1 hsrc).2, hy⟩
      · exact ⟨hstream, hy⟩
  · simp only [KvCall.record, if_neg ht]
    rw [entries_seqCp_cross ht hbooked.fits htended h]
    split
    · exact hkeeps _ (validSeq_eq.1 hsrc).2
    · exact hkeeps q hq

/-- A shift moves the positions; the rows follow with the next update. -/
theorem KvMemory.Shows.add (hM : M.Shows p n rope L) (hs : validSeq p s) (hswa : p.swaType = .none)
    (hmove : ∀ x, Touched p M.cache s p₀ p₁ x → Cells.CanMove x d ∧ x.seq = {s.toNat}) :
    ∃ k, M.cache.seqAdd p s p₀ p₁ d = some k ∧
      Shows p n rope { M with cache := k } ((KvCall.add s p₀ p₁ d).record p L) := by
  obtain ⟨hbooked, htended, raw, hfilled, hkeeps⟩ := hM
  obtain ⟨k, h, hk⟩ := hbooked.seqAdd hs fun x hx => (hmove x hx).1
  have hstems := htended.seqAdd h fun x hx => (hmove x hx).1
  refine ⟨k, h, hk, hstems.tended, raw, hfilled.stems hstems, fun q hq => ?_⟩
  dsimp only [KvCall.record]
  rw [entries_seqAdd hbooked.fits h fun x hx => (hmove x hx).2,
    (hkeeps q hq).all (p.not_masked hswa)]
  exact .refl _ _ _

theorem KvMemory.Shows.update (hM : M.Shows p n rope L) : (M.update p rope).Shows p n rope L := by
  obtain ⟨hbooked, htended, raw, hfilled, hkeeps⟩ := hM
  refine ⟨hbooked.update _, htended.update p _, raw, ?_, ?_⟩
  · intro y hstream hy hpos
    change (M.update p rope).row y = _
    by_cases hflag : M.cache.getHasShift p = true
    · have hcell : (M.update p rope).cache.at' y = { M.cache.at' y with shift := 0 } := by
        simp only [KvMemory.update, at', Cache.update, hflag, hstream, Bool.true_and, decide_true,
          if_true]
        rfl
      have hin : y.2 < (M.cache.cells y.1).size := (hbooked.fits.size _).symm ▸ hy
      rw [hcell] at hpos ⊢
      have hfull : (M.cache.at' y).isEmpty = false := by
        rw [← Bool.not_eq_true, Cell.isEmpty_eq]
        exact hpos
      rw [KvMemory.update]
      dsimp only
      rw [if_pos ⟨hflag, hstream, hin⟩, kShift, if_neg (by rw [hfull]; exact Bool.false_ne_true),
        hfilled y hstream hy hpos, rope.turn_rot, Int.sub_add_cancel, Int.sub_zero]
    · have hcell : (M.update p rope).cache.at' y = M.cache.at' y := by
        simp only [KvMemory.update, at', Cache.update, Bool.not_eq_true _ ▸ hflag, Bool.false_and,
          Bool.false_eq_true, if_false]
      rw [hcell] at hpos ⊢
      rw [KvMemory.update]
      dsimp only
      rw [if_neg fun h => hflag h.1]
      exact hfilled y hstream hy hpos
  · intro q hq
    change Keeps _ _ _ ((M.cache.update p _).entries p raw q)
    rw [entries_update]
    exact hkeeps q hq

/-! ### Decodes -/

theorem le_raised {xs : List ((Nat × Nat) × Token)} {f : Nat × Nat → Cell} (m : Nat → Int)
    (s : Nat) : m s ≤ xs.foldl (fun m x => raise m (f x.1)) m s ∧
      ∀ x ∈ xs, (f x.1).isEmpty = false → (f x.1).seqGet = s →
        (f x.1).pos ≤ xs.foldl (fun m x => raise m (f x.1)) m s := by
  induction xs generalizing m with
  | nil => exact ⟨le_rfl, fun _ hx => absurd hx List.not_mem_nil⟩
  | cons z xs ih =>
    rw [List.foldl_cons]
    obtain ⟨hle, hall⟩ := ih (raise m (f z.1))
    have hraise : m s ≤ raise m (f z.1) s := by
      rw [raise]
      split
      · exact le_rfl
      · by_cases hs : s = (f z.1).seqGet
        · rw [hs, Function.update_self]
          exact le_max_left _ _
        · rw [Function.update_of_ne hs]
    refine ⟨hraise.trans hle, fun x hx hfull hs => ?_⟩
    rcases List.mem_cons.1 hx with rfl | hx
    · refine le_trans ?_ hle
      rw [raise, if_neg (by rw [hfull]; exact Bool.false_ne_true), hs, Function.update_self]
      exact le_max_right _ _
    · exact hall x hx hfull hs

section Overwriting
variable {r : SlotInfo} {u : Ubatch}

theorem seqGet_of_single {x : Cell} (h : x.seqCount = 1) (hs : s ∈ x.seq) : x.seqGet = s := by
  obtain ⟨q, hq⟩ := Finset.card_eq_one.1 h
  rw [hq, Finset.mem_singleton] at hs
  rw [Cell.seqGet_of_eq hq, hs]

/-- The entries that an ubatch overwrites are not behind what it notes as overwritten. -/
theorem le_overwritten (hk : k.Tended p) (hr : Fillable p k u r) (hy : y ∈ r.places)
    (hs : s ∈ (k.at' y).seq) : (k.at' y).pos ≤ overwritten k r u s := by
  have hnn := (hk.cells y).pos_nonneg hs
  have hfull : (k.at' y).isEmpty = false := by
    rw [← Bool.not_eq_true, Cell.isEmpty_eq]
    omega
  rw [← List.map_fst_zip (le_of_eq hr.length.symm)] at hy
  obtain ⟨x, hx, rfl⟩ := List.mem_map.1 hy
  exact (le_raised (f := k.at') (fun _ => -1) s).2 x hx hfull
    (seqGet_of_single (hr.single _ (mem_of_zip hx).1 hfull) hs)

/-- What is noted as overwritten is an entry that the window has passed. -/
theorem overwritten_masked (hk : k.Tended p) (hr : SlotFound p k u r)
    (hm : overwritten k r u s ≠ -1) : 0 ≤ overwritten k r u s ∧
      p.isMaskedSwa (overwritten k r u s) (k.seqPosMax p s + 1) = true ∧
      ∃ i < (k.cells (p.stream s)).size, (k.at' (p.stream s, i)).Holds s (overwritten k r u s) := by
  obtain ⟨hnn, x, hx, hfull, hs, hpos⟩ := raised_eq (f := k.at') (m := fun _ => -1) (s := s)
    (le_refl (-1)) hm
  obtain ⟨hin, huse⟩ := hr.usable _ (mem_of_zip hx).1
  rw [canUse, show ((k.cells x.1.1).cell x.1.2).isEmpty = false from hfull, Bool.false_or,
    Bool.and_eq_true, beq_iff_eq] at huse
  have hmem : s ∈ (k.at' x.1).seq := hs ▸ Cell.seqGet_mem huse.1
  have hstream : p.stream s = x.1.1 := ((hk.cells x.1).rooted hmem).stream s hmem
  refine ⟨hnn, ?_, x.1.2, hstream.symm ▸ hin, ?_⟩
  · have hmask := huse.2
    rw [← show s = ((k.cells x.1.1).cell x.1.2).seqGet from hs, ← hstream] at hmask
    change p.isMaskedSwa (k.at' (p.stream s, x.1.2)).pos _ = true at hmask
    rw [hstream, show (k.at' (x.1.1, x.1.2)).pos = overwritten k r u s from hpos] at hmask
    rw [Cache.seqPosMax, hstream]
    exact hmask
  · rw [hstream]
    exact ⟨hmem, hpos⟩

/-- An ubatch appends its tokens; what it overwrites no later token would read. -/
theorem keeps_applyUbatch {vals : List β} (hb : Booked p n k) (hk : k.Tended p)
    (hr : SlotFound p k u r) (hfill : Fillable p k u r) (hvals : vals.length = u.nTokens)
    (haligned : Aligned p r u)
    (hbefore : p.swaType ≠ .none → ∀ x ∈ u.tokens, ∀ s ∈ x.seqId, Before (L s) x.pos)
    (h : k.applyUbatch p r u = some k') (hs : s < p.nSeqIds)
    (hkeeps : Keeps (fun a q => p.isMaskedSwa a q = true) (L s) (L s) (entries p k raw s)) :
    Keeps (fun a q => p.isMaskedSwa a q = true) (L s)
      (L s + newEntries (u.tokens.zip vals) s)
      (entries p k' (writeRows (rowsOf r u vals) Prod.snd raw) s) := by
  obtain ⟨rest, old, hE, hold, hE'⟩ := entries_applyUbatch raw hb hfill hvals haligned h hs
  have holdle : ∀ e ∈ old, 0 ≤ e.1 ∧ e.1 ≤ overwritten k r u s := by
    intro e he
    obtain ⟨y, hy, hin, hpos⟩ := hold e he
    rw [hpos]
    exact ⟨(hk.cells y).pos_nonneg hin, le_overwritten hk hfill hy hin⟩
  rw [hE']
  by_cases hm : overwritten k r u s = -1
  · have hnone : old = 0 := by
      apply Multiset.eq_zero_of_forall_notMem
      intro e he
      have hbounds := holdle e he
      omega
    have hall : ∀ e ∈ rest + newEntries (u.tokens.zip vals) s,
        ¬ (0 ≤ e.1 ∧ e.1 < overwritten k r u s + 1) := by
      intro e _
      omega
    rw [Multiset.filter_eq_self.2 hall]
    rw [hE, hnone, add_zero] at hkeeps
    exact hkeeps.append _
  · obtain ⟨hge, hmask, i, hi, hheld, hpos⟩ := overwritten_masked hk hr hm
    have hswa : p.swaType ≠ .none := fun hswa => p.not_masked hswa _ _ hmask
    have hwf := hb.wellFormed _ (stream_lt hs)
    -- the greatest position of the sequence is in the log, before all that comes
    have hmax : k.seqPosMax p s ≠ -1 := fun hnone => hwf.seqPosMax_none.1 hnone i hi hheld
    obtain ⟨hmaxheld, hle⟩ := hwf.seqPosMax_eq hmax
    obtain ⟨j, hj, hjheld, hjpos⟩ := Cells.held_pos.1 hmaxheld
    have hinlog {i : Nat} (hi : i < (k.cells (p.stream s)).size)
        (hin : s ∈ (k.at' (p.stream s, i)).seq) :
        ((k.at' (p.stream s, i)).pos, raw (p.stream s, i)) ∈ L s :=
      Multiset.mem_of_le hkeeps.kept_le (mem_entries.2 ⟨i, hi, hin, rfl⟩)
    have hlast : overwritten k r u s < k.seqPosMax p s + 1 := by
      have hlem := hle _ (Cells.held_pos.2 ⟨i, hi, hheld, hpos⟩)
      exact Int.lt_add_one_iff.2 hlem
    have hbase : ∀ q, Before (L s) q → k.seqPosMax p s + 1 ≤ q := by
      intro q hq
      have hlt := hq _ (hinlog hj hjheld)
      dsimp only at hlt
      rw [show (k.at' (p.stream s, j)).pos = k.seqPosMax p s from hjpos] at hlt
      omega
    have hpast : ∀ e : Int × β, e.1 ≤ overwritten k r u s →
        Past (fun a q => p.isMaskedSwa a q = true) (L s) e :=
      fun e he => p.fades.past hmask hlast he hbase
    have hnew : ∀ e ∈ newEntries (u.tokens.zip vals) s,
        ¬ (0 ≤ e.1 ∧ e.1 < overwritten k r u s + 1) := by
      intro e he
      obtain ⟨x, hx, hxs, rfl⟩ := mem_newEntries.1 he
      have hlt := hbefore hswa x.1 (List.of_mem_zip hx).1 s hxs _ (hinlog hi hheld)
      dsimp only at hlt ⊢
      rw [hpos] at hlt
      omega
    rw [Multiset.filter_add, Multiset.filter_eq_self.2 hnew]
    rw [hE, ← Multiset.filter_add_not (fun e : Int × β =>
      ¬ (0 ≤ e.1 ∧ e.1 < overwritten k r u s + 1)) rest, add_assoc] at hkeeps
    refine (hkeeps.drop fun e he => hpast e ?_).append _
    rcases Multiset.mem_add.1 he with he | he
    · have hout := (Multiset.mem_filter.1 he).2
      omega
    · exact (holdle e he).2

theorem no_shift (hk : k.Tended p) (hflag : k.getHasShift p = false) (hy : y.1 < p.nStream) :
    (k.at' y).shift = 0 := by
  refine hk.flagged y.1 ?_ y.2
  rw [← Bool.not_eq_true]
  intro hset
  have hany : k.getHasShift p = true :=
    List.any_eq_true.2 ⟨y.1, List.mem_range.2 hy, hset⟩
  rw [hflag] at hany
  cases hany

/-- The rows of the new tokens are in their cells, the others where they were. -/
theorem KvMemory.Filled.stored {keys : List β} (hM : M.Filled p n rope raw)
    (hb : Booked p n M.cache) (hk : M.cache.Tended p) (hr : Fillable p M.cache u r)
    (hkeys : keys.length = u.nTokens) (hflag : M.cache.getHasShift p = false)
    (hcopies : M.cache.copies = []) (h : M.cache.applyUbatch p r u = some k)
    (hcopies' : k.copies = []) :
    (M.store rope k r u keys).Filled p n rope
      (writeRows (rowsOf r u keys) Prod.snd raw) := by
  intro y hstream hy hpos
  change (k.at' y).pos ≠ -1 at hpos
  have hsettled : (M.store rope k r u keys).settled = (M.store rope k r u keys).row := by
    rw [settled, store, hcopies']
    rfl
  have hrow : M.settled = M.row := by
    rw [settled, hcopies]
    rfl
  rw [hsettled]
  change writeRows (rowsOf r u keys) (fun x => rope.rot x.1.pos x.2) M.row y =
    rope.rot ((k.at' y).pos - (k.at' y).shift) _
  by_cases hin : y ∈ r.places
  · rw [← rows_places hr hkeys] at hin
    obtain ⟨x, hx, rfl⟩ := List.mem_map.1 hin
    have hnd : ((rowsOf r u keys).map Prod.fst).Nodup := (rows_places hr hkeys).symm ▸ hr.nodup
    have hx' : (x.1, x.2.1) ∈ r.places.zip u.tokens := by
      rw [zip_tokens hkeys]
      exact List.mem_map.2 ⟨x, hx, rfl⟩
    rw [writeRows_place hnd hx, writeRows_place hnd hx]
    have hcell := applyUbatch_cell hb.sound.counted hr h ((hb.fits.size x.1.1).symm ▸ hy)
    rw [turned, fill_place (x := (x.1, x.2.1)) (zip_nodup hr.length hr.nodup) hx'] at hcell
    have hthin := (foldl_purgedBy_pared (p := p) (m := overwritten M.cache r u) (t := x.1.1)
      (List.range LLAMA_MAX_SEQ) ((M.cache.at' x.1).placed x.2.1)).thinned
    rw [← hcell] at hthin
    rcases hthin with hvac | ⟨hsame, hshift, _⟩
    · rw [hvac] at hpos
      exact absurd rfl hpos
    · have hzero : ((M.cache.at' x.1).placed x.2.1).shift = 0 := by
        rw [Cell.placed]
        dsimp only
        split
        · exact no_shift hk hflag hstream
        · rfl
      rw [hsame, hshift, hzero, Int.sub_zero]
      rfl
  · have hout : ∀ x ∈ rowsOf r u keys, x.1 ≠ y := fun x hx he => hin (he ▸ (List.of_mem_zip hx).1)
    rw [writeRows_other hout, writeRows_other hout, ← hrow]
    rcases applyUbatch_other h hin with hvac | ⟨hsame, hshift, _⟩
    · rw [hvac] at hpos
      exact absurd rfl hpos
    · rw [hsame, hshift]
      exact hM y hstream hy (hsame ▸ hpos)

end Overwriting

/-! ### Reading -/

section Reading

theorem coe_filterMap_range (f : Nat → Option γ) (n : Nat) :
    (((List.range n).filterMap f : List γ) : Multiset γ) =
      ∑ j ∈ Finset.range n, ((f j).toList : Multiset γ) := by
  induction n with
  | zero => rfl
  | succ n ih =>
    rw [List.range_succ, List.filterMap_append, ← Multiset.coe_add, ih, Finset.sum_range_succ]
    congr 1

/-- What is read of entries: the bias and the row of each that the token sees. -/
def readHom (p : Params) (rope : Rope α β) (causal useAlibi : Bool) (p₁ : Int) :
    Multiset (Int × β) →+ Multiset (Int × α) where
  toFun E := (E.filter fun e => Sees p causal p₁ e.1).map fun e =>
    (kqBias useAlibi p₁ e.1, rope.rot e.1 e.2)
  map_zero' := rfl
  map_add' E E' := by rw [Multiset.filter_add, Multiset.map_add]

theorem readHom_apply (E : Multiset (Int × β)) : readHom p rope causal useAlibi p₁ E =
    (E.filter fun e => Sees p causal p₁ e.1).map fun e =>
      (kqBias useAlibi p₁ e.1, rope.rot e.1 e.2) := rfl

theorem getNKv_eq (p : Params) (k : Cache) (r : SlotInfo) :
    k.getNKv p r = r.rows.foldl (fun n x =>
      max n (min (k.cells x.1).size (max p.nPad (padTo p.nPad (k.cells x.1).usedMaxP1)))) 0 := by
  rw [getNKv]
  simp only [max_comm]

theorem getNKv_le (hk : Fits n k) (p : Params) (r : SlotInfo) : k.getNKv p r ≤ n := by
  rw [getNKv_eq]
  obtain ⟨_, _, h | ⟨x, _, h⟩⟩ := foldl_max_spec r.rows 0
  · exact h.le.trans (Nat.zero_le n)
  · exact h.le.trans ((min_le_left _ _).trans (hk.size x.1).le)

theorem kqMask_closed {c : Cells} (h : s ∉ (c.cell j).seq) :
    kqMask p causal useAlibi c s p₁ j = none := by
  rw [kqMask]
  split
  · rfl
  · rw [Cell.seqHas, decide_eq_false h]
    rfl

theorem kqMask_open {c : Cells} (hs : s ∈ (c.cell j).seq) (hpos : (c.cell j).pos ≠ -1) :
    kqMask p causal useAlibi c s p₁ j = if Sees p causal p₁ (c.cell j).pos then
      some (kqBias useAlibi p₁ (c.cell j).pos) else none := by
  rw [kqMask, if_neg fun h => hpos (Cell.isEmpty_eq.1 h), Cell.seqHas, decide_eq_true hs]
  simp only [Bool.not_true, Bool.false_eq_true, if_false, Bool.and_eq_true, decide_eq_true_eq]
  split
  · case isTrue hlater =>
    rw [if_neg fun hsees : Sees _ _ _ _ => not_lt.2 (hsees.1 hlater.1) hlater.2]
  · case isFalse hearlier =>
    split
    · case isTrue hmask => rw [if_neg fun hsees : Sees _ _ _ _ => hsees.2 hmask]
    · case isFalse hmask =>
      rw [if_pos ⟨fun hcausal => not_lt.1 fun hlt => hearlier ⟨hcausal, hlt⟩, hmask⟩]

/-- Of the cells of a stream, one that the views leave out is empty. -/
theorem empty_of_getNKv (hb : Booked p n k) (hpad : 0 < p.nPad) (ht : t < p.nStream)
    (hrow : t ∈ r.rows.map Prod.fst) (hj : j < n) (hle : k.getNKv p r ≤ j) :
    (k.at' (t, j)).pos = -1 := by
  obtain ⟨x, hx, rfl⟩ := List.mem_map.1 hrow
  rw [getNKv_eq] at hle
  have hge := ((foldl_max_spec _ 0).2.1 x hx).trans hle
  have hpadded := le_padTo hpad (k.cells x.1).usedMaxP1
  have hlast : (k.cells x.1).usedMaxP1 ≤ j := by
    rw [hb.fits.size] at hge
    omega
  have hunused : j ∉ (k.cells x.1).used := by
    intro hin
    have hsucc := (Finset.le_sup (f := Nat.succ) hin).trans hlast
    omega
  rw [(hb.wellFormed _ ht).used, not_and, not_not] at hunused
  exact hunused ((hb.fits.size _).symm ▸ hj)

/-- With nothing pending, a token reads the entries of its sequence that it sees, no more and no
less. -/
theorem KvMemory.Filled.seen_eq (hM : M.Filled p n rope raw) (hb : Booked p n M.cache)
    (hk : M.cache.Tended p) (hzero : ∀ y, y.1 < p.nStream → (M.cache.at' y).shift = 0)
    (hcopies : M.cache.copies = []) (hpad : 0 < p.nPad) (hs : x.seqId.headD 0 < p.nSeqIds)
    (hview : r.Viewable u) (hrow : p.stream (x.seqId.headD 0) ∈ r.rows.map Prod.fst)
    (causal useAlibi : Bool) :
    (M.seen p causal useAlibi r (p.stream (x.seqId.headD 0)) x : Multiset (Int × α)) =
      readHom p rope causal useAlibi x.pos (M.cache.entries p raw (x.seqId.headD 0)) := by
  rw [seen, hview.viewed_eq hrow, coe_filterMap_range, entries, map_sum, hb.fits.size]
  generalize x.seqId.headD 0 = s at hs hrow ⊢
  have hcell : ∀ j < n, (((kqMask p causal useAlibi (M.cache.cells (p.stream s)) s x.pos j).map
      fun bias => (bias, M.row (p.stream s, j))).toList : Multiset (Int × α)) =
        readHom p rope causal useAlibi x.pos
          ((M.cache.at' (p.stream s, j)).entry (raw (p.stream s, j)) s) := by
    intro j hj
    by_cases hin : s ∈ (M.cache.at' (p.stream s, j)).seq
    · have hnn := (hk.cells (p.stream s, j)).pos_nonneg hin
      have hpos : (M.cache.at' (p.stream s, j)).pos ≠ -1 := by omega
      have hrow : M.row (p.stream s, j) =
          rope.rot (M.cache.at' (p.stream s, j)).pos (raw (p.stream s, j)) := by
        have hfilled := hM _ (stream_lt hs) hj hpos
        rw [hzero _ (stream_lt hs), Int.sub_zero, settled, hcopies] at hfilled
        exact hfilled
      have hmask : kqMask p causal useAlibi (M.cache.cells (p.stream s)) s x.pos j =
          if Sees p causal x.pos (M.cache.at' (p.stream s, j)).pos then
            some (kqBias useAlibi x.pos (M.cache.at' (p.stream s, j)).pos) else none :=
        kqMask_open hin hpos
      rw [hmask, Cell.entry_of_mem hin, hrow, readHom_apply, Multiset.filter_singleton]
      by_cases hsees : Sees p causal x.pos (M.cache.at' (p.stream s, j)).pos
      · rw [if_pos hsees, if_pos hsees]
        rfl
      · rw [if_neg hsees, if_neg hsees]
        rfl
    · rw [kqMask_closed hin, Cell.entry_of_notMem hin, map_zero]
      rfl
  rw [← Finset.sum_congr rfl fun j hj => hcell j (Finset.mem_range.1 hj)]
  refine Finset.sum_subset (Finset.range_subset_range.2 (getNKv_le hb.fits p r)) fun j hj hout => ?_
  have hempty := empty_of_getNKv hb hpad (stream_lt hs) hrow (Finset.mem_range.1 hj)
    (not_lt.1 fun hlt => hout (Finset.mem_range.2 hlt))
  have hno : s ∉ (M.cache.at' (p.stream s, j)).seq := by
    rw [(hb.sound.bare _ hempty).1]
    exact Finset.notMem_empty s
  rw [kqMask_closed hno]
  rfl

end Reading

/-- A decode: the memory shows the new log, and each token reads of it what it sees. -/
theorem KvMemory.Shows.decode {keys : List β} (hM : M.Shows p n rope L)
    (hc : (KvCall.decode r u keys).Allowed p M L) :
    ∃ k, M.cache.applyUbatch p r u = some k ∧
      Shows p n rope (M.store rope k r u keys) ((KvCall.decode r u keys).record p L) ∧
      (0 < p.nPad → ∀ x ∈ r.places.zip u.tokens, ∀ causal useAlibi : Bool,
        ((M.store rope k r u keys).seen p causal useAlibi r x.1.1 x.2 : Multiset (Int × α)) =
          readHom p rope causal useAlibi x.2.pos
            ((KvCall.decode r u keys).record p L (x.2.seqId.headD 0))) := by
  obtain ⟨hbooked, htended, raw, hfilled, hkeeps⟩ := hM
  obtain ⟨hkeys, hslot, hview, haligned, htokens, hbefore, hflag, hcopies⟩ := hc
  have hr := hslot.fillable fun x hx => (htokens x hx).1.valid
  obtain ⟨k, h, hk⟩ := hbooked.applyUbatch hr (fun x hx => (htokens x hx).1)
    fun x hx => ⟨(htokens x hx).2.2.1, (htokens x hx).2.1⟩
  obtain ⟨htended', hsame⟩ := htended.applyUbatch hr
    (fun x hx => ⟨(htokens x hx).1.ne, (htokens x hx).2.2⟩) haligned h
  rw [hcopies] at hsame
  have hfilled' := hfilled.stored hbooked htended hr hkeys hflag hcopies h hsame
  have hkept (s : Nat) (hs : s < p.nSeqIds) := keeps_applyUbatch hbooked htended
    hslot hr hkeys haligned hbefore h hs (hkeeps s hs)
  refine ⟨k, h, ⟨hk, htended', _, hfilled', ?_⟩, ?_⟩
  · intro s hs
    exact (hkept s hs).settle (.inr fun q hq => (before_add.1 hq).1)
  · intro hpad x hx causal useAlibi
    obtain ⟨hplace, htok⟩ := mem_of_zip hx
    obtain ⟨haccepted, _⟩ := htokens x.2 htok
    have hhead : x.2.seqId.headD 0 ∈ x.2.seqId := by
      cases hseq : x.2.seqId with
      | nil => exact absurd hseq haccepted.ne
      | cons s rest => exact List.mem_cons_self
    have hs := haccepted.valid _ hhead
    have hstream := haligned x hx _ hhead
    have hrow : p.stream (x.2.seqId.headD 0) ∈ r.rows.map Prod.fst := by
      obtain ⟨y, hy, he, _⟩ := mem_places.1 hplace
      exact List.mem_map.2 ⟨y, hy, he.trans hstream.symm⟩
    have hzero : ∀ y, y.1 < p.nStream → (k.at' y).shift = 0 := fun y hy =>
      applyUbatch_shift hbooked.sound hr h (.inr (no_shift htended hflag hy))
    have hseen := hfilled'.seen_eq (x := x.2) (r := r) hk htended' hzero hsame hpad hs hview
      hrow causal useAlibi
    rw [hstream] at hseen
    rw [hseen, readHom_apply, readHom_apply]
    refine congrArg (Multiset.map _) ?_
    by_cases hswa : p.swaType = .none
    · exact congrArg _ ((hkept _ hs).all (p.not_masked hswa))
    · exact (hkept _ hs).seen (hbefore hswa x.2 htok _ hhead) _ fun _ hsees => hsees.2

theorem KvCall.shows (hM : M.Shows p n rope L) {c : KvCall β} (hc : c.Allowed p M L) :
    ∃ M', c.run p rope M = some M' ∧ M'.Shows p n rope (c.record p L) := by
  cases c with
  | clear => exact ⟨_, rfl, hM.clear⟩
  | rm s p₀ p₁ =>
    obtain ⟨k, h, hM'⟩ := hM.rm hc.1 hc.2
    exact ⟨_, by rw [run, h]; rfl, hM'⟩
  | keep s =>
    obtain ⟨k, h, hM'⟩ := hM.keep hc
    exact ⟨_, by rw [run, h]; rfl, hM'⟩
  | cp src dst p₀ p₁ =>
    obtain ⟨hsrc, hdst, hfull, hno, hends⟩ := hc
    by_cases ht : p.stream src.toNat = p.stream dst.toNat
    · obtain ⟨k, h, hM'⟩ := hM.cp_same hsrc hdst ht hno fun hswa hne => hends hswa ht hne
      exact ⟨_, by rw [run, h]; rfl, hM'⟩
    · obtain ⟨k, h, hM'⟩ := hM.cp_cross hsrc hdst ht (hfull ht)
      exact ⟨_, by rw [run, h]; rfl, hM'⟩
  | add s p₀ p₁ d =>
    obtain ⟨k, h, hM'⟩ := hM.add hc.1 hc.2.1 hc.2.2
    exact ⟨_, by rw [run, h]; rfl, hM'⟩
  | update => exact ⟨_, rfl, hM.update⟩
  | decode r u keys =>
    obtain ⟨k, h, hM', _⟩ := hM.decode hc
    exact ⟨_, by rw [run, h]; rfl, hM'⟩

/-- Every memory that calls lead to shows its log. -/
theorem Recorded.shows [Inhabited β] (h : Recorded p n rope M L) : M.Shows p n rope L := by
  induction h with
  | create row =>
    refine ⟨.create p n, .create n, fun _ => default, ?_, ?_⟩
    · exact fun _ _ _ hpos => absurd rfl hpos
    · intro s _
      have hnone : entries p (Cache.create n) (fun _ => (default : β)) s = 0 :=
        Finset.sum_eq_zero fun _ _ => Cell.entry_of_notMem (Finset.notMem_empty s)
      rw [hnone]
      exact .refl _ 0 0
  | step _ hc hrun ih =>
    obtain ⟨M', hrun', hM'⟩ := KvCall.shows ih hc
    rw [hrun] at hrun'
    exact Option.some.inj hrun' ▸ hM'

/-- Whatever was done to the memory, a call that is made as it should be returns and leaves no cell
that `is_empty` refuses, and each token that is decoded reads what its sequence was given, turned to
the positions of now: all that it sees by the positions, each entry once, and nothing else. -/
theorem Recorded.decode_reads [Inhabited β] {p : Params} {rope : Rope α β} {M : KvMemory α}
    {L : Log β}
    (hpad : 0 < p.nPad) (h : Recorded p n rope M L) {c : KvCall β} (hc : c.Allowed p M L) :
    ∃ M', c.run p rope M = some M' ∧ M'.cache.Regular ∧ ∀ r u keys, c = .decode r u keys →
      ∀ x ∈ r.places.zip u.tokens, ∀ causal useAlibi : Bool,
        (M'.seen p causal useAlibi r x.1.1 x.2 : Multiset (Int × α)) =
          ((c.record p L (x.2.seqId.headD 0)).filter fun e => Sees p causal x.2.pos e.1).map
            fun e => (kqBias useAlibi x.2.pos e.1, rope.rot e.1 e.2) := by
  obtain ⟨M', hrun, hM'⟩ := KvCall.shows h.shows hc
  refine ⟨M', hrun, hM'.booked.regular, ?_⟩
  rintro r u keys rfl x hx causal useAlibi
  obtain ⟨k, happly, _, hreads⟩ := h.shows.decode hc
  rw [KvCall.run, happly] at hrun
  cases hrun
  exact hreads hpad x hx causal useAlibi

end Steps

/-- Rows that are a phase, which the position turns. -/
def phase : Rope Int Int where
  rot pos b := b + pos
  turn d a := a + d
  turn_rot _ _ _ := Int.add_assoc _ _ _

/-- A token of a sequence at a position. -/
def tokenOf (s : Nat) (pos : Int) : Ubatch := ⟨false, 1, [⟨pos, [s], true⟩]⟩

def decodeAt (i s : Nat) (pos key : Int) : KvCall Int :=
  .decode ⟨[(0, [i])]⟩ (tokenOf s pos) [key]

theorem decodeAt_allowed {M : KvMemory Int} {L : Log Int} {s : Nat}
    (hs : s < Cache.oneStream.nSeqIds) (hpos : 0 ≤ pos ∧ pos ≤ posMax)
    (hfound : Cache.findSlot Cache.oneStream M.cache (tokenOf s pos) true =
      some (some ⟨[(0, [i])]⟩))
    (hflag : M.cache.getHasShift Cache.oneStream = false) (hcopies : M.cache.copies = []) :
    (decodeAt i s pos key).Allowed Cache.oneStream M L := by
  refine ⟨rfl, Cache.findSlot_spec (List.cons_ne_nil _ _) hfound, ⟨rfl, ?_⟩, ?_, ?_,
    fun hswa => absurd rfl hswa, hflag, hcopies⟩
  · intro x hx
    rw [List.mem_singleton.1 hx]
    rfl
  · intro x hx q _
    rw [List.mem_singleton.1 hx]
    rfl
  · intro x hx
    rw [List.mem_singleton.1 hx]
    refine ⟨⟨List.cons_ne_nil _ _, fun q hq => ?_⟩, List.nodup_singleton s, hpos⟩
    rw [List.mem_singleton.1 hq]
    exact hs

/-- The cells of a cache of one stream. -/
def Cache.firstCells (k : Cache) : List Cell := (List.range (k.cells 0).size).map (k.cells 0).cell

theorem Cache.mem_firstCells {k : Cache} (hi : i < (k.cells 0).size) :
    (k.cells 0).cell i ∈ k.firstCells :=
  List.mem_map_of_mem (List.mem_range.2 hi)

/-- The caches after a token of the first sequence, after its shift by one, and, the shift made,
after its copy to the second sequence. -/
def sharedCaches : Option (Cache × Cache × Cache) := do
  let k ← (Cache.create 2).applyUbatch Cache.oneStream ⟨[(0, [0])]⟩ (tokenOf 0 0)
  let k' ← k.seqAdd Cache.oneStream 0 (-1) (-1) 1
  let k'' ← (k'.update Cache.oneStream true).seqCp Cache.oneStream 0 1 (-1) (-1)
  return (k, k', k'')

/-- The next token of the second sequence reads the shared cell, turned to its new position, and
itself. -/
theorem decode_reads_shared : ∃ M L M', Recorded Cache.oneStream 2 phase M L ∧
    (decodeAt 1 1 2 20).run Cache.oneStream phase M = some M' ∧
      (M'.seen Cache.oneStream true false ⟨[(0, [1])]⟩ 0 ⟨2, [1], true⟩ : Multiset (Int × Int)) =
        {(0, 11), (0, 22)} := by
  have hruns : sharedCaches.isSome = true := by decide +kernel
  obtain ⟨⟨_, _, _⟩, hrun⟩ := Option.isSome_iff_exists.1 hruns
  have hcells : sharedCaches.map (fun x =>
      (x.1.firstCells, (x.2.1.update Cache.oneStream true).firstCells)) =
      some ([⟨0, 0, {0}⟩, Cell.vacant], [⟨1, 0, {0}⟩, Cell.vacant]) := by decide +kernel
  have hslot : sharedCaches.map (fun x =>
      Cache.findSlot Cache.oneStream x.2.2 (tokenOf 1 2) true) =
      some (some (some ⟨[(0, [1])]⟩)) := by decide +kernel
  have hflags : sharedCaches.map (fun x => (x.2.1.getHasShift Cache.oneStream,
      x.2.2.getHasShift Cache.oneStream, x.2.2.copies)) = some (true, false, []) := by
    decide +kernel
  rw [hrun] at hcells hslot hflags
  simp only [Option.map_some, Option.some.injEq, Prod.mk.injEq] at hcells hslot hflags
  obtain ⟨hk, hk'⟩ := hcells
  obtain ⟨hshift, hflag, hcopies⟩ := hflags
  simp only [sharedCaches, Option.bind_eq_bind, Option.bind_eq_some_iff, Option.pure_def,
    Option.some.injEq, Prod.mk.injEq] at hrun
  obtain ⟨k, hplace, k', hadd, k'', hcp, rfl, rfl, rfl⟩ := hrun
  have hfirst : (decodeAt 0 0 0 10).Allowed Cache.oneStream
      (⟨Cache.create 2, fun _ => 0⟩ : KvMemory Int) fun _ => 0 :=
    decodeAt_allowed (by decide) (by decide) (by decide +kernel) rfl rfl
  have hcreate : Recorded Cache.oneStream 2 phase ⟨Cache.create 2, fun _ => 0⟩ fun _ => 0 :=
    .create _
  have h₁ := hcreate.step hfirst (by rw [decodeAt, KvCall.run, hplace]; rfl)
  have hmove : ∀ x, Cache.Touched Cache.oneStream k 0 (-1) (-1) x →
      Cells.CanMove x 1 ∧ x.seq = {0} := by
    rintro x ⟨i, hi, rfl, hin⟩
    have hmem := Cache.mem_firstCells hi
    rw [hk, List.mem_pair] at hmem
    rcases hmem with he | he
    · change Cells.CanMove ((k.cells 0).cell i) 1 ∧ ((k.cells 0).cell i).seq = {0}
      rw [he]
      exact ⟨⟨rfl, rfl⟩, rfl⟩
    · exact absurd (he ▸ hin : (Cell.vacant.posIn _ _ && Cell.vacant.seqHas _) = true) (by decide)
  have h₂ := h₁.step (c := .add 0 (-1) (-1) 1) ⟨by decide, rfl, hmove⟩
    (by rw [KvCall.run]; exact congrArg (Option.map _) hadd)
  have h₃ := h₂.step (c := .update) trivial rfl
  have hno : Cache.Unshared Cache.oneStream (k'.update Cache.oneStream true) 0 1 (-1) (-1) := by
    intro _ _ i hi _
    have hmem := Cache.mem_firstCells hi
    rw [hk', List.mem_pair] at hmem
    rcases hmem with he | he
    · exact (congrArg (1 ∉ ·.seq) he).mpr (by decide)
    · exact (congrArg (1 ∉ ·.seq) he).mpr (by decide)
  have h₄ := h₃.step (c := .cp 0 1 (-1) (-1))
    ⟨by decide, by decide, fun hne => absurd rfl hne, by
      rw [KvMemory.update, hshift]; exact hno, fun hswa => absurd rfl hswa⟩
    (by rw [KvCall.run, KvMemory.update, hshift]; exact congrArg (Option.map _) hcp)
  obtain ⟨M', hdecode, _, hreads⟩ := h₄.decode_reads Nat.one_pos (c := decodeAt 1 1 2 20)
    (decodeAt_allowed (by decide) (by decide) hslot hflag hcopies)
  have hreads := hreads _ _ _ rfl ((0, 1), ⟨2, [1], true⟩) (List.mem_singleton.2 rfl) true false
  exact ⟨_, _, M', h₄, hdecode, hreads.trans (by decide +kernel)⟩

end ActQuant.KvCache
