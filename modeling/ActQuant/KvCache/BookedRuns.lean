import ActQuant.KvCache.StateBooked
import ActQuant.KvCache.TrialReplay

namespace ActQuant.KvCache
open ActQuant.Lib ActQuant.Batch Cache Store

/-! The bookkeeping over whole runs of the operations. -/

/-- A cache with the ubatches that were prepared, each with its slot, and are to come. -/
structure Running where
  cache : Cache
  pending : List (SlotInfo × Ubatch)

/-- The public operations. The tensors are read together with the state that is read back. -/
inductive CacheOp where
  | clear
  | seqRm (s p₀ p₁ : Int)
  | seqCp (src dst p₀ p₁ : Int)
  | seqKeep (s : Int)
  | seqAdd (s p₀ p₁ d : Int)
  | seqDiv (s p₀ p₁ d : Int)
  | update (doShift : Bool)
  | prepare (us : List Ubatch)
  | applyUbatch
  | stateRead (s : Int) (kBuf vBuf : Nat × Nat → Buffer) (bs : List UInt8)

/-- The cells behind a reading, which an exception leaves as well. -/
def Store.Outcome.cells : Store.Outcome → Option Cache
  | .done st _ => some st.cache
  | .threw k => some k
  | .fault => none

namespace CacheOp

/-- No result where an assertion fails. The slots that `prepare` finds are for the ubatches that
are applied next. -/
def run (cfg : Config) (R : Running) : CacheOp → Option Running
  | clear => some ⟨R.cache.clear cfg.params, []⟩
  | seqRm s p₀ p₁ => (R.cache.seqRm cfg.params s p₀ p₁).map fun k => ⟨k, []⟩
  | seqCp src dst p₀ p₁ => (R.cache.seqCp cfg.params src dst p₀ p₁).map fun k => ⟨k, []⟩
  | seqKeep s => (R.cache.seqKeep cfg.params s).map fun k => ⟨k, []⟩
  | seqAdd s p₀ p₁ d => (R.cache.seqAdd cfg.params s p₀ p₁ d).map fun k => ⟨k, []⟩
  | seqDiv s p₀ p₁ d => (R.cache.seqDiv cfg.params s p₀ p₁ d).map fun k => ⟨k, []⟩
  | update doShift => some ⟨R.cache.update cfg.params doShift, []⟩
  | prepare us => (R.cache.prepare cfg.params us).map fun x => ⟨x.1, x.2.zip us⟩
  | applyUbatch =>
    match R.pending with
    | [] => none
    | (r, u) :: rest => (R.cache.applyUbatch cfg.params r u).map fun k => ⟨k, rest⟩
  | stateRead s kBuf vBuf bs =>
    (Store.stateRead cfg s ⟨R.cache, kBuf, vBuf⟩ bs).cells.map fun k => ⟨k, []⟩

/-- What the callers see to: the sequences are those of the cache, between streams all is copied,
a division is by more than one, and the ubatches are those of a batch that `init` accepted. -/
def Called (cfg : Config) (R : Running) : CacheOp → Prop
  | clear => True
  | seqRm s _ _ => s = -1 ∨ validSeq cfg.params s
  | seqCp src dst p₀ p₁ => validSeq cfg.params src ∧ validSeq cfg.params dst ∧
    (cfg.params.stream src.toNat ≠ cfg.params.stream dst.toNat →
      isFull (R.cache.cells (cfg.params.stream 0)).size p₀ p₁)
  | seqKeep s => validSeq cfg.params s
  | seqAdd s _ _ _ => validSeq cfg.params s
  | seqDiv s _ _ d => validSeq cfg.params s ∧ 1 < d
  | update _ => True
  | prepare us => us ≠ [] ∧
    ∀ u ∈ us, Servable cfg.params u ∧ ∀ x ∈ u.tokens, Accepted cfg.params x
  | applyUbatch => R.pending ≠ []
  | stateRead s _ _ _ => s = -1 ∨ validSeq cfg.params s

/-- What nobody sees to: a copy within a stream meets no cell that has both sequences, and one
between streams no cell whose shift is not undone; each cell in use has a sequence where all but
one are dropped; no sum overflows; no cell with a pending shift is taken for a token; the tokens
and the cells of a state have a position and name no sequence twice. -/
def Clean (cfg : Config) (R : Running) : CacheOp → Prop
  | clear => True
  | seqRm _ _ _ => True
  | seqCp src dst p₀ p₁ => Unshared cfg.params R.cache src dst p₀ p₁ ∧
    Unshifted cfg.params R.cache src dst
  | seqKeep s => AllOwned cfg.params R.cache s
  | seqAdd s p₀ p₁ d => ∀ x, Touched cfg.params R.cache s p₀ p₁ x → Cells.CanMove x d
  | seqDiv s p₀ p₁ d => ∀ x, Touched cfg.params R.cache s p₀ p₁ x → CanDivide x d
  | update _ => True
  | prepare us => (cfg.params.swaType = .none ∨ ∀ y, (R.cache.at' y).shift = 0) ∧
    ∀ u ∈ us, ∀ x ∈ u.tokens, Storable x
  | applyUbatch => ∀ x ∈ R.pending.head?, ∀ tok ∈ x.2.tokens, Storable tok
  | stateRead s _ _ bs => StateLegal cfg s bs ∧ (0 ≤ s → Topless cfg.params s.toNat R.cache)

end CacheOp

/-- The states that operations lead to from an empty cache. -/
inductive Run (cfg : Config) (n : Nat) (A : Running → CacheOp → Prop) : Running → Prop where
  | create : Run cfg n A ⟨create n, []⟩
  | step : Run cfg n A R → A R op → op.run cfg R = some R' → Run cfg n A R'

/-- The positions that a sequence has in the cells of its stream. -/
def positionsOf (p : Params) (k : Cache) (s : Nat) : Set Int :=
  {q | ∃ f ∈ facts p k, f.seq = s ∧ f.pos = q}

/-- The used cells, the counters and the extreme positions are those of the cells. -/
structure Agrees (p : Params) (k : Cache) : Prop where
  wellFormed : WellFormed p k
  least : ∀ s < p.nSeqIds,
    positionsOf p k s = ∅ ∧ k.seqPosMin p s = -1 ∨ IsLeast (positionsOf p k s) (k.seqPosMin p s)
  greatest : ∀ s < p.nSeqIds,
    positionsOf p k s = ∅ ∧ k.seqPosMax p s = -1 ∨
      IsGreatest (positionsOf p k s) (k.seqPosMax p s)

section Agreement
variable {p : Params} {k : Cache} {s : Nat}

theorem mem_positionsOf (hs : s < p.nSeqIds) :
    q ∈ positionsOf p k s ↔ 0 < (k.cells (p.stream s)).held s q := by
  rw [Cells.held_pos]
  constructor
  · rintro ⟨f, ⟨_, hi, hholds⟩, rfl, rfl⟩
    exact ⟨f.cell, hi, hholds⟩
  · rintro ⟨i, hi, hholds⟩
    exact ⟨⟨s, q, i⟩, ⟨hs, hi, hholds⟩, rfl, rfl⟩

theorem positionsOf_empty (hs : s < p.nSeqIds)
    (h : ∀ i < (k.cells (p.stream s)).size, s ∉ ((k.cells (p.stream s)).cell i).seq) :
    positionsOf p k s = ∅ := by
  apply Set.eq_empty_of_forall_notMem
  intro q hq
  obtain ⟨i, hi, hin, _⟩ := Cells.held_pos.1 ((mem_positionsOf hs).1 hq)
  exact h i hi hin

theorem Cache.WellFormed.agrees (hk : WellFormed p k) : Agrees p k := by
  refine ⟨hk, fun s hs => ?_, fun s hs => ?_⟩
  · have hc := hk _ (stream_lt hs)
    by_cases hnone : k.seqPosMin p s = -1
    · exact .inl ⟨positionsOf_empty hs (hc.seqPosMin_none.1 hnone), hnone⟩
    · obtain ⟨hheld, hle⟩ := hc.seqPosMin_eq hnone
      exact .inr ⟨(mem_positionsOf hs).2 hheld, fun q hq => hle q ((mem_positionsOf hs).1 hq)⟩
  · have hc := hk _ (stream_lt hs)
    by_cases hnone : k.seqPosMax p s = -1
    · exact .inl ⟨positionsOf_empty hs (hc.seqPosMax_none.1 hnone), hnone⟩
    · obtain ⟨hheld, hle⟩ := hc.seqPosMax_eq hnone
      exact .inr ⟨(mem_positionsOf hs).2 hheld, fun q hq => hle q ((mem_positionsOf hs).1 hq)⟩

end Agreement

section Runs
variable {cfg : Config} {n : Nat} {R R' : Running} {op : CacheOp}

/-- The bookkeeping, with slots that can be filled. -/
structure Consistent (cfg : Config) (n : Nat) (R : Running) : Prop where
  booked : Booked cfg.params n R.cache
  inTurn : InTurn cfg.params R.cache R.pending

theorem Consistent.of_cache {o : Option Cache}
    (h : ∃ k, o = some k ∧ Booked cfg.params n k) :
    ∃ R', (o.map fun k => (⟨k, []⟩ : Running)) = some R' ∧ Consistent cfg n R' := by
  obtain ⟨k, rfl, hk⟩ := h
  exact ⟨⟨k, []⟩, rfl, hk, trivial⟩

theorem Consistent.prepare {us : List Ubatch} (hR : Consistent cfg n R)
    (hcall : (CacheOp.prepare us).Called cfg R) (hclean : (CacheOp.prepare us).Clean cfg R) :
    ∃ R', (CacheOp.prepare us).run cfg R = some R' ∧ Consistent cfg n R' := by
  obtain ⟨hne, hserved⟩ := hcall
  obtain ⟨hshift, hstore⟩ := hclean
  obtain ⟨⟨k, slots⟩, h, hk⟩ := hR.booked.prepare ⟨hne, hserved, hshift⟩ hstore
  refine ⟨⟨k, slots.zip us⟩, ?_, hk, ?_⟩
  · rw [CacheOp.run, h]
    rfl
  · exact prepare_inTurn hR.booked.sound (fun u hu => (hserved u hu).2) h

theorem Consistent.applyUbatch (hR : Consistent cfg n R) (hcall : CacheOp.applyUbatch.Called cfg R)
    (hclean : CacheOp.applyUbatch.Clean cfg R) :
    ∃ R', CacheOp.applyUbatch.run cfg R = some R' ∧ Consistent cfg n R' := by
  obtain ⟨k, pending⟩ := R
  cases pending with
  | nil => exact absurd rfl hcall
  | cons x rest =>
    obtain ⟨hk, hfill, hacc, hrest⟩ := hR
    obtain ⟨k', h, hk'⟩ := hk.applyUbatch hfill hacc (hclean x rfl)
    refine ⟨⟨k', rest⟩, ?_, hk', hrest k' h⟩
    dsimp only at h
    simp only [CacheOp.run, h]
    rfl

theorem Store.Outcome.Booked.cells {p : Params} {o : Store.Outcome} (h : o.Booked p n) :
    ∃ k, o.cells = some k ∧ Cache.Booked p n k := by
  cases o with
  | done st rest => exact ⟨st.cache, rfl, h⟩
  | threw k => exact ⟨k, rfl, h⟩
  | fault => exact h.elim

/-- One operation. -/
theorem Consistent.step (hR : Consistent cfg n R) (hcall : op.Called cfg R)
    (hclean : op.Clean cfg R) : ∃ R', op.run cfg R = some R' ∧ Consistent cfg n R' := by
  have hk := hR.booked
  cases op with
  | clear => exact ⟨_, rfl, hk.clear, trivial⟩
  | update doShift => exact ⟨_, rfl, hk.update doShift, trivial⟩
  | seqRm s p₀ p₁ => exact Consistent.of_cache (hk.seqRm hcall p₀ p₁)
  | seqKeep s => exact Consistent.of_cache (hk.seqKeep hcall hclean)
  | seqCp src dst p₀ p₁ =>
    obtain ⟨hsrc, hdst, hfull⟩ := hcall
    exact Consistent.of_cache (hk.seqCp hsrc hdst hfull hclean.1 hclean.2)
  | seqAdd s p₀ p₁ d => exact Consistent.of_cache (hk.seqAdd hcall hclean)
  | seqDiv s p₀ p₁ d => exact Consistent.of_cache (hk.seqDiv hcall.1 hcall.2 hclean)
  | prepare us => exact hR.prepare hcall hclean
  | applyUbatch => exact hR.applyUbatch hcall hclean
  | stateRead s kBuf vBuf bs =>
    have hread : (Store.stateRead cfg s ⟨R.cache, kBuf, vBuf⟩ bs).Booked cfg.params n :=
      stateRead_booked hcall hk hclean.2 hclean.1
    exact Consistent.of_cache hread.cells

theorem Run.kept (h : Run cfg n (fun R op => op.Called cfg R ∧ op.Clean cfg R) R) :
    Consistent cfg n R := by
  induction h with
  | create => exact ⟨.create cfg.params n, trivial⟩
  | step _ hop hrun ih =>
    obtain ⟨R', hrun', hR'⟩ := ih.step hop.1 hop.2
    rw [hrun] at hrun'
    cases hrun'
    exact hR'

/-- In every run whose operations are clean the used cells, the counters and the extreme positions
are those of the cells, and the next clean operation violates no assertion. -/
theorem Run.counts_exact (h : Run cfg n (fun R op => op.Called cfg R ∧ op.Clean cfg R) R) :
    Agrees cfg.params R.cache ∧
      ∀ op : CacheOp, op.Called cfg R → op.Clean cfg R → ∃ R', op.run cfg R = some R' := by
  refine ⟨h.kept.booked.wellFormed.agrees, fun op hcall hclean => ?_⟩
  obtain ⟨R', hrun, _⟩ := h.kept.step hcall hclean
  exact ⟨R', hrun⟩

end Runs

/-- In a cache of a single stream `find_slot` asks for tokens with sequences only. -/
theorem Cache.Servable.of_one {p : Params} {u : Ubatch} (hp : p.nStream = 1)
    (htokens : u.tokens ≠ []) (hseqs : u.seqIdUnq ≠ []) : Servable p u :=
  ⟨htokens, hseqs, fun h => absurd h (by omega), fun h => absurd h (by omega)⟩

theorem CacheOp.prepare_called {u : Ubatch} (htokens : u.tokens ≠ []) (hseqs : u.seqIdUnq ≠ [])
    (h : ∀ x ∈ u.tokens, x.seqId ≠ [] ∧ ∀ s ∈ x.seqId, s < oneStream.nSeqIds) :
    (CacheOp.prepare [u]).Called oneLayer R := by
  refine ⟨List.cons_ne_nil _ _, fun v hv => ?_⟩
  rw [List.mem_singleton.1 hv]
  exact ⟨.of_one rfl htokens hseqs, fun x hx => ⟨(h x hx).1, (h x hx).2⟩⟩

theorem twoTokens_storable : ∀ x ∈ twoTokens.tokens, Storable x := by
  have hall : ∀ x ∈ twoTokens.tokens, 0 ≤ x.pos ∧ x.seqId.Nodup := by decide
  exact fun x hx => ⟨(hall x hx).1, (hall x hx).2⟩

set_option maxRecDepth 8000 in
/-- A token of each of two sequences is prepared and applied. -/
theorem Run.counts_exact_twoTokens : ∃ R : Running,
    Run oneLayer 2 (fun R op => op.Called oneLayer R ∧ op.Clean oneLayer R) R ∧
      R.cache.seqPosMax oneStream 1 = 0 ∧ Agrees oneStream R.cache ∧
      ∀ op : CacheOp, op.Called oneLayer R → op.Clean oneLayer R →
        ∃ R', op.run oneLayer R = some R' := by
  have hruns : (((CacheOp.prepare [twoTokens]).run oneLayer ⟨Cache.create 2, []⟩).bind fun R =>
      (CacheOp.applyUbatch.run oneLayer R).map fun R' =>
        (R.pending.map Prod.snd, R'.cache.seqPosMax oneStream 1)) = some ([twoTokens], 0) := by
    decide +kernel
  obtain ⟨R₁, h₁, h⟩ := Option.bind_eq_some_iff.1 hruns
  obtain ⟨R₂, h₂, h⟩ := Option.map_eq_some_iff.1 h
  rw [Prod.mk.injEq, List.map_eq_singleton_iff] at h
  obtain ⟨⟨x, hx, hxu⟩, hmax⟩ := h
  have hrun₁ : Run oneLayer 2 (fun R op => op.Called oneLayer R ∧ op.Clean oneLayer R) R₁ := by
    have hclean : (CacheOp.prepare [twoTokens]).Clean oneLayer ⟨Cache.create 2, []⟩ := by
      refine ⟨.inl rfl, fun u hu => ?_⟩
      rw [List.mem_singleton.1 hu]
      exact twoTokens_storable
    exact .step .create
      ⟨CacheOp.prepare_called (List.cons_ne_nil _ _) (by decide) (by decide), hclean⟩ h₁
  have hrun₂ : Run oneLayer 2 (fun R op => op.Called oneLayer R ∧ op.Clean oneLayer R) R₂ := by
    refine .step hrun₁ ⟨?_, ?_⟩ h₂
    · rw [CacheOp.Called, hx]
      exact List.cons_ne_nil _ _
    · rw [CacheOp.Clean, hx]
      rintro y hy tok htok
      cases hy
      rw [hxu] at htok
      exact twoTokens_storable tok htok
  obtain ⟨hagrees, hnext⟩ := Run.counts_exact hrun₂
  exact ⟨R₂, hrun₂, hmax, hagrees, hnext⟩

/-- A token that names a sequence twice. -/
def twiceToken : Ubatch := ⟨false, 1, [⟨0, [0, 0], true⟩]⟩

set_option maxRecDepth 8000 in
/-- A sequence is copied onto one that has its cell, and a token names a sequence twice. -/
theorem Run.stops : (∃ R : Running, Run oneLayer 2 (fun R op => op.Called oneLayer R) R ∧
    (CacheOp.seqCp 0 1 (-1) (-1)).Called oneLayer R ∧
      (CacheOp.seqCp 0 1 (-1) (-1)).run oneLayer R = none) ∧
    (CacheOp.prepare [twiceToken]).Called oneLayer ⟨Cache.create 2, []⟩ ∧
      (CacheOp.prepare [twiceToken]).run oneLayer ⟨Cache.create 2, []⟩ = none := by
  have hruns : (((CacheOp.prepare [sharedToken]).run oneLayer ⟨Cache.create 2, []⟩).bind fun R =>
      (CacheOp.applyUbatch.run oneLayer R).map fun R' => (R.pending.map Prod.snd,
        ((CacheOp.seqCp 0 1 (-1) (-1)).run oneLayer R').isNone)) =
      some ([sharedToken], true) := by decide +kernel
  have htwice :
      ((CacheOp.prepare [twiceToken]).run oneLayer ⟨Cache.create 2, []⟩).isNone = true := by
    decide +kernel
  obtain ⟨R₁, h₁, h⟩ := Option.bind_eq_some_iff.1 hruns
  obtain ⟨R₂, h₂, h⟩ := Option.map_eq_some_iff.1 h
  rw [Prod.mk.injEq, List.map_eq_singleton_iff] at h
  obtain ⟨⟨x, hx, _⟩, hnone⟩ := h
  have hrun₁ : Run oneLayer 2 (fun R op => op.Called oneLayer R) R₁ :=
    .step .create (CacheOp.prepare_called (List.cons_ne_nil _ _) (by decide) (by decide)) h₁
  refine ⟨⟨R₂, .step hrun₁ ?_ h₂, ⟨rfl, rfl, fun h => absurd rfl h⟩,
    Option.isNone_iff_eq_none.1 hnone⟩,
    CacheOp.prepare_called (List.cons_ne_nil _ _) (by decide) (by decide),
    Option.isNone_iff_eq_none.1 htwice⟩
  rw [CacheOp.Called, hx]
  exact List.cons_ne_nil _ _

end ActQuant.KvCache
