import ActQuant.Lib.Lists
import Mathlib.Algebra.Order.BigOperators.Group.List
import ActQuant.Grammar.Membership

namespace ActQuant.Grammar
open Lib

/-! Candidate rejection agrees with accepting the code points of each candidate. -/

/-- The code points from the pointer on. -/
def Candidate.rest (tok : Candidate) : List Nat := tok.codePoints.drop tok.offset

/-- The token ends with a complete code point, and holds none that ends it early. -/
structure Candidate.Complete (tok : Candidate) : Prop where
  nRemain : tok.partialUtf8.nRemain = 0
  nonzero : ∀ chr ∈ tok.rest, chr ≠ 0

def Candidate.next (tok : Candidate) : Candidate := { tok with offset := tok.offset + 1 }

def Candidate.back (tok : Candidate) : Candidate := { tok with offset := tok.offset - 1 }

theorem Candidate.rest_next (tok : Candidate) : tok.next.rest = tok.rest.tail := by
  rw [Candidate.rest, Candidate.rest, List.tail_drop]
  rfl

theorem Candidate.codePoint_eq (tok : Candidate) : tok.codePoint = tok.rest.headD 0 := by
  rw [Candidate.codePoint, Candidate.rest, List.headD_eq_head?_getD, List.head?_drop,
    List.getD_eq_getElem?_getD]

theorem Candidate.Complete.codePoint_zero {tok : Candidate} (h : tok.Complete) :
    tok.codePoint = 0 ↔ tok.rest = [] := by
  rw [tok.codePoint_eq]
  have hnonzero := h.nonzero
  cases hr : tok.rest with
  | nil => simp
  | cons chr chrs =>
    rw [hr] at hnonzero
    simpa using hnonzero chr (.head _)

theorem Candidate.Complete.next {tok : Candidate} (h : tok.Complete) : tok.next.Complete := by
  refine ⟨h.nRemain, ?_⟩
  rw [tok.rest_next]
  exact fun chr hchr => h.nonzero chr (List.mem_of_mem_tail hchr)

section Classify
open scoped Classical

/-- A candidate whose next code point is not in the class. -/
noncomputable def misses (es : List Element) (tok : Candidate) : Bool :=
  tok.rest ≠ [] ∧ ¬ InClass es tok.codePoint

noncomputable def hits (es : List Element) (tok : Candidate) : Bool :=
  tok.rest ≠ [] ∧ InClass es tok.codePoint

theorem sortCandidate_eq (hc : isClass (head es)) {tok : Candidate} (h : tok.Complete) :
    sortCandidate es (rejects, nextCandidates) tok = some
      (rejects ++ [tok].filter (misses es),
        nextCandidates ++ ([tok].filter (hits es)).map Candidate.next) := by
  rw [sortCandidate]
  by_cases hz : tok.codePoint = 0
  · have hr := h.codePoint_zero.1 hz
    simp [hz, h.nRemain, hits, misses, hr]
  · have hr := mt h.codePoint_zero.2 hz
    obtain ⟨found, hmatch, hfound⟩ := matchChar_eq hc tok.codePoint
    by_cases hin : InClass es tok.codePoint
    · have hf := hfound.2 hin
      simp [hz, hmatch, hits, misses, hr, hin, hf, Candidate.next]
    · have hf := Bool.eq_false_iff.2 (mt hfound.1 hin)
      simp [hz, hmatch, hits, misses, hr, hin, hf]

theorem sortCandidates_eq (hc : isClass (head es))
    (rejects nextCandidates candidates : List Candidate)
    (h : ∀ tok ∈ candidates, tok.Complete) :
    candidates.foldlM (sortCandidate es) (rejects, nextCandidates) = some
      (rejects ++ candidates.filter (misses es),
        nextCandidates ++ (candidates.filter (hits es)).map Candidate.next) := by
  induction candidates generalizing rejects nextCandidates with
  | nil => simp
  | cons tok candidates ih =>
    rw [List.foldlM_cons, sortCandidate_eq hc (h tok (.head _))]
    change candidates.foldlM (sortCandidate es) _ = _
    rw [ih _ _ fun tok htok => h tok (.tail _ htok)]
    rw [List.append_assoc, List.append_assoc, ← List.map_append, ← List.filter_append,
      ← List.filter_append]
    rfl

end Classify

namespace Rules
variable {G : Rules}

/-- No stack is left behind the code points. -/
def Dead (G : Rules) (stack : Stack) (chrs : List Nat) : Prop :=
  ∀ stack', ¬ G.MovesAll stack chrs stack'

theorem not_dead_nil : ¬ G.Dead stack [] := fun h => h stack rfl

theorem dead_empty : G.Dead [] (chr :: chrs) := by
  rintro stack' ⟨mid, hmid, -⟩
  cases hmid

/-- What is left behind a code point. -/
theorem dead_class (h : isClass (head (G.from p))) : G.Dead (p :: rest) (chr :: chrs) ↔
    (InClass (G.from p) chr → ∀ stack, G.Expands (G.afterChar p rest) stack →
      G.Dead stack chrs) := by
  constructor
  · intro hd hin stack hexp stack' hall
    exact hd stack' ⟨stack, .char h hin hexp, hall⟩
  · rintro hd stack' ⟨mid, hmid, hall⟩
    cases hmid with
    | char _ hin hexp => exact hd hin mid hexp stack' hall

/-- A stack whose expansion ends expands to some stack. -/
theorem exists_expands (hs : G.ValidStack stack) (h : Cfg.Halts G.alts (G.symbolsOf stack)) :
    ∃ stack', G.Expands stack stack' := by
  generalize hss : G.symbolsOf stack = ss at h
  induction h generalizing stack with
  | intro ss _ ih =>
    subst hss
    cases stack with
    | nil => exact ⟨[], .empty⟩
    | cons p rest =>
      rcases hs p (.head _) with hc | href
      · exact ⟨_, .char hc⟩
      · obtain ⟨es, -, hid⟩ := from_ref href
        have hzero : 0 ∈ alternates (G.rule (head (G.from p)).value) := .head _
        have hexp : Cfg.Expand G.alts (G.symbolsOf (p :: rest))
            (G.symbolsOf (G.expandRef p rest 0)) := by
          rw [symbolsOf_ref href, symbolsOf_expandRef]
          exact .ref ((mem_alts_iff hid).2 ⟨0, hzero, rfl⟩)
        obtain ⟨stack', hstack'⟩ := ih _ hexp (hs.expandRef href hzero) rfl
        exact ⟨stack', .ref href hzero hstack'⟩

section Reject
open scoped Classical

theorem steady_rejectOver {forStack : Nat → List Candidate → Stack → Option (List Candidate)}
    (h : ∀ candidates stack, Steady fun fuel => forStack fuel candidates stack)
    (grammarStacks : Stacks) (candidates : List Candidate) :
    Steady fun fuel => rejectOver (forStack fuel) grammarStacks candidates := by
  cases grammarStacks with
  | nil => exact steady_const _
  | cons front others =>
    by_cases hnil : candidates = []
    · simp only [rejectOver, if_pos hnil]
      exact steady_const _
    · simp only [rejectOver, if_neg hnil]
      exact (h _ _).bind fun rejects => Steady.foldlM h _ _

/-- Rejecting over several stacks keeps the candidates each of them rejects. -/
theorem rejectOver_spec {forStack : Nat → List Candidate → Stack → Option (List Candidate)}
    {good : Candidate → Prop}
    (hsteady : ∀ candidates stack, Steady fun fuel => forStack fuel candidates stack)
    (h : ∀ stack ∈ grammarStacks, ∀ candidates, (∀ tok ∈ candidates, good tok) →
      ∃ rejects, Yields (fun fuel => forStack fuel candidates stack) rejects ∧
        rejects.Perm (candidates.filter fun tok => G.Dead stack tok.rest))
    (hne : grammarStacks ≠ []) (hgood : ∀ tok ∈ candidates, good tok) :
    ∃ rejects, Yields (fun fuel => rejectOver (forStack fuel) grammarStacks candidates) rejects ∧
      rejects.Perm (candidates.filter fun tok => ∀ stack ∈ grammarStacks, G.Dead stack tok.rest)
    := by
  have hfold : ∀ stacks' : Stacks, (∀ stack ∈ stacks', stack ∈ grammarStacks) → ∀ candidates,
      (∀ tok ∈ candidates, good tok) →
      ∃ rejects, Yields (fun fuel => stacks'.foldlM (forStack fuel) candidates) rejects ∧
        rejects.Perm (candidates.filter fun tok => ∀ stack ∈ stacks', G.Dead stack tok.rest) := by
    intro stacks'
    induction stacks' with
    | nil =>
      intro _ candidates _
      refine ⟨candidates, returns_foldlM_nil.2 rfl, ?_⟩
      simp
    | cons stack stacks' ih =>
      intro hsub candidates hgood
      obtain ⟨mid, hmid, hperm⟩ := h stack (hsub stack (.head _)) candidates hgood
      have hgood' : ∀ tok ∈ mid, good tok := by
        intro tok htok
        exact hgood tok (List.mem_of_mem_filter (hperm.mem_iff.1 htok))
      obtain ⟨rejects, hrejects, hperm'⟩ :=
        ih (fun stack hstack => hsub stack (.tail _ hstack)) mid hgood'
      refine ⟨rejects, (returns_foldlM_cons hsteady).2 ⟨mid, hmid, hrejects⟩, ?_⟩
      apply hperm'.trans
      apply (hperm.filter _).trans
      rw [List.filter_filter]
      apply List.Perm.of_eq
      apply List.filter_congr
      intro tok _
      simp [Bool.and_comm]
  cases grammarStacks with
  | nil => exact absurd rfl hne
  | cons front others =>
    by_cases hnil : candidates = []
    · subst hnil
      exact ⟨[], ⟨0, by simp [rejectOver]⟩, by simp⟩
    · obtain ⟨rejects, hrejects, hperm⟩ := hfold _ (fun _ h => h) candidates hgood
      refine ⟨rejects, ?_, hperm⟩
      simp only [rejectOver, if_neg hnil]
      exact hrejects

theorem rejectOver_mono {f g : List Candidate → Stack → Option (List Candidate)}
    (h : ∀ candidates stack out, f candidates stack = some out → g candidates stack = some out)
    (hf : rejectOver f grammarStacks candidates = some out) :
    rejectOver g grammarStacks candidates = some out := by
  cases grammarStacks with
  | nil => cases hf
  | cons front others =>
    by_cases hnil : candidates = []
    · simp only [rejectOver, if_pos hnil] at hf ⊢
      exact hf
    · simp only [rejectOver, if_neg hnil] at hf ⊢
      obtain ⟨mid, hmid, hfold⟩ := Option.bind_eq_some_iff.1 hf
      exact Option.bind_eq_some_iff.2 ⟨mid, h _ _ _ hmid, foldlM_mono h hfold⟩

theorem steady_rejectForStack (candidates : List Candidate) (stack : Stack) :
    Steady fun fuel => G.rejectCandidatesForStack fuel candidates stack := by
  apply steady_of_succ
  intro fuel out h
  induction fuel generalizing candidates stack out with
  | zero => cases h
  | succ fuel ih =>
    cases stack with
    | nil => exact h
    | cons p rest =>
      rw [rejectCandidatesForStack] at h ⊢
      obtain ⟨lists, hlists, h⟩ := Option.bind_eq_some_iff.1 h
      obtain ⟨after, hafter, h⟩ := Option.bind_eq_some_iff.1 h
      obtain ⟨nextStacks, hnext, h⟩ := Option.bind_eq_some_iff.1 h
      obtain ⟨nextRejects, hrejects, hout⟩ := Option.map_eq_some_iff.1 h
      have hnext' := steady_advance _ _ fuel (fuel + 1) _ (Nat.le_succ fuel) hnext
      refine Option.bind_eq_some_iff.2 ⟨lists, hlists, ?_⟩
      refine Option.bind_eq_some_iff.2 ⟨after, hafter, ?_⟩
      refine Option.bind_eq_some_iff.2 ⟨nextStacks, hnext', ?_⟩
      exact Option.map_eq_some_iff.2 ⟨nextRejects, rejectOver_mono ih hrejects, hout⟩

/-- What rejection for a stack with a class at its top returns, from what it returns behind the
class. -/
theorem rejectForStack_class (hc : isClass (head (G.from p)))
    (hsort : candidates.foldlM (sortCandidate (G.from p)) ([], []) =
      some (rejects, nextCandidates))
    (hnext : Yields (fun fuel => G.advanceStack fuel [] (G.afterChar p rest)) nextStacks)
    (hrejects : Yields (G.rejectCandidates nextStacks nextCandidates) nextRejects) :
    Yields (fun fuel => G.rejectCandidatesForStack fuel candidates (p :: rest))
      (rejects ++ nextRejects.map Candidate.back) := by
  obtain ⟨n, hn⟩ := hnext
  obtain ⟨m, hm⟩ := hrejects
  obtain ⟨found, hmatch, -⟩ := matchChar_eq hc 0
  refine ⟨max n m + 1, ?_⟩
  have hn' := steady_advance _ _ n (max n m) _ (Nat.le_max_left n m) hn
  have hm' := steady_rejectOver steady_rejectForStack nextStacks _ m (max n m) _
    (Nat.le_max_right n m) hm
  change G.rejectCandidatesForStack (max n m + 1) candidates (p :: rest) = _
  rw [rejectCandidatesForStack, hsort, hmatch]
  simp only [Option.bind_some]
  refine Option.bind_eq_some_iff.2 ⟨nextStacks, hn', ?_⟩
  exact Option.map_eq_some_iff.2 ⟨nextRejects, hm', rfl⟩

/-- Rejection for a stack with a class at its top is rejection behind the class. -/
theorem rejectForStack_step (hG : G.Terminates) (hc : isClass (head (G.from p)))
    (hs : G.ValidStack (p :: rest)) (hgood : ∀ tok ∈ candidates, tok.Complete)
    (hrec : ∀ nextStacks ≠ [], (∀ stack ∈ nextStacks, G.Ready stack) →
      ∃ nextRejects, Yields (G.rejectCandidates nextStacks
          ((candidates.filter (hits (G.from p))).map Candidate.next)) nextRejects ∧
        nextRejects.Perm (((candidates.filter (hits (G.from p))).map Candidate.next).filter
          fun tok => ∀ stack ∈ nextStacks, G.Dead stack tok.rest)) :
    ∃ rejects, Yields (fun fuel => G.rejectCandidatesForStack fuel candidates (p :: rest)) rejects ∧
      rejects.Perm (candidates.filter fun tok => G.Dead (p :: rest) tok.rest) := by
  have hafter := hs.afterChar hc
  have hhalts := hG.halts hafter
  obtain ⟨nextStacks, hnext⟩ := advance_returns insertStack hafter hhalts []
  have hmem : ∀ s, s ∈ nextStacks ↔ G.Expands (G.afterChar p rest) s := by
    intro s
    simpa using mem_advance adds_insertStack hnext s
  have hne : nextStacks ≠ [] := by
    obtain ⟨s, hexp⟩ := exists_expands hafter hhalts
    exact List.ne_nil_of_mem ((hmem s).2 hexp)
  have hready : ∀ stack ∈ nextStacks, G.Ready stack :=
    fun stack hstack => ((hmem stack).1 hstack).ready hafter
  obtain ⟨nextRejects, hrejects, hperm⟩ := hrec nextStacks hne hready
  have hsort := sortCandidates_eq hc [] [] candidates hgood
  rw [List.nil_append, List.nil_append] at hsort
  refine ⟨_, rejectForStack_class hc hsort hnext hrejects, ?_⟩
  have hback := hperm.map Candidate.back
  rw [List.filter_map, List.map_map, List.filter_filter] at hback
  have hid : Candidate.back ∘ Candidate.next = id := rfl
  rw [hid, List.map_id] at hback
  apply (hback.append_left _).trans
  apply (filter_append_filter_perm _ _).trans
  · apply List.Perm.of_eq
    apply List.filter_congr
    intro tok htok
    rw [eq_iff_iff.2 (Bool.eq_iff_iff (b := _))]
    cases hr : tok.rest with
    | nil => simp [misses, hits, hr, not_dead_nil]
    | cons chr chrs =>
      have hpoint : tok.codePoint = chr := by rw [tok.codePoint_eq, hr, List.headD_cons]
      have hnext : tok.next.rest = chrs := by rw [tok.rest_next, hr, List.tail_cons]
      simp only [misses, hits, hr, hpoint, hnext, dead_class hc, hmem, Function.comp]
      by_cases hin : InClass (G.from p) chr <;> simp [hin]
  · intro tok hmiss hhit
    simp only [misses, hits, decide_eq_true_eq, Bool.and_eq_true] at hmiss hhit
    exact hmiss.2 hhit.2.2

/-- Rejection for one stack: the candidates behind which it leaves no stack. -/
theorem rejectForStack_spec (hG : G.Terminates) (n : Nat) : ∀ stack, G.Ready stack →
    ∀ candidates : List Candidate, (∀ tok ∈ candidates, tok.Complete ∧ tok.rest.length ≤ n) →
    ∃ rejects, Yields (fun fuel => G.rejectCandidatesForStack fuel candidates stack) rejects ∧
      rejects.Perm (candidates.filter fun tok => G.Dead stack tok.rest) := by
  induction n using Nat.strong_induction_on with
  | h n ih =>
    intro stack hs candidates hgood
    cases hs with
    | empty =>
      refine ⟨_, ⟨1, rfl⟩, List.Perm.of_eq ?_⟩
      apply List.filter_congr
      intro tok htok
      have hcomplete := (hgood tok htok).1
      have hzero := hcomplete.codePoint_zero
      cases hr : tok.rest with
      | nil => simp [hzero.2 hr, hcomplete.nRemain, not_dead_nil]
      | cons chr chrs =>
        have hpoint : tok.codePoint ≠ 0 := by simp [hzero, hr]
        simp [hpoint, dead_empty]
    | @char p rest hc hs =>
      apply rejectForStack_step hG hc hs fun tok htok => (hgood tok htok).1
      intro nextStacks hne hready
      by_cases hnil : candidates.filter (hits (G.from p)) = []
      · rw [hnil]
        refine ⟨[], ⟨0, ?_⟩, .refl _⟩
        obtain ⟨front, others, rfl⟩ := List.exists_cons_of_ne_nil hne
        simp [rejectCandidates, rejectOver]
      · obtain ⟨tok, htok⟩ := List.exists_mem_of_ne_nil _ hnil
        have hlen : ∀ tok ∈ candidates.filter (hits (G.from p)),
            tok.Complete ∧ tok.rest ≠ [] ∧ tok.rest.length ≤ n := by
          intro tok htok
          obtain ⟨hmem, hhit⟩ := List.mem_filter.1 htok
          simp only [hits, decide_eq_true_eq] at hhit
          exact ⟨(hgood tok hmem).1, hhit.1, (hgood tok hmem).2⟩
        have hpos := List.length_pos_of_ne_nil (hlen tok htok).2.1
        have hn : n - 1 < n := by
          have := (hlen tok htok).2.2
          omega
        apply rejectOver_spec steady_rejectForStack
          (fun stack hstack candidates hgood => ih (n - 1) hn stack (hready stack hstack) _ hgood)
          hne
        intro tok' htok'
        obtain ⟨tok, htok, rfl⟩ := List.mem_map.1 htok'
        obtain ⟨hcomplete, -, hle⟩ := hlen tok htok
        refine ⟨hcomplete.next, ?_⟩
        rw [tok.rest_next, List.length_tail]
        omega

/-- No stack is left behind the code points where accepting them one by one leaves none. -/
theorem returns_acceptAll_none (hG : G.Terminates)
    (hs : ∀ stack ∈ grammarStacks, G.Ready stack) :
    Yields (G.acceptAll grammarStacks chrs) [] ↔
      ∀ stack ∈ grammarStacks, G.Dead stack chrs := by
  obtain ⟨out, hout⟩ := hG.acceptAll_returns adds_insertStack hs chrs
  have hmem := mem_acceptAll adds_insertStack hs hout
  constructor
  · intro h stack hstack stack' hall
    have hin := (hmem stack').2 ⟨stack, hstack, hall⟩
    rw [← (steady_acceptAll _ _).unique h hout] at hin
    cases hin
  · intro h
    have hnil : out = [] := by
      apply List.eq_nil_iff_forall_not_mem.2
      intro stack' hstack'
      obtain ⟨stack, hstack, hall⟩ := (hmem stack').1 hstack'
      exact h stack hstack stack' hall
    rwa [hnil] at hout

/-- Rejection returns, each once and as it was, the candidates behind whose code points accepting
leaves no stack. -/
theorem rejectCandidates_eq_accept (G : Rules) (hG : G.Terminates) (grammarStacks : Stacks)
    (hne : grammarStacks ≠ []) (hs : ∀ stack ∈ grammarStacks, G.Ready stack)
    (candidates : List Candidate) (hgood : ∀ tok ∈ candidates, tok.Complete) :
    ∃ rejects, Yields (G.rejectCandidates grammarStacks candidates) rejects ∧
      rejects.Perm (candidates.filter fun tok =>
        Yields (G.acceptAll grammarStacks tok.rest) []) := by
  have hbound : ∃ n, ∀ tok ∈ candidates, tok.Complete ∧ tok.rest.length ≤ n := by
    refine ⟨(candidates.map fun tok => tok.rest.length).sum, ?_⟩
    intro tok htok
    exact ⟨hgood tok htok, List.single_le_sum (by simp) _ (List.mem_map_of_mem htok)⟩
  obtain ⟨n, hn⟩ := hbound
  obtain ⟨rejects, hrejects, hperm⟩ := rejectOver_spec steady_rejectForStack
    (fun stack hstack candidates hgood =>
      rejectForStack_spec hG n stack (hs stack hstack) candidates hgood) hne hn
  refine ⟨rejects, hrejects, ?_⟩
  simp only [returns_acceptAll_none hG hs]
  exact hperm

/-- `(` and `)` as candidates. -/
def parenCandidates : List Candidate :=
  [⟨0, [40], 0, ⟨0, 0⟩⟩, ⟨1, [41], 0, ⟨0, 0⟩⟩]

theorem parenCandidates_complete : ∀ tok ∈ parenCandidates, tok.Complete := by
  intro tok htok
  have hpoints : tok.partialUtf8.nRemain = 0 ∧ ∀ chr ∈ tok.rest, chr ≠ 0 := by
    revert tok
    decide
  exact ⟨hpoints.1, hpoints.2⟩

theorem nested_ready : ∀ stack ∈ ([[⟨0, 0⟩], []] : Stacks), nestedRules.Ready stack := by
  intro stack hstack
  rcases List.mem_cons.1 hstack with rfl | hstack
  · apply Ready.char (by decide)
    intro p hp
    rw [List.mem_singleton.1 hp]
    exact .inl (by decide)
  · rw [List.mem_singleton.1 hstack]
    exact .empty

theorem parens_rejectCandidates : ∃ rejects,
    Yields (nestedRules.rejectCandidates [[⟨0, 0⟩], []] parenCandidates) rejects ∧
      rejects.Perm (parenCandidates.filter fun tok =>
        Yields (nestedRules.acceptAll [[⟨0, 0⟩], []] tok.rest) []) :=
  rejectCandidates_eq_accept nestedRules nestedRules_terminates _ (by simp) nested_ready _
    parenCandidates_complete

end Reject
end Rules
end ActQuant.Grammar
