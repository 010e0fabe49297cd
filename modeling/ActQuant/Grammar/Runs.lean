import ActQuant.Grammar.ParserSpec
import ActQuant.Grammar.RejectSpec

namespace ActQuant.Grammar
open Lib

/-! When the runs of a grammar terminate. -/

namespace Rules
variable {G : Rules}

/-- The stacks a grammar may have while it is run. -/
inductive Reached (G : Rules) (start : Nat) : Stacks → Prop where
  | init (h : Yields (G.init start) grammarStacks) : Reached G start grammarStacks
  | accept (h : Reached G start grammarStacks)
      (hchr : Yields (fun fuel => G.accept fuel grammarStacks chr) out) : Reached G start out

/-- Initialisation ends, and at each point of every run so do expanding the stacks, accepting a
code point and rejecting candidates. -/
structure RunsTerminate (G : Rules) (start : Nat) : Prop where
  init : ∃ initial, Yields (G.init start) initial
  advance : ∀ grammarStacks, G.Reached start grammarStacks → ∀ stack ∈ grammarStacks,
    ∃ out, Yields (fun fuel => G.advanceStack fuel [] stack) out
  accept : ∀ grammarStacks, G.Reached start grammarStacks → ∀ chr,
    ∃ out, Yields (fun fuel => G.accept fuel grammarStacks chr) out
  reject : ∀ grammarStacks, G.Reached start grammarStacks → grammarStacks ≠ [] → ∀ candidates,
    ∃ rejects, Yields (G.rejectCandidates grammarStacks candidates) rejects

/-- What comes up while a grammar is run from its start rule. -/
def seen (G : Rules) (start : Nat) : Set (List (Sym Nat Nat)) := Cfg.Seen G.alts [.ref start]

theorem mem_symbols_ref (h : .ref n ∈ symbols es) :
    ∃ e ∈ es, e.type = .RULE_REF ∧ e.value = n := by
  induction es with
  | nil => cases h
  | cons e es ih =>
    have hrest : .ref n ∈ symbols es → ∃ e' ∈ e :: es, e'.type = .RULE_REF ∧ e'.value = n := by
      intro h
      obtain ⟨e', he', hrest⟩ := ih h
      exact ⟨e', .tail _ he', hrest⟩
    rw [symbols] at h
    split at h
    · cases h
    · cases h
    · case _ href =>
        rcases List.mem_cons.1 h with h | h
        · cases h
          exact ⟨e, .head _, href, rfl⟩
        · exact hrest h
    all_goals
      first
        | exact hrest h
        | exact hrest ((List.mem_cons.1 h).resolve_left (by simp))

/-- The rules a left corner is about are rules of the set. -/
theorem leftCorner_lt (h : Cfg.LeftCorner G.alts n n') :
    n < G.rules.length ∧ n' < G.rules.length := by
  obtain ⟨alt, ⟨hn, before, after, hrule, -, rfl⟩, front, rest, hfront, -⟩ := h
  refine ⟨hn, ?_⟩
  have hmem : .ref n' ∈ symbols after := by
    rw [hfront]
    simp
  obtain ⟨e, he, href, rfl⟩ := mem_symbols_ref hmem
  apply G.refs _ (G.rule_mem hn) e _ href
  rw [hrule]
  exact List.mem_append_right _ he

/-- What comes up halts exactly where no rule that comes up is left recursive. -/
theorem halts_seen_iff : (∀ ss ∈ G.seen start, Cfg.Halts G.alts ss) ↔
    ∀ n, Cfg.Leads (G.seen start) n → ¬ Relation.TransGen (Cfg.LeftCorner G.alts) n n :=
  Cfg.halts_on_iff (Set.finite_lt_nat G.rules.length) (fun _ _ => leftCorner_lt) Cfg.closed_seen

section Forward

/-- A stack of a run: expanded, with symbols that come up. -/
structure Ahead (G : Rules) (start : Nat) (stack : Stack) : Prop where
  ready : G.Ready stack
  front : Cfg.Front G.alts [.ref start] (G.symbolsOf stack)

theorem front_expands (h : Cfg.Front G.alts x (G.symbolsOf stack)) (hs : G.ValidStack stack)
    (hexp : G.Expands stack stack') : Cfg.Front G.alts x (G.symbolsOf stack') := by
  induction hexp with
  | empty => exact h
  | char => exact h
  | ref href hsub _ ih =>
    apply ih _ (hs.expandRef href hsub)
    obtain ⟨es, -, hid⟩ := from_ref href
    rw [symbolsOf_ref href] at h
    rw [symbolsOf_expandRef]
    exact .expand h (.ref ((mem_alts_iff hid).2 ⟨_, hsub, rfl⟩))

theorem front_startStack (hstart : start < G.rules.length)
    (hsub : sub ∈ alternates (G.rule start)) :
    Cfg.Front G.alts [.ref start] (G.symbolsOf (G.startStack start sub)) := by
  rw [symbolsOf_startStack]
  have hexp : Cfg.Expand G.alts [.ref start] _ :=
    .ref ((mem_alts_iff hstart).2 ⟨sub, hsub, rfl⟩)
  rw [List.append_nil] at hexp
  exact .expand .refl hexp

theorem Ahead.moves (h : G.Ahead start stack) (hm : G.Moves chr stack stack') :
    G.Ahead start stack' := by
  refine ⟨hm.ready h.ready, ?_⟩
  have hvalid := h.ready.valid
  have hfront := h.front
  cases hm with
  | char hc hin hexp =>
    rw [symbolsOf_class hc] at hfront
    exact front_expands (.read hfront ⟨chr, hin⟩) (hvalid.afterChar hc) hexp

theorem ahead_reached (hstart : start < G.rules.length) (h : G.Reached start grammarStacks) :
    ∀ stack ∈ grammarStacks, G.Ahead start stack := by
  induction h with
  | init h =>
    intro stack hstack
    obtain ⟨sub, hsub, hexp⟩ := (mem_init adds_insertStack h stack).1 hstack
    have hvalid := valid_startStack hstart hsub
    exact ⟨hexp.ready hvalid, front_expands (front_startStack hstart hsub) hvalid hexp⟩
  | accept _ hchr ih =>
    intro stack hstack
    have hready := fun stack hstack => (ih stack hstack).ready
    obtain ⟨stack₀, hstack₀, hm⟩ := (mem_accept adds_insertStack hready hchr stack).1 hstack
    exact (ih stack₀ hstack₀).moves hm

/-- Behind the class at the top of a stack of a run everything halts. -/
theorem Ahead.halts (hh : ∀ ss ∈ G.seen start, Cfg.Halts G.alts ss)
    (h : G.Ahead start (p :: rest)) (hc : isClass (head (G.from p))) :
    Cfg.Halts G.alts (G.symbolsOf (G.afterChar p rest)) := by
  have hfront := h.front
  rw [symbolsOf_class hc] at hfront
  exact hh _ (.inr ⟨_, _, hfront, .refl⟩)

theorem advance_ready (h : G.Ready stack) :
    ∃ out, Yields (fun fuel => G.advanceStack fuel [] stack) out := by
  cases h with
  | empty => exact ⟨_, 1, rfl⟩
  | char hc => exact ⟨_, 1, advance_class hc⟩

/-- The candidates of a list have fewer code points to come. -/
def Within (n : Nat) (candidates : List Candidate) : Prop :=
  ∀ tok ∈ candidates, tok.rest.length < n

theorem within_nil : Within n [] := fun _ h => nomatch h

theorem Within.concat (h : Within n candidates) (htok : tok.rest.length < n) :
    Within n (candidates ++ [tok]) := by
  intro tok' htok'
  rcases List.mem_append.1 htok' with htok' | htok'
  · exact h tok' htok'
  · rwa [List.mem_singleton.1 htok']

/-- Sorting the candidates in front of a class leaves for the next round none but candidates
with one code point less. -/
theorem sortCandidates_returns (hc : isClass (head es)) (candidates : List Candidate)
    (hle : Within (n + 1) candidates) (hrejects : Within (n + 1) rejects)
    (hnext : Within n nextCandidates) : ∃ rejects' nextCandidates',
      candidates.foldlM (sortCandidate es) (rejects, nextCandidates) =
        some (rejects', nextCandidates') ∧ Within (n + 1) rejects' ∧ Within n nextCandidates' ∧
      (nextCandidates' ≠ [] → nextCandidates ≠ [] ∨ ∃ chr, InClass es chr) := by
  induction candidates generalizing rejects nextCandidates with
  | nil => exact ⟨rejects, nextCandidates, rfl, hrejects, hnext, .inl⟩
  | cons tok candidates ih =>
    have htok := hle tok (.head _)
    have ih := fun {rejects nextCandidates} =>
      @ih rejects nextCandidates fun tok htok => hle tok (.tail _ htok)
    rw [List.foldlM_cons, sortCandidate]
    by_cases hz : tok.codePoint = 0
    · by_cases hp : tok.partialUtf8.nRemain ≠ 0
      · obtain ⟨found, hfound⟩ : ∃ found, matchPartialChar es tok.partialUtf8 = some found := by
          rw [isClass, decide_eq_true_iff] at hc
          rw [matchPartialChar, if_pos (by tauto)]
          split
          · exact ⟨_, rfl⟩
          · exact ⟨_, rfl⟩
        simp only [hz, if_true, hp, ne_eq, not_false_eq_true, hfound, Option.map_some]
        cases found with
        | true => exact ih hrejects hnext
        | false => exact ih (hrejects.concat htok) hnext
      · simp only [hz, if_true, hp, if_false]
        exact ih hrejects hnext
    · obtain ⟨found, hmatch, hfound⟩ := matchChar_eq hc tok.codePoint
      simp only [hz, if_false, hmatch, Option.map_some]
      cases found with
      | false => exact ih (hrejects.concat htok) hnext
      | true =>
        have hadd : Within n (nextCandidates ++ [tok.next]) := by
          apply hnext.concat
          have hne : tok.rest ≠ [] := by
            intro hnil
            rw [tok.codePoint_eq, hnil] at hz
            exact hz rfl
          have hpos := List.length_pos_of_ne_nil hne
          rw [tok.rest_next, List.length_tail]
          omega
        obtain ⟨rejects', nextCandidates', heq, hr, hn, -⟩ := ih hrejects hadd
        exact ⟨rejects', nextCandidates', heq, hr, hn, fun _ => .inr ⟨_, hfound.1 rfl⟩⟩

theorem Within.back (h : Within n candidates) :
    Within (n + 1) (candidates.map Candidate.back) := by
  intro tok' htok'
  obtain ⟨tok, htok, rfl⟩ := List.mem_map.1 htok'
  have hlen := h tok htok
  rw [Candidate.rest, List.length_drop] at hlen ⊢
  change tok.codePoints.length - (tok.offset - 1) < n + 1
  omega

/-- Rejection over several stacks returns where it does for each of them. -/
theorem rejectOver_returns {forStack : Nat → List Candidate → Stack → Option (List Candidate)}
    (hsteady : ∀ candidates stack, Steady fun fuel => forStack fuel candidates stack)
    (h : ∀ stack ∈ grammarStacks, ∀ candidates, Within n candidates → ∃ rejects,
      Yields (fun fuel => forStack fuel candidates stack) rejects ∧ Within n rejects)
    (hne : grammarStacks ≠ []) (hle : Within n candidates) :
    ∃ rejects, Yields (fun fuel => rejectOver (forStack fuel) grammarStacks candidates) rejects ∧
      Within n rejects := by
  have hfold : ∀ others : Stacks, (∀ stack ∈ others, stack ∈ grammarStacks) → ∀ candidates,
      Within n candidates → ∃ rejects,
        Yields (fun fuel => others.foldlM (forStack fuel) candidates) rejects ∧
          Within n rejects := by
    intro others
    induction others with
    | nil => exact fun _ candidates hle => ⟨candidates, returns_foldlM_nil.2 rfl, hle⟩
    | cons stack others ih =>
      intro hsub candidates hle
      obtain ⟨mid, hmid, hle'⟩ := h stack (hsub stack (.head _)) candidates hle
      obtain ⟨rejects, hrejects, hle''⟩ :=
        ih (fun stack hstack => hsub stack (.tail _ hstack)) mid hle'
      exact ⟨rejects, (returns_foldlM_cons hsteady).2 ⟨mid, hmid, hrejects⟩, hle''⟩
  cases grammarStacks with
  | nil => exact absurd rfl hne
  | cons front others =>
    by_cases hnil : candidates = []
    · subst hnil
      exact ⟨[], ⟨0, by simp [rejectOver]⟩, within_nil⟩
    · obtain ⟨rejects, hrejects, hle'⟩ := hfold _ (fun _ h => h) candidates hle
      refine ⟨rejects, ?_, hle'⟩
      simp only [rejectOver, if_neg hnil]
      exact hrejects

/-- The stacks behind the class at the top of a stack of a run. -/
theorem Ahead.next (h : G.Ahead start (p :: rest)) (hc : isClass (head (G.from p)))
    (hh : ∀ ss ∈ G.seen start, Cfg.Halts G.alts ss) : ∃ nextStacks,
      Yields (fun fuel => G.advanceStack fuel [] (G.afterChar p rest)) nextStacks ∧
        nextStacks ≠ [] ∧
        ((∃ chr, InClass (G.from p) chr) → ∀ stack ∈ nextStacks, G.Ahead start stack) := by
  have hafter := h.ready.valid.afterChar hc
  have hhalts := h.halts hh hc
  obtain ⟨nextStacks, hnext⟩ := advance_returns insertStack hafter hhalts []
  have hmem : ∀ s, s ∈ nextStacks ↔ G.Expands (G.afterChar p rest) s := by
    intro s
    simpa using mem_advance adds_insertStack hnext s
  obtain ⟨s, hexp⟩ := exists_expands hafter hhalts
  refine ⟨nextStacks, hnext, List.ne_nil_of_mem ((hmem s).2 hexp), ?_⟩
  rintro ⟨chr, hchr⟩ stack hstack
  exact h.moves (.char hc hchr ((hmem stack).1 hstack))

/-- Rejection for a stack of a run returns. -/
theorem rejectForStack_returns (hh : ∀ ss ∈ G.seen start, Cfg.Halts G.alts ss) (n : Nat) :
    ∀ stack, G.Ahead start stack → ∀ candidates, Within n candidates → ∃ rejects,
      Yields (fun fuel => G.rejectCandidatesForStack fuel candidates stack) rejects ∧
        Within n rejects := by
  induction n with
  | zero =>
    intro stack h candidates hle
    obtain rfl : candidates = [] :=
      List.eq_nil_iff_forall_not_mem.2 fun tok htok => absurd (hle tok htok) (Nat.not_lt_zero _)
    cases stack with
    | nil => exact ⟨[], ⟨1, rfl⟩, within_nil⟩
    | cons p rest =>
      have hready := h.ready
      cases hready with
      | char hc =>
        obtain ⟨nextStacks, hnext, hne, -⟩ := h.next hc hh
        obtain ⟨front, others, rfl⟩ := List.exists_cons_of_ne_nil hne
        have hnone : Yields (G.rejectCandidates (front :: others) []) [] :=
          ⟨0, by simp [rejectCandidates, rejectOver]⟩
        exact ⟨_, rejectForStack_class hc rfl hnext hnone, within_nil⟩
  | succ n ih =>
    intro stack h candidates hle
    cases stack with
    | nil =>
      refine ⟨_, ⟨1, rfl⟩, ?_⟩
      exact fun tok htok => hle tok (List.mem_of_mem_filter htok)
    | cons p rest =>
      have hready := h.ready
      cases hready with
      | char hc =>
        obtain ⟨nextStacks, hnext, hne, hahead⟩ := h.next hc hh
        obtain ⟨rejects, nextCandidates, hsort, hr, hn, hin⟩ :=
          sortCandidates_returns hc candidates hle within_nil within_nil
        have hrec : ∃ nextRejects,
            Yields (G.rejectCandidates nextStacks nextCandidates) nextRejects ∧
              Within n nextRejects := by
          by_cases hnil : nextCandidates = []
          · obtain ⟨front, others, rfl⟩ := List.exists_cons_of_ne_nil hne
            exact ⟨[], ⟨0, by simp [rejectCandidates, rejectOver, hnil]⟩, within_nil⟩
          · have hchr := (hin hnil).resolve_left fun h => h rfl
            apply rejectOver_returns steady_rejectForStack _ hne hn
            intro stack hstack candidates hle
            exact ih stack (hahead hchr stack hstack) candidates hle
        obtain ⟨nextRejects, hrejects, hle'⟩ := hrec
        refine ⟨_, rejectForStack_class hc hsort hnext hrejects, ?_⟩
        intro tok htok
        rcases List.mem_append.1 htok with htok | htok
        · exact hr tok htok
        · exact hle'.back tok htok

/-- Where everything that comes up halts, the runs terminate. -/
theorem runsTerminate_of_halts (hstart : start < G.rules.length)
    (hh : ∀ ss ∈ G.seen start, Cfg.Halts G.alts ss) : G.RunsTerminate start := by
  have hahead {grammarStacks : Stacks} (h : G.Reached start grammarStacks) :=
    ahead_reached hstart h
  refine ⟨?_, ?_, ?_, ?_⟩
  · apply init_returns hstart
    intro ss hss
    have hexp : Cfg.Expand G.alts [.ref start] _ := .ref hss
    rw [List.append_nil] at hexp
    exact hh ss (.inl (.expand .refl hexp))
  · exact fun grammarStacks h stack hstack => advance_ready (hahead h stack hstack).ready
  · intro grammarStacks h chr
    apply accept_returns fun stack hstack => (hahead h stack hstack).ready
    intro p rest hmem _
    have hstack := hahead h _ hmem
    have hready := hstack.ready
    cases hready with
    | char hc => exact hstack.halts hh hc
  · intro grammarStacks h hne candidates
    have hbound : ∃ n, Within n candidates := by
      refine ⟨(candidates.map fun tok => tok.rest.length).sum + 1, ?_⟩
      intro tok htok
      exact Nat.lt_succ_of_le (List.single_le_sum (by simp) _ (List.mem_map_of_mem htok))
    obtain ⟨n, hn⟩ := hbound
    obtain ⟨rejects, hrejects, -⟩ := rejectOver_returns steady_rejectForStack
      (fun stack hstack candidates hle =>
        rejectForStack_returns hh n stack (hahead h stack hstack) candidates hle) hne hn
    exact ⟨rejects, hrejects⟩

end Forward

section Backward

/-- What the symbols of a stack come to in front of a class are the symbols of a stack it expands
to. -/
theorem expands_of_expand (hs : G.ValidStack stack)
    (h : Relation.ReflTransGen (Cfg.Expand G.alts) (G.symbolsOf stack) (.char p :: ss)) :
    ∃ pos rest, G.Expands stack (pos :: rest) ∧ isClass (head (G.from pos)) ∧
      p = InClass (G.from pos) ∧ ss = G.symbolsOf (G.afterChar pos rest) := by
  generalize hsyms : G.symbolsOf stack = first at h
  induction h using Relation.ReflTransGen.head_induction_on generalizing stack with
  | refl =>
    cases stack with
    | nil => cases hsyms
    | cons pos rest =>
      rcases hs pos (.head _) with hc | href
      · rw [symbolsOf_class hc] at hsyms
        obtain ⟨hp, hss⟩ := List.cons.inj hsyms
        cases hp
        exact ⟨pos, rest, .char hc, hc, rfl, hss.symm⟩
      · rw [symbolsOf_ref href] at hsyms
        cases hsyms
  | head hexp _ ih =>
    subst hsyms
    cases stack with
    | nil => cases hexp
    | cons pos rest =>
      rcases hs pos (.head _) with hc | href
      · rw [symbolsOf_class hc] at hexp
        cases hexp
      · rw [symbolsOf_ref href] at hexp
        obtain ⟨es, -, hid⟩ := from_ref href
        generalize hx : G.symbolsOf (G.pushNext (pos.add 1) rest) = x at hexp
        cases hexp with
        | ref halt =>
          obtain ⟨sub, hsub, rfl⟩ := (mem_alts_iff hid).1 halt
          rw [← hx, ← symbolsOf_expandRef] at ih
          obtain ⟨pos', rest', hexp', hrest⟩ := ih (hs.expandRef href hsub) rfl
          exact ⟨pos', rest', .ref href hsub hexp', hrest⟩

/-- The symbols halt, and in front of each class they come to a stack of a run stands. -/
structure Followed (G : Rules) (start : Nat) (ss : List (Sym Nat Nat)) : Prop where
  halts : Cfg.Halts G.alts ss
  stands : ∀ p ss', Relation.ReflTransGen (Cfg.Expand G.alts) ss (.char p :: ss') →
    ∃ grammarStacks pos rest, G.Reached start grammarStacks ∧ pos :: rest ∈ grammarStacks ∧
      isClass (head (G.from pos)) ∧ p = InClass (G.from pos) ∧
      ss' = G.symbolsOf (G.afterChar pos rest)

theorem acceptStack_halts (hc : isClass (head (G.from p))) (hin : InClass (G.from p) chr)
    (h : Yields (fun fuel => G.acceptStackWith push chr fuel newStacks (p :: rest)) out) :
    Cfg.Halts G.alts (G.symbolsOf (G.afterChar p rest)) := by
  obtain ⟨fuel, h⟩ := h
  rcases acceptStack_class push hc chr fuel newStacks rest with ⟨-, heq⟩ | ⟨hnin, -⟩
  · exact halts_of_advance ⟨fuel, heq.symm.trans h⟩
  · exact absurd hin hnin

theorem rejectForStack_halts (hc : isClass (head (G.from p)))
    (h : G.rejectCandidatesForStack fuel candidates (p :: rest) = some out) :
    Cfg.Halts G.alts (G.symbolsOf (G.afterChar p rest)) := by
  cases fuel with
  | zero => cases h
  | succ fuel =>
    obtain ⟨found, hmatch, -⟩ := matchChar_eq hc 0
    rw [rejectCandidatesForStack, hmatch] at h
    obtain ⟨lists, -, h⟩ := Option.bind_eq_some_iff.1 h
    obtain ⟨after, hafter, h⟩ := Option.bind_eq_some_iff.1 h
    cases Option.some.inj hafter
    obtain ⟨nextStacks, hnext, -⟩ := Option.bind_eq_some_iff.1 h
    exact halts_of_advance ⟨fuel, hnext⟩

/-- Rejecting a candidate looks behind the class at the top of every stack. -/
theorem rejectCandidates_halts (h : Yields (G.rejectCandidates grammarStacks [tok]) out)
    (hmem : p :: rest ∈ grammarStacks) (hc : isClass (head (G.from p))) :
    Cfg.Halts G.alts (G.symbolsOf (G.afterChar p rest)) := by
  obtain ⟨fuel, h⟩ := h
  cases grammarStacks with
  | nil => cases hmem
  | cons front others =>
    rw [rejectCandidates, rejectOver, if_neg (by simp)] at h
    obtain ⟨mid, hmid, hfold⟩ := Option.bind_eq_some_iff.1 h
    cases hmem with
    | head => exact rejectForStack_halts hc hmid
    | tail _ hmem =>
      obtain ⟨b, c, hbc⟩ := foldlM_step (f := fun _ => G.rejectCandidatesForStack fuel)
        (fun _ _ => steady_const _) ⟨0, hfold⟩ hmem
      exact rejectForStack_halts hc (returns_const.1 hbc)

theorem followed_init (hstart : start < G.rules.length) (h : G.RunsTerminate start) :
    G.Followed start [.ref start] := by
  obtain ⟨initial, hinit⟩ := h.init
  refine ⟨?_, ?_⟩
  · rw [Cfg.halts_ref]
    intro alt halt
    obtain ⟨sub, hsub, rfl⟩ := (mem_alts_iff hstart).1 halt
    obtain ⟨b, c, hbc⟩ := foldlM_step
      (fun b sub => by exact steady_advance b (G.startStack start sub)) hinit hsub
    have hhalts : Cfg.Halts G.alts (G.symbolsOf (G.startStack start sub)) := halts_of_advance hbc
    rwa [symbolsOf_startStack, ← List.append_nil (symbols _)] at hhalts
  · intro p ss' hexp
    rcases Relation.ReflTransGen.cases_head hexp with heq | ⟨x, hx, hrest⟩
    · cases heq
    · cases hx with
      | ref halt =>
        obtain ⟨sub, hsub, rfl⟩ := (mem_alts_iff hstart).1 halt
        rw [List.append_nil, ← symbolsOf_startStack] at hrest
        obtain ⟨pos, rest, hexp, hrest⟩ :=
          expands_of_expand (valid_startStack hstart hsub) hrest
        have hmem := (mem_init adds_insertStack hinit _).2 ⟨sub, hsub, hexp⟩
        exact ⟨initial, pos, rest, .init hinit, hmem, hrest⟩

/-- Where the runs terminate, everything that comes up is followed by the stacks of a run. -/
theorem followed_front (hstart : start < G.rules.length) (h : G.RunsTerminate start)
    (hfront : Cfg.Front G.alts [.ref start] ss) : G.Followed start ss := by
  induction hfront with
  | refl => exact followed_init hstart h
  | expand _ hexp ih => exact ⟨ih.halts.inv hexp, fun p ss' hss' => ih.stands p ss' (.head hexp hss')⟩
  | read _ hp ih =>
    obtain ⟨chr, hchr⟩ := hp
    obtain ⟨grammarStacks, pos, rest, hreached, hmem, hc, rfl, rfl⟩ := ih.stands _ _ .refl
    obtain ⟨out, hout⟩ := h.accept grammarStacks hreached chr
    have hready := fun stack hstack => (ahead_reached hstart hreached stack hstack).ready
    obtain ⟨b, c, hbc⟩ := foldlM_step
      (fun b stack => by exact steady_acceptStack chr b stack) hout hmem
    refine ⟨acceptStack_halts hc hchr hbc, ?_⟩
    intro p ss' hexp
    have hvalid := (hready _ hmem).valid.afterChar hc
    obtain ⟨pos', rest', hexp, hrest⟩ := expands_of_expand hvalid hexp
    have hmem' := (mem_accept adds_insertStack hready hout _).2 ⟨_, hmem, .char hc hchr hexp⟩
    exact ⟨out, pos', rest', .accept hreached hout, hmem', hrest⟩

theorem halts_of_runsTerminate (hstart : start < G.rules.length) (h : G.RunsTerminate start) :
    ∀ ss ∈ G.seen start, Cfg.Halts G.alts ss := by
  rintro ss (hfront | ⟨p, rest, hfront, hexp⟩)
  · exact (followed_front hstart h hfront).halts
  · obtain ⟨grammarStacks, pos, rest, hreached, hmem, hc, rfl, rfl⟩ :=
      (followed_front hstart h hfront).stands _ _ .refl
    obtain ⟨rejects, hrejects⟩ := h.reject grammarStacks hreached (List.ne_nil_of_mem hmem)
      [⟨0, [], 0, ⟨0, 0⟩⟩]
    have hhalts := rejectCandidates_halts hrejects hmem hc
    induction hexp with
    | refl => exact hhalts
    | tail _ hexp ih => exact ih.inv hexp

end Backward

/-- The runs from a rule terminate exactly where no rule that comes up on them comes back to
itself in front of every character. -/
theorem runsTerminate_iff (hstart : start < G.rules.length) : G.RunsTerminate start ↔
    ∀ n, Cfg.Leads (G.seen start) n → ¬ Relation.TransGen (Cfg.LeftCorner G.alts) n n := by
  rw [← halts_seen_iff]
  exact ⟨halts_of_runsTerminate hstart, runsTerminate_of_halts hstart⟩

/-- The check is enough where every rule that derives the empty word has an empty alternate. -/
theorem runsTerminate_of_check (hstart : start < G.rules.length)
    (h : leftRecursive G.rules = false)
    (hempty : ∀ n, Cfg.Derives G.alts [.ref n] [] → hasEmptyAlternate true (G.rule n)) :
    G.RunsTerminate start :=
  (runsTerminate_iff hstart).2 fun n _ => noLeftRecursion_of_check h hempty n

end Rules

/-- The runs of an accepted text terminate exactly where no rule that comes up on them comes back
to itself in front of every character. -/
theorem accepted_terminates_iff (fuel : Nat) (grammarStr grammarRoot : Text)
    (rules : List (List Element)) (start : Nat)
    (hread : readGrammar fuel grammarStr grammarRoot = some (rules, start))
    (hroot : start < rules.length) (hcheck : leftRecursive rules = false) :
    ∃ G : Rules, G.rules = rules ∧ leftRecursive G.rules = false ∧
      (G.RunsTerminate start ↔
        ∀ n, Cfg.Leads (G.seen start) n → ¬ Relation.TransGen (Cfg.LeftCorner G.alts) n n) := by
  obtain ⟨G, rfl⟩ := readGrammar_rules hread
  exact ⟨G, rfl, hcheck, Rules.runsTerminate_iff hroot⟩

/-- `root ::= ("x"*)*`. -/
def starOfStar : Text := "root ::= (\"x\"*)*".toList.map byte

def starOfStarRules : List (List Element) :=
  [[⟨.RULE_REF, 3⟩, ⟨.END, 0⟩],
    [⟨.RULE_REF, 2⟩, ⟨.END, 0⟩],
    [⟨.CHAR, 120⟩, ⟨.RULE_REF, 2⟩, ⟨.ALT, 0⟩, ⟨.END, 0⟩],
    [⟨.RULE_REF, 1⟩, ⟨.RULE_REF, 3⟩, ⟨.ALT, 0⟩, ⟨.END, 0⟩]]

theorem starOfStar_read :
    readGrammar 30 starOfStar ("root".toList.map byte) = some (starOfStarRules, 0) := by
  decide +kernel

theorem starOfStar_passes : leftRecursive starOfStarRules = false := by decide

theorem starOfStar_accepted_iff : ∃ G : Rules, G.rules = starOfStarRules ∧
    leftRecursive G.rules = false ∧ (G.RunsTerminate 0 ↔
      ∀ n, Cfg.Leads (G.seen 0) n → ¬ Relation.TransGen (Cfg.LeftCorner G.alts) n n) :=
  accepted_terminates_iff 30 starOfStar _ starOfStarRules 0 starOfStar_read (by decide)
    starOfStar_passes

/-- The text is accepted, and its initialisation does not end: the rule for the outer star comes
back to itself behind the group, which may be empty by way of the inner star only. -/
theorem starOfStar_loops : ∃ G : Rules,
    readGrammar 30 starOfStar ("root".toList.map byte) = some (G.rules, 0) ∧
      0 < G.rules.length ∧ leftRecursive G.rules = false ∧
      ¬ ∃ initial, Yields (G.init 0) initial := by
  have hwf : ∀ rule ∈ starOfStarRules, RuleWF rule := by decide
  have hrefs : ∀ rule ∈ starOfStarRules, ∀ e ∈ rule, e.type = .RULE_REF →
      e.value < starOfStarRules.length := by decide
  let G : Rules := ⟨starOfStarRules, hwf, hrefs⟩
  refine ⟨G, starOfStar_read, Nat.zero_lt_succ 3, starOfStar_passes, ?_⟩
  rintro ⟨initial, hinit⟩
  have halt {n : Nat} (hn : n < 4) (sub : Nat) (hsub : sub ∈ alternates (G.rule n)) :
      symbols (G.from ⟨n, sub⟩) ∈ G.alts n := (Rules.mem_alts_iff hn).2 ⟨sub, hsub, rfl⟩
  have hinner : Cfg.Derives G.alts [.ref 2] [] :=
    Cfg.derives_ref.2 ⟨_, halt (by decide) 3 (.tail _ (.head _)), .nil⟩
  have hgroup : Cfg.Derives G.alts [.ref 1] [] :=
    Cfg.derives_ref.2 ⟨_, halt (by decide) 0 (.head _), hinner⟩
  have hloop : Cfg.LeftCorner G.alts 3 3 :=
    ⟨_, halt (by decide) 0 (.head _), [.ref 1], [], rfl, hgroup⟩
  have hzero : (0 : Nat) ∈ alternates (G.rule 0) := .head _
  obtain ⟨b, c, hbc⟩ := foldlM_step
    (fun b sub => by exact Rules.steady_advance b (G.startStack 0 sub)) hinit hzero
  have hhalts : Cfg.Halts G.alts (G.symbolsOf (G.startStack 0 0)) := Rules.halts_of_advance hbc
  rw [Rules.symbolsOf_startStack] at hhalts
  exact Cfg.not_halts (.single hloop) [] hhalts

end ActQuant.Grammar
