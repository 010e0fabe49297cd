import Mathlib.Computability.Language
import Mathlib.Data.Set.Finite.Basic

namespace ActQuant.Lib

/-! Context-free grammars whose terminals are classes, and the expansion of the leftmost
non-terminal. -/

/-- A symbol of a grammar: a non-terminal, or a class of terminals. -/
inductive Sym (N T : Type) where
  | ref (n : N)
  | char (p : T → Prop)

namespace Cfg

variable {N T : Type} {P : N → Set (List (Sym N T))}

/-- The words of a sequence of symbols; `P` has the alternatives of every non-terminal. -/
inductive Derives (P : N → Set (List (Sym N T))) : List (Sym N T) → List T → Prop where
  | nil : Derives P [] []
  | char (hc : p c) (h : Derives P ss w) : Derives P (.char p :: ss) (c :: w)
  | ref (halt : alt ∈ P n) (hu : Derives P alt u) (hw : Derives P ss w) :
      Derives P (.ref n :: ss) (u ++ w)

theorem Derives.append (h : Derives P ss u) (h' : Derives P ss' w) :
    Derives P (ss ++ ss') (u ++ w) := by
  induction h with
  | nil => exact h'
  | char hc _ ih => exact .char hc ih
  | ref halt hu _ _ ih =>
    rw [List.append_assoc]
    exact .ref halt hu ih

theorem derives_append : Derives P (ss ++ ss') w ↔
    ∃ u v, w = u ++ v ∧ Derives P ss u ∧ Derives P ss' v := by
  constructor
  · intro h
    induction ss generalizing w with
    | nil => exact ⟨[], w, rfl, .nil, h⟩
    | cons s ss ih =>
      cases h with
      | char hc h =>
        obtain ⟨u, v, rfl, hu, hv⟩ := ih h
        exact ⟨_ :: u, v, rfl, .char hc hu, hv⟩
      | ref halt hu h =>
        obtain ⟨u', v, rfl, hu', hv⟩ := ih h
        exact ⟨_ ++ u', v, (List.append_assoc _ _ _).symm, .ref halt hu hu', hv⟩
  · rintro ⟨u, v, rfl, hu, hv⟩
    exact hu.append hv

theorem derives_nil : Derives P [] w ↔ w = [] := by
  constructor
  · intro h
    cases h
    rfl
  · rintro rfl
    exact .nil

theorem derives_char_cons : Derives P (.char p :: ss) (c :: w) ↔ p c ∧ Derives P ss w := by
  constructor
  · intro h
    cases h with
    | char hc h => exact ⟨hc, h⟩
  · exact fun h => .char h.1 h.2

theorem not_derives_char : ¬ Derives P (.char p :: ss) [] := by
  intro h
  cases h

/-- A non-terminal is replaced by one of its alternatives. -/
theorem derives_ref : Derives P (.ref n :: ss) w ↔ ∃ alt ∈ P n, Derives P (alt ++ ss) w := by
  constructor
  · intro h
    generalize hs : Sym.ref n :: ss = ss' at h
    cases h with
    | nil => cases hs
    | char => cases hs
    | ref halt hu h =>
      cases hs
      exact ⟨_, halt, hu.append h⟩
  · rintro ⟨alt, halt, h⟩
    obtain ⟨u, v, rfl, hu, hv⟩ := derives_append.1 h
    exact .ref halt hu hv

/-- One expansion of the first symbol. -/
inductive Expand (P : N → Set (List (Sym N T))) : List (Sym N T) → List (Sym N T) → Prop where
  | ref (halt : alt ∈ P n) : Expand P (.ref n :: ss) (alt ++ ss)

/-- Every way to expand the symbols ends. -/
def Halts (P : N → Set (List (Sym N T))) (ss : List (Sym N T)) : Prop :=
  Acc (fun ss' ss => Expand P ss ss') ss

theorem halts_nil : Halts P [] := ⟨[], fun _ h => nomatch h⟩

theorem halts_char : Halts P (.char p :: ss) := ⟨_, fun _ h => nomatch h⟩

theorem halts_ref : Halts P (.ref n :: ss) ↔ ∀ alt ∈ P n, Halts P (alt ++ ss) := by
  constructor
  · exact fun h alt halt => h.inv (.ref halt)
  · refine fun h => ⟨_, fun ss' hexp => ?_⟩
    generalize hs : Sym.ref n :: ss = ss₀ at hexp
    cases hexp with
    | ref halt =>
      cases hs
      exact h _ halt

/-- The non-terminals an expansion of `n` comes to before the first terminal. -/
def LeftCorner (P : N → Set (List (Sym N T))) (n n' : N) : Prop :=
  ∃ alt ∈ P n, ∃ before after, alt = before ++ .ref n' :: after ∧ Derives P before []

/-- No non-terminal comes back to itself. -/
def NoLeftRecursion (P : N → Set (List (Sym N T))) : Prop :=
  ∀ n, ¬ Relation.TransGen (LeftCorner P) n n

/-- What is left of an alternative behind an empty part halts where the non-terminals to come
do. -/
theorem halts_suffix (before : List (Sym N T))
    (hn : ∀ n', LeftCorner P n n' → ∀ ss, (Derives P [.ref n'] [] → Halts P ss) →
      Halts P (.ref n' :: ss))
    (halt : before ++ after ∈ P n) (hbefore : Derives P before [])
    (h : Derives P after [] → Halts P ss) : Halts P (after ++ ss) := by
  induction after generalizing before with
  | nil => exact h .nil
  | cons s after ih =>
    cases s with
    | char p => exact halts_char
    | ref n' =>
      apply hn n' ⟨_, halt, before, after, rfl, hbefore⟩
      intro hn'
      have hmove : before ++ .ref n' :: after = before ++ [.ref n'] ++ after := by
        rw [List.append_assoc, List.singleton_append]
      rw [hmove] at halt
      apply ih _ halt (hbefore.append hn')
      exact fun hafter => h (hn'.append hafter)

/-- Behind a part that may be empty comes what follows it. -/
theorem expand_empty (h : Derives P ss w) (hw : w = []) :
    Relation.ReflTransGen (Expand P) (ss ++ ss') ss' := by
  induction h generalizing ss' with
  | nil => exact .refl
  | char => cases hw
  | ref halt _ _ ihu ihw =>
    obtain ⟨rfl, rfl⟩ := List.append_eq_nil_iff.1 hw
    exact .head (.ref halt) ((ihu rfl).trans (ihw rfl))

theorem expand_leftCorner (h : LeftCorner P n n') (ss : List (Sym N T)) :
    ∃ rest, Relation.TransGen (Expand P) (.ref n :: ss) (.ref n' :: rest) := by
  obtain ⟨alt, halt, before, after, rfl, hbefore⟩ := h
  refine ⟨after ++ ss, .head' (.ref halt) ?_⟩
  rw [List.append_assoc]
  exact expand_empty hbefore rfl

theorem expand_transGen (h : Relation.TransGen (LeftCorner P) n n') :
    ∀ ss, ∃ rest, Relation.TransGen (Expand P) (.ref n :: ss) (.ref n' :: rest) := by
  induction h with
  | single h => exact expand_leftCorner h
  | tail _ h ih =>
    intro ss
    obtain ⟨mid, hmid⟩ := ih ss
    obtain ⟨rest, hrest⟩ := expand_leftCorner h mid
    exact ⟨rest, hmid.trans hrest⟩

/-- A set of sequences that keeps what they expand to. -/
def Closed (P : N → Set (List (Sym N T))) (Q : Set (List (Sym N T))) : Prop :=
  ∀ ss ∈ Q, ∀ ss', Expand P ss ss' → ss' ∈ Q

theorem Closed.reflTransGen (hQ : Closed P Q) (hss : ss ∈ Q)
    (h : Relation.ReflTransGen (Expand P) ss ss') : ss' ∈ Q := by
  induction h with
  | refl => exact hss
  | tail _ hexp ih => exact hQ _ ih _ hexp

/-- `n` comes to the front of a sequence of the set. -/
def Leads (Q : Set (List (Sym N T))) (n : N) : Prop := ∃ rest, .ref n :: rest ∈ Q

theorem Closed.leads (hQ : Closed P Q) (hn : Leads Q n) (h : LeftCorner P n n') : Leads Q n' := by
  obtain ⟨rest, hrest⟩ := hn
  obtain ⟨rest', hexp⟩ := expand_leftCorner h rest
  exact ⟨rest', hQ.reflTransGen hrest hexp.to_reflTransGen⟩

/-- Where no non-terminal that comes to the front starts an endless chain of left corners, every
expansion ends. -/
theorem halts_of_wellFounded (hQ : Closed P Q)
    (hwf : WellFounded fun n' n => LeftCorner P n n' ∧ Leads Q n) : ∀ ss ∈ Q, Halts P ss := by
  have hone : ∀ n, Leads Q n → ∀ ss, (Derives P [.ref n] [] → Halts P ss) →
      Halts P (.ref n :: ss) := by
    intro n
    induction n using hwf.induction with
    | h n ih =>
      intro hn ss h
      rw [halts_ref]
      intro alt halt
      apply halts_suffix [] (fun n' hn' => ih n' ⟨hn', hn⟩ (hQ.leads hn hn')) halt .nil
      intro hempty
      apply h
      exact derives_ref.2 ⟨alt, halt, derives_append.2 ⟨[], [], rfl, hempty, .nil⟩⟩
  intro ss hss
  induction ss with
  | nil => exact halts_nil
  | cons s ss ih =>
    cases s with
    | char p => exact halts_char
    | ref n =>
      apply hone n ⟨ss, hss⟩ ss
      intro hempty
      have hexp : Relation.ReflTransGen (Expand P) ([.ref n] ++ ss) ss := expand_empty hempty rfl
      exact ih (hQ.reflTransGen hss hexp)

/-- A non-terminal that comes back to itself is expanded without an end. -/
theorem not_halts (h : Relation.TransGen (LeftCorner P) n n) (ss : List (Sym N T)) :
    ¬ Halts P (.ref n :: ss) := by
  intro hacc
  have hloop : ∀ x, Acc (Relation.TransGen fun ss' ss => Expand P ss ss') x →
      ∀ ss, x ≠ .ref n :: ss := by
    intro x hx
    induction hx with
    | intro x _ ih =>
      rintro ss rfl
      obtain ⟨rest, hrest⟩ := expand_transGen h ss
      exact ih _ (Relation.transGen_swap.2 hrest) rest rfl
  exact hloop _ hacc.transGen ss rfl

/-- A relation within a finite set is well-founded where it has no cycle. -/
theorem wellFounded_of_acyclic {R : N → N → Prop} {s : Set N} (hs : s.Finite)
    (hR : ∀ a b, R a b → a ∈ s ∧ b ∈ s) (h : ∀ a, ¬ Relation.TransGen R a a) :
    WellFounded fun b a => R a b := by
  have hfin : Finite s := hs
  let below : s → s → Prop := fun b a => Relation.TransGen R a.1 b.1
  have htrans : IsTrans s below := ⟨fun _ _ _ hab hbc => Relation.TransGen.trans hbc hab⟩
  have hirrefl : Std.Irrefl below := ⟨fun a => h a.1⟩
  have hwf : WellFounded below := Finite.wellFounded_of_trans_of_irrefl below
  have hin : ∀ a : s, Acc (fun b a => R a b) a.1 := by
    intro a
    induction a using hwf.induction with
    | h a ih => exact ⟨_, fun b hab => ih ⟨b, (hR _ _ hab).2⟩ (.single hab)⟩
  exact ⟨fun a => ⟨_, fun b hab => hin ⟨b, (hR a b hab).2⟩⟩⟩

/-- The sequences of a closed set halt exactly where no non-terminal that comes to their front
comes back to itself. -/
theorem halts_on_iff {s : Set N} (hs : s.Finite) (hP : ∀ n n', LeftCorner P n n' → n ∈ s ∧ n' ∈ s)
    (hQ : Closed P Q) : (∀ ss ∈ Q, Halts P ss) ↔
      ∀ n, Leads Q n → ¬ Relation.TransGen (LeftCorner P) n n := by
  constructor
  · rintro h n ⟨rest, hrest⟩ hn
    exact not_halts hn rest (h _ hrest)
  · intro h
    apply halts_of_wellFounded hQ
    apply wellFounded_of_acyclic hs fun a b hab => hP a b hab.1
    intro a ha
    have hcycle : Relation.TransGen (LeftCorner P) a a := Relation.TransGen.mono (fun _ _ h => h.1) _ _ ha
    obtain ⟨b, hab, -⟩ := Relation.TransGen.head'_iff.1 ha
    exact h a hab.2 hcycle

/-- The sequences that come up while a word is read: what is in front is expanded, or read where
its class has a character. -/
inductive Front (P : N → Set (List (Sym N T))) (ss : List (Sym N T)) : List (Sym N T) → Prop where
  | refl : Front P ss ss
  | expand (h : Front P ss ss') (hexp : Expand P ss' ss'') : Front P ss ss''
  | read (h : Front P ss (.char p :: ss')) (hp : ∃ c, p c) : Front P ss ss'

/-- These, and what comes up behind one class more, whether it has a character or not. -/
def Seen (P : N → Set (List (Sym N T))) (ss : List (Sym N T)) : Set (List (Sym N T)) :=
  {ss' | Front P ss ss' ∨
    ∃ p rest, Front P ss (.char p :: rest) ∧ Relation.ReflTransGen (Expand P) rest ss'}

theorem closed_seen : Closed P (Seen P ss) := by
  rintro ss' (h | ⟨p, rest, h, hrest⟩) ss'' hexp
  · exact .inl (.expand h hexp)
  · exact .inr ⟨p, rest, h, hrest.tail hexp⟩

end Cfg

/-! Languages of symbol sequences, and the non-terminals that stand for repetitions. -/

namespace Cfg

variable {N T : Type} {P : N → Set (List (Sym N T))}

/-- The words of a sequence of symbols, as a language. -/
def language (P : N → Set (List (Sym N T))) (ss : List (Sym N T)) : Language T :=
  {w | Derives P ss w}

theorem mem_language {w : List T} : w ∈ language P ss ↔ Derives P ss w := Iff.rfl

theorem language_nil : language P [] = 1 := by
  ext w
  exact derives_nil.trans (Language.mem_one w).symm

theorem language_append : language P (ss ++ ss') = language P ss * language P ss' := by
  ext w
  rw [mem_language, derives_append, Language.mem_mul]
  constructor
  · rintro ⟨u, v, rfl, hu, hv⟩
    exact ⟨u, hu, v, hv, rfl⟩
  · rintro ⟨u, hu, v, hv, rfl⟩
    exact ⟨u, v, rfl, hu, hv⟩

theorem language_replicate (k : Nat) :
    language P (List.replicate k ss).flatten = language P ss ^ k := by
  induction k with
  | zero =>
    rw [pow_zero]
    exact language_nil
  | succ k ih => rw [List.replicate_succ, List.flatten_cons, language_append, ih, pow_succ']

theorem mem_language_ref {w : List T} :
    w ∈ language P [.ref n] ↔ ∃ alt ∈ P n, w ∈ language P alt := by
  rw [mem_language, derives_ref]
  simp only [List.append_nil]
  exact Iff.rfl

/-- A non-terminal that is itself behind a sequence, or nothing. -/
theorem language_star (h : P n = {ss ++ [.ref n], []}) :
    language P [.ref n] = KStar.kstar (language P ss) := by
  have hunfold {xs : List (Sym N T)} {w : List T} (hw : Derives P xs w) :
      ∀ pre, xs = pre ++ [.ref n] → w ∈ language P pre * KStar.kstar (language P ss) := by
    induction hw with
    | nil => exact fun pre hpre => absurd hpre.symm (List.append_ne_nil_of_right_ne_nil _ (by simp))
    | @char p ss' w' c hc hw ih =>
      intro pre hpre
      cases pre with
      | nil => cases hpre
      | cons s pre =>
        obtain ⟨rfl, hrest⟩ := List.cons.inj hpre
        obtain ⟨u, hu, v, hv, rfl⟩ := Language.mem_mul.1 (ih pre hrest)
        exact Language.mem_mul.2 ⟨c :: u, .char hc hu, v, hv, rfl⟩
    | @ref alt m u ss' w' halt hu hw ihu ihw =>
      intro pre hpre
      cases pre with
      | nil =>
        obtain ⟨hm, rfl⟩ := List.cons.inj hpre
        cases hm
        obtain rfl := derives_nil.1 hw
        rw [h] at halt
        rw [List.append_nil, language_nil, one_mul]
        rcases halt with rfl | rfl
        · obtain ⟨u', hu', v, hv, rfl⟩ := Language.mem_mul.1 (ihu ss rfl)
          have hmem := Language.append_mem_mul hu' hv
          rw [← Language.one_add_self_mul_kstar_eq_kstar]
          exact .inr hmem
        · rw [derives_nil.1 hu]
          exact Language.nil_mem_kstar _
      | cons s pre =>
        obtain ⟨rfl, hrest⟩ := List.cons.inj hpre
        obtain ⟨u', hu', v, hv, rfl⟩ := Language.mem_mul.1 (ihw pre hrest)
        rw [← List.append_assoc]
        exact Language.append_mem_mul (.ref halt hu hu') hv
  ext w
  constructor
  · intro hw
    have hmem := hunfold hw [] rfl
    rwa [language_nil, one_mul] at hmem
  · rintro ⟨pieces, rfl, hpieces⟩
    induction pieces with
    | nil =>
      refine mem_language_ref.2 ⟨[], ?_, .nil⟩
      rw [h]
      exact .inr rfl
    | cons u pieces ih =>
      obtain ⟨hu, hpieces⟩ := List.forall_mem_cons.1 hpieces
      refine mem_language_ref.2 ⟨ss ++ [.ref n], ?_, ?_⟩
      · rw [h]
        exact .inl rfl
      · rw [language_append]
        exact Language.append_mem_mul hu (ih hpieces)

/-- Non-terminals in a row: each is a sequence and the one before it, or nothing. -/
theorem mem_language_optional (ref : Nat → N) (hzero : P (ref 0) = {ss, []})
    (hsucc : ∀ i < j, P (ref (i + 1)) = {ss ++ [.ref (ref i)], []}) {w : List T} :
    w ∈ language P [.ref (ref j)] ↔ ∃ k ≤ j + 1, w ∈ language P ss ^ k := by
  induction j generalizing w with
  | zero =>
    rw [mem_language_ref, hzero]
    constructor
    · rintro ⟨alt, rfl | rfl, hw⟩
      · exact ⟨1, le_refl _, by rwa [pow_one]⟩
      · exact ⟨0, Nat.zero_le _, by rwa [pow_zero, ← language_nil (P := P)]⟩
    · rintro ⟨k, hk, hw⟩
      cases k with
      | zero => exact ⟨[], .inr rfl, by rwa [pow_zero, ← language_nil (P := P)] at hw⟩
      | succ k =>
        obtain rfl : k = 0 := by omega
        exact ⟨ss, .inl rfl, by rwa [Nat.zero_add, pow_one] at hw⟩
  | succ j ih =>
    have hprev (w : List T) := ih (w := w) fun i hi => hsucc i (Nat.lt_succ_of_lt hi)
    rw [mem_language_ref, hsucc j (Nat.lt_succ_self j)]
    constructor
    · rintro ⟨alt, rfl | rfl, hw⟩
      · rw [language_append] at hw
        obtain ⟨u, hu, v, hv, rfl⟩ := Language.mem_mul.1 hw
        obtain ⟨k, hk, hv⟩ := (hprev v).1 hv
        exact ⟨k + 1, Nat.succ_le_succ hk, by
          rw [pow_succ']
          exact Language.append_mem_mul hu hv⟩
      · exact ⟨0, Nat.zero_le _, by rwa [pow_zero, ← language_nil (P := P)]⟩
    · rintro ⟨k, hk, hw⟩
      cases k with
      | zero => exact ⟨[], .inr rfl, by rwa [pow_zero, ← language_nil (P := P)] at hw⟩
      | succ k =>
        rw [pow_succ'] at hw
        obtain ⟨u, hu, v, hv, rfl⟩ := Language.mem_mul.1 hw
        refine ⟨ss ++ [.ref (ref j)], .inl rfl, ?_⟩
        rw [language_append]
        exact Language.append_mem_mul hu ((hprev v).2 ⟨k, Nat.succ_le_succ_iff.1 hk, hv⟩)

/-- Repetitions in a row, and optional ones behind them. -/
theorem mem_pow_mul {l : Language T} {Q : Nat → Prop} {l' : Language T}
    (h : ∀ w : List T, w ∈ l' ↔ ∃ k, Q k ∧ w ∈ l ^ k) (m : Nat) {w : List T} :
    w ∈ l ^ m * l' ↔ ∃ k, Q k ∧ w ∈ l ^ (m + k) := by
  rw [Language.mem_mul]
  constructor
  · rintro ⟨u, hu, v, hv, rfl⟩
    obtain ⟨k, hk, hv⟩ := (h v).1 hv
    exact ⟨k, hk, by
      rw [pow_add]
      exact Language.append_mem_mul hu hv⟩
  · rintro ⟨k, hk, hw⟩
    rw [pow_add] at hw
    obtain ⟨u, hu, v, hv, rfl⟩ := Language.mem_mul.1 hw
    exact ⟨u, hu, v, (h v).2 ⟨k, hk, hv⟩, rfl⟩

end Cfg

end ActQuant.Lib
