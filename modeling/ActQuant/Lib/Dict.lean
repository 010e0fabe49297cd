import Mathlib.Data.List.Induction
import Mathlib.Data.List.Nodup
import Mathlib.Order.Bounds.Basic

namespace ActQuant.Lib

/-- A dictionary with its entries in the order in which the keys were first written. -/
abbrev Dict (κ β : Type) := List (κ × β)

namespace Dict

variable {ι κ β : Type} {key : ι → κ} {ts : List ι}

/-- The dictionary with one entry for each item. -/
def ofKeys (key : ι → κ) (f : ι → β) (ts : List ι) : Dict κ β := ts.map fun t => (key t, f t)

@[simp] theorem ofKeys_keys (f : ι → β) : (ofKeys key f ts).map Prod.fst = ts.map key := by
  rw [ofKeys, List.map_map]
  rfl

theorem ofKeys_append (f : ι → β) (ts us : List ι) :
    ofKeys key f (ts ++ us) = ofKeys key f ts ++ ofKeys key f us := List.map_append

variable [DecidableEq κ]

/-- `d[k] = v`. -/
def set (k : κ) (v : β) : Dict κ β → Dict κ β
  | [] => [(k, v)]
  | e :: d => if e.1 = k then (k, v) :: d else e :: set k v d

/-- `d.setdefault(k, []).append(v)`. -/
def append (k : κ) (v : β) : Dict κ (List β) → Dict κ (List β)
  | [] => [(k, [v])]
  | e :: d => if e.1 = k then (e.1, e.2 ++ [v]) :: d else e :: append k v d

theorem set_of_fresh {d : Dict κ β} (h : k ∉ d.map Prod.fst) : set k v d = d ++ [(k, v)] := by
  induction d with
  | nil => rfl
  | cons e d ih =>
    rw [List.map_cons, List.mem_cons, not_or] at h
    rw [set, if_neg (Ne.symm h.1), ih h.2, List.cons_append]

theorem mem_keys_set (d : Dict κ β) (k : κ) (v : β) : k ∈ (set k v d).map Prod.fst := by
  induction d with
  | nil => exact .head _
  | cons e d ih =>
    rw [set]
    split
    · exact .head _
    · exact .tail _ ih

theorem mem_set_of_ne {d : Dict κ β} (h : e ∈ d) (hne : e.1 ≠ k) : e ∈ set k v d := by
  induction d with
  | nil => exact absurd h (List.not_mem_nil)
  | cons e' d ih =>
    rw [set]
    split
    case isTrue heq =>
      rcases List.mem_cons.1 h with rfl | h
      · exact absurd heq hne
      · exact .tail _ h
    case isFalse =>
      rcases List.mem_cons.1 h with rfl | h
      · exact .head _
      · exact .tail _ (ih h)

theorem mem_keys_set_of_mem {d : Dict κ β} (h : k' ∈ d.map Prod.fst) (k : κ) (v : β) :
    k' ∈ (set k v d).map Prod.fst := by
  by_cases heq : k' = k
  · subst heq
    exact mem_keys_set d _ v
  · obtain ⟨e, he, rfl⟩ := List.mem_map.1 h
    exact List.mem_map_of_mem (mem_set_of_ne he heq)

theorem lookup_set [BEq κ] [LawfulBEq κ] {d : Dict κ β} (k k' : κ) (v : β) :
    (set k v d).lookup k' = if k' = k then some v else d.lookup k' := by
  have hcons (e : κ × β) (d : Dict κ β) :
      List.lookup k' (e :: d) = if k' = e.1 then some e.2 else d.lookup k' := by
    by_cases hk : k' = e.1
    · subst hk
      rw [if_pos rfl, List.lookup_cons_self]
    · rw [if_neg hk, List.lookup_cons, beq_false_of_ne hk]
  induction d with
  | nil => rw [set, hcons]
  | cons e d ih =>
    rw [set]
    by_cases he : e.1 = k
    · rw [if_pos he, hcons, hcons]
      split
      case isTrue => rfl
      case isFalse hk => rw [if_neg (by rwa [he])]
    · rw [if_neg he, hcons, hcons, ih]
      split
      case isTrue hk => rw [if_neg (by rwa [hk])]
      case isFalse => rfl

theorem lookup_filter_ne [BEq κ] [LawfulBEq κ] (d : Dict κ β) (k k' : κ) :
    List.lookup k' (d.filter fun e => e.1 ≠ k) = if k' = k then none else d.lookup k' := by
  induction d with
  | nil => exact (ite_self none).symm
  | cons e d ih =>
    by_cases he : e.1 = k
    · rw [List.filter_cons_of_neg (by simpa using he), ih]
      split
      case isTrue => rfl
      case isFalse hk => rw [List.lookup_cons, beq_false_of_ne (by rwa [he])]
    · rw [List.filter_cons_of_pos (by simpa using he), List.lookup_cons, List.lookup_cons, ih]
      by_cases hk : k' = e.1
      · subst hk
        simp only [beq_self_eq_true, if_neg he]
      · rw [beq_false_of_ne hk]

/-- Of the items written under a key the last one is found. -/
theorem lookup_foldl_set [BEq κ] [LawfulBEq κ] (f : ι → Option κ) (v : ι → β) (ts : List ι)
    (k : κ) :
    (ts.foldl (fun d t => match f t with | some k => set k (v t) d | none => d) []).lookup k =
      (ts.filter fun t => f t = some k).getLast?.map v := by
  induction ts using List.reverseRecOn with
  | nil => rfl
  | append_singleton ts t ih =>
    rw [List.foldl_append, List.foldl_cons, List.foldl_nil, List.filter_append]
    cases hf : f t with
    | none =>
      rw [List.filter_cons_of_neg (by simp [hf]), List.filter_nil, List.append_nil]
      exact ih
    | some k' =>
      rw [lookup_set]
      by_cases hk : k = k'
      · subst hk
        rw [if_pos rfl, List.filter_cons_of_pos (by simp [hf]), List.filter_nil,
          List.getLast?_concat, Option.map_some]
      · have hne : f t ≠ some k := by
          rw [hf]
          exact fun h => hk (Option.some.inj h).symm
        rw [if_neg hk, List.filter_cons_of_neg (by simpa using hne), List.filter_nil,
          List.append_nil]
        exact ih

/-- Written item by item, a key has the value that all items with that key have. -/
theorem lookup_foldl_set_of_mem [BEq κ] [LawfulBEq κ] {v : ι → β} {t : ι} (ht : t ∈ ts)
    (hsame : ∀ u ∈ ts, key u = key t → v u = v t) :
    (ts.foldl (fun d u => set (key u) (v u) d) []).lookup (key t) = some (v t) := by
  rw [lookup_foldl_set (fun u => some (key u)) v ts (key t)]
  cases hlast : (ts.filter fun u => some (key u) = some (key t)).getLast? with
  | none =>
    have hnil := List.getLast?_eq_none_iff.1 hlast
    have hmem : t ∈ ts.filter fun u => some (key u) = some (key t) :=
      List.mem_filter.2 ⟨ht, decide_eq_true rfl⟩
    rw [hnil] at hmem
    cases hmem
  | some u =>
    obtain ⟨hu, hkey⟩ := List.mem_filter.1 (List.mem_of_getLast? hlast)
    rw [Option.map_some, hsame u hu (Option.some.inj (of_decide_eq_true hkey))]

/-- The values that the items that count give a key. -/
def valuesAt (f : ι → κ) (p : ι → Prop) (v : ι → β) (ts : List ι) (k : κ) : Set β :=
  {b | ∃ t ∈ ts, p t ∧ f t = k ∧ v t = b}

omit [DecidableEq κ] in
theorem valuesAt_concat (f : ι → κ) (p : ι → Prop) (v : ι → β) (ts : List ι) (t : ι) (k : κ) :
    valuesAt f p v (ts ++ [t]) k =
      valuesAt f p v ts k ∪ {b | p t ∧ f t = k ∧ v t = b} := by
  ext b
  constructor
  · rintro ⟨u, hu, hval⟩
    obtain hu | hu := List.mem_append.1 hu
    · exact .inl ⟨u, hu, hval⟩
    · cases List.mem_singleton.1 hu
      exact .inr hval
  · rintro (⟨u, hu, hval⟩ | hval)
    · exact ⟨u, List.mem_append_left _ hu, hval⟩
    · exact ⟨t, List.mem_append_right _ List.mem_cons_self, hval⟩

/-- At a key a dictionary has the greatest of some values, and nothing where there are none. -/
def HasGreatest [BEq κ] [LE β] (d : Dict κ β) (k : κ) (values : Set β) : Prop :=
  (d.lookup k = none → values = ∅) ∧ ∀ b, d.lookup k = some b → IsGreatest values b

omit [DecidableEq κ] in
theorem HasGreatest.lookup_eq_some [BEq κ] [PartialOrder β] {d : Dict κ β} {values : Set β}
    (h : d.HasGreatest k values) : d.lookup k = some b ↔ IsGreatest values b := by
  constructor
  · exact h.2 b
  · intro hb
    cases hd : d.lookup k with
    | none =>
      rw [h.1 hd] at hb
      exact hb.1.elim
    | some c => rw [(h.2 c hd).unique hb]

/-- A value is written only over a smaller one. -/
def setMax [BEq κ] [LinearOrder β] (k : κ) (b : β) (d : Dict κ β) : Dict κ β :=
  if (d.lookup k).all (· < b) then set k b d else d

theorem hasGreatest_setMax [BEq κ] [LawfulBEq κ] [LinearOrder β] {d : Dict κ β} {values : Set β}
    (h : d.HasGreatest k values) (b : β) : (d.setMax k b).HasGreatest k (values ∪ {b}) := by
  rw [setMax]
  cases hd : d.lookup k with
  | none =>
    rw [Option.all_none, if_pos rfl, HasGreatest, lookup_set, if_pos rfl, h.1 hd, Set.empty_union]
    refine ⟨fun h => (by cases h), fun c hc => ?_⟩
    cases hc
    exact isGreatest_singleton
  | some c =>
    have hmax := (h.2 c hd).union (isGreatest_singleton (a := b))
    by_cases hlt : c < b
    · rw [max_eq_right hlt.le] at hmax
      rw [Option.all_some, if_pos (decide_eq_true hlt), HasGreatest, lookup_set, if_pos rfl]
      refine ⟨fun h => (by cases h), fun _ he => ?_⟩
      cases he
      exact hmax
    · rw [max_eq_left (not_lt.1 hlt)] at hmax
      rw [Option.all_some, if_neg fun h => hlt (of_decide_eq_true h), HasGreatest, hd]
      refine ⟨fun h => (by cases h), fun _ he => ?_⟩
      cases he
      exact hmax

theorem lookup_setMax_of_ne [BEq κ] [LawfulBEq κ] [LinearOrder β] {d : Dict κ β} (h : k' ≠ k)
    (b : β) : (d.setMax k b).lookup k' = d.lookup k' := by
  rw [setMax]
  split
  case isTrue => rw [lookup_set, if_neg h]
  case isFalse => rfl

/-- What stays of the values that are written so is the greatest. -/
theorem hasGreatest_foldl_setMax [BEq κ] [LawfulBEq κ] [LinearOrder β] (f : ι → κ) (p : ι → Prop)
    [DecidablePred p] (v : ι → β) (ts : List ι) (k : κ) :
    HasGreatest (ts.foldl (fun d t => if p t then setMax (f t) (v t) d else d) []) k
      (valuesAt f p v ts k) := by
  induction ts using List.reverseRecOn with
  | nil =>
    refine ⟨fun _ => ?_, fun b h => by cases h⟩
    rw [Set.eq_empty_iff_forall_notMem]
    rintro b ⟨t, ht, _⟩
    cases ht
  | append_singleton ts t ih =>
    rw [List.foldl_append, List.foldl_cons, List.foldl_nil, valuesAt_concat]
    by_cases hnew : p t ∧ f t = k
    · obtain ⟨hp, rfl⟩ := hnew
      have hset : {b | p t ∧ f t = f t ∧ v t = b} = {v t} := by
        ext b
        exact ⟨fun h => h.2.2.symm, fun h => ⟨hp, rfl, h.symm⟩⟩
      rw [if_pos hp, hset]
      exact hasGreatest_setMax ih (v t)
    · have hset : {b | p t ∧ f t = k ∧ v t = b} = ∅ :=
        Set.eq_empty_iff_forall_notMem.2 fun b h => hnew ⟨h.1, h.2.1⟩
      rw [hset, Set.union_empty]
      split
      case isTrue h =>
        rw [HasGreatest, lookup_setMax_of_ne fun hk => hnew ⟨h, hk.symm⟩]
        exact ih
      case isFalse => exact ih

theorem append_of_fresh {d : Dict κ (List β)} (h : k ∉ d.map Prod.fst) (d' : Dict κ (List β)) :
    append k v (d ++ d') = d ++ append k v d' := by
  induction d with
  | nil => rfl
  | cons e d ih =>
    rw [List.map_cons, List.mem_cons, not_or] at h
    rw [List.cons_append, append, if_neg (Ne.symm h.1), ih h.2, List.cons_append]

theorem foldl_set {f : ι → β} {d : Dict κ β} (h : (d.map Prod.fst ++ ts.map key).Nodup) :
    ts.foldl (fun d t => set (key t) (f t) d) d = d ++ ofKeys key f ts := by
  induction ts generalizing d with
  | nil => exact (List.append_nil d).symm
  | cons t ts ih =>
    have hfresh : key t ∉ d.map Prod.fst := by
      intro hmem
      exact List.disjoint_of_nodup_append h hmem (.head _)
    rw [List.foldl_cons, set_of_fresh hfresh, ih, ofKeys, ofKeys, List.map_cons,
      List.append_assoc, List.singleton_append]
    rwa [List.map_append, List.map_singleton, List.append_assoc, List.singleton_append]

/-- Appending to every entry, in the order of the entries, from any point of it on. -/
theorem foldl_append_from {f : ι → List β} {v : ι → β} {d : Dict κ (List β)}
    (h : (d.map Prod.fst ++ ts.map key).Nodup) :
    ts.foldl (fun d t => append (key t) (v t) d) (d ++ ofKeys key f ts) =
      d ++ ofKeys key (fun t => f t ++ [v t]) ts := by
  induction ts generalizing d with
  | nil => rfl
  | cons t ts ih =>
    have hfresh : key t ∉ d.map Prod.fst := by
      intro hmem
      exact List.disjoint_of_nodup_append h hmem (.head _)
    have hstep : append (key t) (v t) (d ++ ofKeys key f (t :: ts)) =
        (d ++ [(key t, f t ++ [v t])]) ++ ofKeys key f ts := by
      rw [append_of_fresh hfresh, ofKeys, List.map_cons, append, if_pos rfl, List.append_assoc]
      rfl
    rw [List.foldl_cons, hstep, ih, List.append_assoc]
    · rfl
    · rwa [List.map_append, List.map_singleton, List.append_assoc, List.singleton_append]

theorem foldl_append (f : ι → List β) (v : ι → β) (h : (ts.map key).Nodup) :
    ts.foldl (fun d t => append (key t) (v t) d) (ofKeys key f ts) =
      ofKeys key (fun t => f t ++ [v t]) ts :=
  foldl_append_from (d := []) h

theorem foldl_append_nil {v : ι → β} {d : Dict κ (List β)}
    (h : (d.map Prod.fst ++ ts.map key).Nodup) :
    ts.foldl (fun d t => append (key t) (v t) d) d = d ++ ofKeys key (fun t => [v t]) ts := by
  induction ts generalizing d with
  | nil => exact (List.append_nil d).symm
  | cons t ts ih =>
    have hfresh : key t ∉ d.map Prod.fst := by
      intro hmem
      exact List.disjoint_of_nodup_append h hmem (.head _)
    have hstep := append_of_fresh (v := v t) hfresh []
    rw [List.append_nil] at hstep
    rw [List.foldl_cons, hstep, append, ih, ofKeys, ofKeys, List.map_cons, List.append_assoc,
      List.singleton_append]
    rwa [List.map_append, List.map_singleton, List.append_assoc, List.singleton_append]

/-- `for k, v in d.items(): acc.setdefault(k, []).append(v)`. -/
def appendAll (acc : Dict κ (List β)) (d : Dict κ β) : Dict κ (List β) :=
  d.foldl (fun acc e => append e.1 e.2 acc) acc

theorem appendAll_ofKeys (acc : Dict κ (List β)) (v : ι → β) :
    appendAll acc (ofKeys key v ts) =
      ts.foldl (fun d t => append (key t) (v t) d) acc := by
  rw [appendAll, ofKeys, List.foldl_map]

/-- Dictionaries with the same keys are merged entry by entry. -/
theorem foldl_appendAll {α : Type} (v : α → ι → β) (h : (ts.map key).Nodup) {ws : List α}
    (hne : ws ≠ []) :
    (ws.map fun w => ofKeys key (v w) ts).foldl appendAll [] =
      ofKeys key (fun t => ws.map fun w => v w t) ts := by
  have hrun (f : ι → List β) (ws : List α) :
      (ws.map fun w => ofKeys key (v w) ts).foldl appendAll (ofKeys key f ts) =
        ofKeys key (fun t => f t ++ ws.map fun w => v w t) ts := by
    induction ws generalizing f with
    | nil => simp only [List.map_nil, List.foldl_nil, List.append_nil]
    | cons w ws ih =>
      simp only [List.map_cons, List.foldl_cons, appendAll_ofKeys, foldl_append f (v w) h, ih,
        List.append_assoc, List.singleton_append]
  cases ws with
  | nil => exact absurd rfl hne
  | cons w ws =>
    have hfirst := foldl_append_nil (d := []) (v := v w) h
    rw [List.nil_append] at hfirst
    rw [List.map_cons, List.foldl_cons, appendAll_ofKeys, hfirst, hrun]
    rfl

section Group
variable {α : Type} {val : ι → α}

/-- The items under their keys. -/
def groupBy (key : ι → κ) (val : ι → α) (ts : List ι) : Dict κ (List α) :=
  ts.foldl (fun d t => d.append (key t) (val t)) []

theorem mem_keys_append (d : Dict κ (List α)) (k : κ) (v : α) :
    k' ∈ (append k v d).map Prod.fst ↔ k' ∈ d.map Prod.fst ∨ k' = k := by
  induction d with
  | nil => simp [append]
  | cons e d ih =>
    rw [append]
    split
    case isTrue he =>
      subst he
      simp only [List.map_cons, List.mem_cons]
      tauto
    case isFalse =>
      simp only [List.map_cons, List.mem_cons, ih]
      tauto

theorem nodup_keys_append {d : Dict κ (List α)} (h : (d.map Prod.fst).Nodup) (k : κ) (v : α) :
    ((append k v d).map Prod.fst).Nodup := by
  induction d with
  | nil => exact List.nodup_singleton k
  | cons e d ih =>
    obtain ⟨he, hd⟩ := List.nodup_cons.1 h
    rw [append]
    split
    case isTrue => exact h
    case isFalse hne =>
      refine List.nodup_cons.2 ⟨?_, ih hd⟩
      rw [mem_keys_append, not_or]
      exact ⟨he, hne⟩

theorem mem_append_entry {d : Dict κ (List α)} (h : (d.map Prod.fst).Nodup)
    (he : e ∈ append k v d) :
    (e.1 ≠ k ∧ e ∈ d) ∨
      e.1 = k ∧ ∃ vs, e.2 = vs ++ [v] ∧ ((k, vs) ∈ d ∨ k ∉ d.map Prod.fst ∧ vs = []) := by
  induction d with
  | nil =>
    rw [append, List.mem_singleton] at he
    subst he
    exact .inr ⟨rfl, [], rfl, .inr ⟨List.not_mem_nil, rfl⟩⟩
  | cons e' d ih =>
    obtain ⟨hfresh, hd⟩ := List.nodup_cons.1 h
    rw [append] at he
    split at he
    case isTrue hk =>
      subst hk
      rcases List.mem_cons.1 he with rfl | he
      · exact .inr ⟨rfl, e'.2, rfl, .inl (.head _)⟩
      · refine .inl ⟨?_, .tail _ he⟩
        rintro hkey
        exact hfresh (hkey ▸ List.mem_map_of_mem he)
    case isFalse hk =>
      rcases List.mem_cons.1 he with rfl | he
      · exact .inl ⟨hk, .head _⟩
      · rcases ih hd he with ⟨hne, hmem⟩ | ⟨hkey, vs, hvs, hmem | ⟨hnone, hnil⟩⟩
        · exact .inl ⟨hne, .tail _ hmem⟩
        · exact .inr ⟨hkey, vs, hvs, .inl (.tail _ hmem)⟩
        · refine .inr ⟨hkey, vs, hvs, .inr ⟨?_, hnil⟩⟩
          rw [List.map_cons, List.mem_cons, not_or]
          exact ⟨fun h => hk h.symm, hnone⟩

/-- Every key has the values of its items, in their order. -/
theorem groupBy_spec (key : ι → κ) (val : ι → α) (ts : List ι) :
    ((groupBy key val ts).map Prod.fst).Nodup ∧
      (∀ k, k ∈ (groupBy key val ts).map Prod.fst ↔ k ∈ ts.map key) ∧
      ∀ e ∈ groupBy key val ts, e.2 = (ts.filter (key · = e.1)).map val := by
  induction ts using List.reverseRecOn with
  | nil => exact ⟨List.nodup_nil, fun _ => Iff.rfl, fun _ h => (nomatch h)⟩
  | append_singleton ts t ih =>
    obtain ⟨hnd, hkeys, hvals⟩ := ih
    have hstep : groupBy key val (ts ++ [t]) = (groupBy key val ts).append (key t) (val t) := by
      rw [groupBy, List.foldl_append]
      rfl
    rw [hstep]
    refine ⟨nodup_keys_append hnd _ _, ?_, ?_⟩
    · intro k
      rw [mem_keys_append, hkeys, List.map_append, List.mem_append, List.map_singleton,
        List.mem_singleton]
    · intro e he
      rw [List.filter_append, List.map_append]
      rcases mem_append_entry hnd he with ⟨hne, hmem⟩ | ⟨hkey, vs, hvs, hmem | ⟨hfresh, rfl⟩⟩
      · rw [List.filter_cons_of_neg (by simpa using Ne.symm hne), List.filter_nil, List.map_nil,
          List.append_nil, hvals e hmem]
      · rw [List.filter_cons_of_pos (by simpa using hkey.symm), List.filter_nil,
          List.map_singleton, hvs, hkey]
        exact congrArg (· ++ [val t]) (hvals _ hmem)
      · have hnone : ts.filter (key · = e.1) = [] := by
          rw [List.filter_eq_nil_iff]
          intro t' ht' hk
          rw [decide_eq_true_eq, hkey] at hk
          exact hfresh ((hkeys _).2 (hk ▸ List.mem_map_of_mem ht'))
        rw [List.filter_cons_of_pos (by simpa using hkey.symm), hnone, hvs]
        rfl

end Group

section Put
variable {d : Dict κ β}

/-- A key is set by removing it and adding it at the end. -/
def put (d : Dict κ β) (e : κ × β) : Dict κ β := d.eraseP (fun e' => e'.1 = e.1) ++ [e]

theorem eraseP_eq_filter (h : (d.map Prod.fst).Nodup) (k : κ) :
    d.eraseP (fun e => e.1 = k) = d.filter fun e => e.1 ≠ k := by
  induction d with
  | nil => rfl
  | cons e d ih =>
    obtain ⟨he, hd⟩ := List.nodup_cons.1 h
    by_cases hk : e.1 = k
    · subst hk
      have hrest : d.filter (fun e' => e'.1 ≠ e.1) = d := by
        rw [List.filter_eq_self]
        intro e' he'
        rw [decide_eq_true_eq]
        intro heq
        exact he (heq ▸ List.mem_map_of_mem he')
      rw [List.eraseP_cons_of_pos (by simp), List.filter_cons_of_neg (by simp), hrest]
    · rw [List.eraseP_cons_of_neg (by simpa using hk), List.filter_cons_of_pos (by simpa using hk),
        ih hd]

theorem put_eq (h : (d.map Prod.fst).Nodup) (e : κ × β) :
    put d e = d.filter (fun e' => e'.1 ≠ e.1) ++ [e] := by
  rw [put, eraseP_eq_filter h]

theorem nodup_put (h : (d.map Prod.fst).Nodup) (e : κ × β) : ((put d e).map Prod.fst).Nodup := by
  rw [put_eq h, List.map_append, List.map_singleton]
  have hsub : ((d.filter fun e' => e'.1 ≠ e.1).map Prod.fst).Sublist (d.map Prod.fst) :=
    List.filter_sublist.map _
  refine (h.sublist hsub).append (List.nodup_singleton _) ?_
  intro k hk hke
  rw [List.mem_singleton] at hke
  subst hke
  obtain ⟨e', he', hkey⟩ := List.mem_map.1 hk
  have hne := List.of_mem_filter he'
  rw [decide_eq_true_eq] at hne
  exact hne hkey

/-- Entries with distinct keys replace the old ones, in their own order. -/
theorem foldl_put (h : (d.map Prod.fst).Nodup) {es : List (κ × β)}
    (hes : (es.map Prod.fst).Nodup) :
    es.foldl put d = d.filter (fun e => e.1 ∉ es.map Prod.fst) ++ es := by
  induction es generalizing d with
  | nil => simp
  | cons e es ih =>
    obtain ⟨he, hes⟩ := List.nodup_cons.1 hes
    have hkeep : [e].filter (fun e' => e'.1 ∉ es.map Prod.fst) = [e] := by
      rw [List.filter_eq_self]
      intro e' he'
      rw [List.mem_singleton.1 he', decide_eq_true_eq]
      exact he
    rw [List.foldl_cons, ih (nodup_put h e) hes, put_eq h, List.filter_append, hkeep,
      List.append_assoc, List.singleton_append, List.filter_filter]
    congr 2
    funext e'
    simp only [List.map_cons, List.mem_cons, not_or, Bool.decide_and, Bool.and_comm]

theorem mem_of_mem_foldl_put {es : List (κ × β)} (h : e ∈ es.foldl put d) : e ∈ d ∨ e ∈ es := by
  induction es generalizing d with
  | nil => exact .inl h
  | cons e' es ih =>
    rcases ih h with h | h
    · rcases List.mem_append.1 h with h | h
      · exact .inl (List.mem_of_mem_eraseP h)
      · exact .inr (List.mem_cons.2 (.inl (List.mem_singleton.1 h)))
    · exact .inr (.tail _ h)

end Put

end Dict

/-- A map with its entries in some order, which nothing is promised about. -/
structure Hashmap (κ β : Type) where
  entries : List (κ × β)
  nodup : (entries.map Prod.fst).Nodup

namespace Hashmap

variable {κ β : Type} [DecidableEq κ]

def empty : Hashmap κ β := ⟨[], List.nodup_nil⟩

def find (m : Hashmap κ β) (k : κ) : Option β := m.entries.lookup k

theorem keys_set (k : κ) (v : β) (d : Dict κ β) :
    (Dict.set k v d).map Prod.fst =
      if k ∈ d.map Prod.fst then d.map Prod.fst else d.map Prod.fst ++ [k] := by
  induction d with
  | nil => rfl
  | cons e d ih =>
    rw [Dict.set]
    by_cases he : e.1 = k
    · rw [if_pos he, List.map_cons, List.map_cons, if_pos (List.mem_cons.2 (.inl he.symm)), ← he]
    · rw [if_neg he, List.map_cons, List.map_cons, ih]
      have hmem : k ∈ e.1 :: d.map Prod.fst ↔ k ∈ d.map Prod.fst := by
        rw [List.mem_cons, or_iff_right (Ne.symm he)]
      by_cases hk : k ∈ d.map Prod.fst
      · rw [if_pos hk, if_pos (hmem.2 hk)]
      · rw [if_neg hk, if_neg (mt hmem.1 hk), List.cons_append]

/-- The map with a value under a key, in place of the one that was there. -/
def insert (m : Hashmap κ β) (k : κ) (v : β) : Hashmap κ β where
  entries := Dict.set k v m.entries
  nodup := by
    rw [keys_set]
    split
    case isTrue => exact m.nodup
    case isFalse h =>
      rw [List.nodup_append]
      refine ⟨m.nodup, List.nodup_singleton k, ?_⟩
      rintro a ha b hb rfl
      rw [List.mem_singleton] at hb
      exact h (hb ▸ ha)

@[simp] theorem find_empty (k : κ) : (empty : Hashmap κ β).find k = none := rfl

theorem find_insert (m : Hashmap κ β) (k k' : κ) (v : β) :
    (m.insert k v).find k' = if k' = k then some v else m.find k' :=
  Dict.lookup_set k k' v

theorem lookup_of_mem {d : Dict κ β} (h : (d.map Prod.fst).Nodup) (he : (k, v) ∈ d) :
    d.lookup k = some v := by
  induction d with
  | nil => exact absurd he List.not_mem_nil
  | cons e d ih =>
    obtain ⟨hnot, hd⟩ := List.nodup_cons.1 h
    rcases List.mem_cons.1 he with rfl | he
    · exact List.lookup_cons_self
    · have hne : k ≠ e.1 := by
        rintro rfl
        exact hnot (List.mem_map.2 ⟨_, he, rfl⟩)
      rw [List.lookup_cons, beq_false_of_ne hne]
      exact ih hd he

theorem mem_of_lookup {d : Dict κ β} (h : d.lookup k = some v) : (k, v) ∈ d := by
  induction d with
  | nil => cases h
  | cons e d ih =>
    by_cases hk : k = e.1
    · subst hk
      rw [List.lookup_cons_self] at h
      cases h
      exact List.mem_cons_self
    · rw [List.lookup_cons, beq_false_of_ne hk] at h
      exact List.mem_cons_of_mem _ (ih h)

theorem find_eq_some {m : Hashmap κ β} : m.find k = some v ↔ (k, v) ∈ m.entries :=
  ⟨mem_of_lookup, lookup_of_mem m.nodup⟩

/-- The value is put under the key where the map has none. -/
def emplace (m : Hashmap κ β) (k : κ) (v : β) : Hashmap κ β :=
  match m.find k with
  | none => m.insert k v
  | some _ => m

theorem find_emplace (m : Hashmap κ β) (k k' : κ) (v : β) :
    (m.emplace k v).find k' = (m.find k').or (if k' = k then some v else none) := by
  rw [emplace]
  by_cases hk : k' = k
  · subst hk
    rw [if_pos rfl]
    cases hfind : m.find k' with
    | none => rw [find_insert, if_pos rfl, Option.none_or]
    | some old => rw [hfind, Option.some_or]
  · rw [if_neg hk, Option.or_none]
    cases m.find k with
    | none => rw [find_insert, if_neg hk]
    | some old => rfl

/-- Where entries are put one after the other, the first one under a key stays. -/
theorem find_foldl_emplace (m : Hashmap κ β) (es : List (κ × β)) (k : κ) :
    (es.foldl (fun m e => m.emplace e.1 e.2) m).find k = (m.find k).or (es.lookup k) := by
  induction es generalizing m with
  | nil => rw [List.foldl_nil, List.lookup_nil, Option.or_none]
  | cons e es ih =>
    rw [List.foldl_cons, ih, find_emplace, Option.or_assoc]
    congr 1
    by_cases hk : k = e.1
    · subst hk
      rw [if_pos rfl, List.lookup_cons_self, Option.some_or]
    · rw [if_neg hk, List.lookup_cons, beq_false_of_ne hk, Option.none_or]

/-- Each entry of a list is combined with what the map has under its key. -/
def absorb (f : β → β → β) (m : Hashmap κ β) (es : List (κ × β)) : Hashmap κ β :=
  es.foldl (fun m e => m.insert e.1 (match m.find e.1 with | none => e.2 | some v => f v e.2)) m

theorem find_absorb (f : β → β → β) (m : Hashmap κ β) {es : List (κ × β)}
    (h : (es.map Prod.fst).Nodup) (k : κ) :
    (absorb f m es).find k = Option.merge f (m.find k) (es.lookup k) := by
  induction es generalizing m with
  | nil => cases hk : m.find k <;> simp [absorb, hk]
  | cons e es ih =>
    obtain ⟨hnot, hes⟩ := List.nodup_cons.1 h
    have hstep : absorb f m (e :: es) =
        absorb f (m.insert e.1 (match m.find e.1 with | none => e.2 | some v => f v e.2)) es := rfl
    rw [hstep, ih _ hes, find_insert]
    by_cases hk : k = e.1
    · subst hk
      have hnone : es.lookup e.1 = none := by
        rw [Option.eq_none_iff_forall_ne_some]
        intro v hv
        exact hnot (List.mem_map.2 ⟨_, mem_of_lookup hv, rfl⟩)
      rw [if_pos rfl, hnone, List.lookup_cons_self]
      cases m.find e.1 <;> rfl
    · rw [if_neg hk, List.lookup_cons, beq_false_of_ne hk]

end Hashmap
end ActQuant.Lib
