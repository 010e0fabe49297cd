import Mathlib.Data.List.Infix
import Mathlib.Data.List.Nodup

namespace ActQuant.Lib

/-- A prefix tree over an alphabet, with a value at the end of each of its keys. -/
inductive Trie (α β : Type) where
  | node (children : α → Option (Trie α β)) (value : Option β)

namespace Trie
variable {α β : Type}

def empty : Trie α β := .node (fun _ => none) none

def value : Trie α β → Option β
  | .node _ v => v

def traverse : Trie α β → α → Option (Trie α β)
  | .node children _, c => children c

/-- The subtree at the end of a path. -/
def walk (t : Trie α β) (w : List α) : Option (Trie α β) := w.foldlM traverse t

/-- The value of a key. -/
def get? (t : Trie α β) (w : List α) : Option β := (t.walk w).bind value

/-- Whether the tree has a path. -/
def Reaches (t : Trie α β) (w : List α) : Prop := (t.walk w).isSome

variable {t : Trie α β} {w : List α} {c : α}

theorem walk_cons (t : Trie α β) (c : α) (w : List α) :
    t.walk (c :: w) = (t.traverse c).bind fun u => u.walk w := List.foldlM_cons

theorem walk_append (t : Trie α β) (w w' : List α) :
    t.walk (w ++ w') = (t.walk w).bind fun u => u.walk w' := List.foldlM_append

theorem walk_singleton (t : Trie α β) (c : α) : t.walk [c] = t.traverse c := by
  rw [walk_cons]
  cases t.traverse c <;> rfl

/-- The child of the subtree at the end of a path is at the end of the longer path. -/
theorem traverse_of_walk (h : t.walk w = some u) (c : α) : u.traverse c = t.walk (w ++ [c]) := by
  rw [walk_append, h, Option.bind_some, walk_singleton]

theorem Reaches.of_prefix (h : t.Reaches (w ++ w')) : t.Reaches w := by
  rw [Reaches, walk_append] at h
  rw [Reaches]
  cases hw : t.walk w with
  | none =>
    rw [hw] at h
    cases h
  | some u => rfl

theorem walk_empty (hw : w ≠ []) : (empty : Trie α β).walk w = none := by
  cases w with
  | nil => exact absurd rfl hw
  | cons c w => rfl

theorem get?_empty (w : List α) : (empty : Trie α β).get? w = none := by
  cases w <;> rfl

theorem reaches_empty : (empty : Trie α β).Reaches w ↔ w = [] := by
  cases w with
  | nil => exact iff_of_true rfl rfl
  | cons c w => simp [Reaches, walk_empty]

section Insert
variable [DecidableEq α] {key : List α}

def insert : List α → β → Trie α β → Trie α β
  | [], v, .node children _ => .node children (some v)
  | c :: key, v, .node children old =>
    .node (Function.update children c (some (insert key v ((children c).getD empty)))) old

theorem traverse_insert_self (c : α) (key : List α) (v : β) (t : Trie α β) :
    (insert (c :: key) v t).traverse c =
      some (insert key v ((t.traverse c).getD empty)) := by
  cases t with
  | node children old => exact Function.update_self ..

theorem traverse_insert_of_ne (h : d ≠ c) (key : List α) (v : β) (t : Trie α β) :
    (insert (c :: key) v t).traverse d = t.traverse d := by
  cases t with
  | node children old => exact Function.update_of_ne h ..

theorem value_insert_nil (v : β) (t : Trie α β) : (insert [] v t).value = some v := by
  cases t; rfl

theorem traverse_insert_nil (v : β) (t : Trie α β) (c : α) :
    (insert [] v t).traverse c = t.traverse c := by
  cases t; rfl

theorem value_insert_cons (c : α) (key : List α) (v : β) (t : Trie α β) :
    (insert (c :: key) v t).value = t.value := by
  cases t; rfl

/-- An insertion sets the value of its key and of no other. -/
theorem get?_insert (key : List α) (v : β) (t : Trie α β) (w : List α) :
    (insert key v t).get? w = if w = key then some v else t.get? w := by
  induction key generalizing t w with
  | nil =>
    cases w with
    | nil => exact value_insert_nil v t
    | cons d w =>
      rw [if_neg (List.cons_ne_nil d w), get?, get?, walk_cons, walk_cons, traverse_insert_nil]
  | cons c key ih =>
    cases w with
    | nil =>
      rw [if_neg (List.cons_ne_nil c key).symm]
      exact value_insert_cons c key v t
    | cons d w =>
      by_cases hd : d = c
      · subst hd
        have hih := ih ((t.traverse d).getD empty) w
        rw [get?, walk_cons, traverse_insert_self, Option.bind_some]
        rw [get?] at hih
        rw [hih]
        simp only [List.cons.injEq, true_and]
        split_ifs with hw
        · rfl
        · rw [get?, get?, walk_cons]
          cases t.traverse d with
          | none =>
            cases w with
            | nil => rfl
            | cons e w => rfl
          | some u => rfl
      · have hne : ¬ d :: w = c :: key := fun h => hd (List.cons.inj h).1
        rw [if_neg hne, get?, get?, walk_cons, walk_cons, traverse_insert_of_ne hd]

/-- An insertion adds the paths along its key. -/
theorem reaches_insert (key : List α) (v : β) (t : Trie α β) (w : List α) :
    (insert key v t).Reaches w ↔ w <+: key ∨ t.Reaches w := by
  induction key generalizing t w with
  | nil =>
    cases w with
    | nil => exact iff_of_true rfl (.inl (List.prefix_refl _))
    | cons d w =>
      rw [Reaches, Reaches, walk_cons, walk_cons, traverse_insert_nil]
      simp
  | cons c key ih =>
    cases w with
    | nil => exact iff_of_true rfl (.inl List.nil_prefix)
    | cons d w =>
      by_cases hd : d = c
      · subst hd
        have hih := ih ((t.traverse d).getD empty) w
        rw [Reaches] at hih
        rw [Reaches, walk_cons, traverse_insert_self, Option.bind_some, hih,
          List.cons_prefix_cons, Reaches, Reaches, walk_cons]
        cases t.traverse d with
        | none =>
          cases w with
          | nil => simp
          | cons e w => simp [walk_empty]
        | some u => simp
      · rw [Reaches, Reaches, walk_cons, walk_cons, traverse_insert_of_ne hd,
          List.cons_prefix_cons]
        simp [hd]

/-- The tree of several keys, put in one after the other. -/
def ofList (xs : List (List α × β)) : Trie α β :=
  xs.foldl (fun t x => insert x.1 x.2 t) empty

/-- A key has the value that was put there last. -/
theorem get?_ofList_append (xs : List (List α × β)) (x : List α × β) (w : List α) :
    (ofList (xs ++ [x])).get? w = if w = x.1 then some x.2 else (ofList xs).get? w := by
  rw [ofList, List.foldl_append]
  exact get?_insert x.1 x.2 _ w

theorem mem_of_get?_ofList {xs : List (List α × β)} (h : (ofList xs).get? w = some v) :
    (w, v) ∈ xs := by
  induction xs using List.reverseRecOn with
  | nil => cases (get?_empty w).symm.trans h
  | append_singleton xs x ih =>
    rw [get?_ofList_append] at h
    split_ifs at h with hw
    · rw [hw, ← Option.some.inj h]
      exact List.mem_append_right _ (.head _)
    · exact List.mem_append_left _ (ih h)

theorem get?_ofList_isSome {xs : List (List α × β)} (h : (w, v) ∈ xs) :
    ((ofList xs).get? w).isSome := by
  induction xs using List.reverseRecOn with
  | nil => cases h
  | append_singleton xs x ih =>
    rw [get?_ofList_append]
    split_ifs with hw
    · rfl
    · rcases List.mem_append.1 h with h | h
      · exact ih h
      · exact absurd (congrArg Prod.fst (List.mem_singleton.1 h)) hw

/-- Where each key was put in once it has its value. -/
theorem get?_ofList {xs : List (List α × β)} (hnd : (xs.map Prod.fst).Nodup)
    (h : (w, v) ∈ xs) : (ofList xs).get? w = some v := by
  obtain ⟨v', hv'⟩ := Option.isSome_iff_exists.1 (get?_ofList_isSome h)
  have heq : (w, v') = (w, v) :=
    List.inj_on_of_nodup_map hnd (mem_of_get?_ofList hv') h rfl
  rw [hv', (Prod.mk.inj heq).2]

theorem reaches_ofList {xs : List (List α × β)} :
    (ofList xs).Reaches w ↔ w = [] ∨ ∃ x ∈ xs, w <+: x.1 := by
  induction xs using List.reverseRecOn with
  | nil => simp [ofList, reaches_empty]
  | append_singleton xs x ih =>
    have happ : ofList (xs ++ [x]) = insert x.1 x.2 (ofList xs) := by
      rw [ofList, List.foldl_append]
      rfl
    rw [happ, reaches_insert, ih]
    simp only [List.mem_append, List.mem_singleton, or_and_right, exists_or, exists_eq_left]
    rw [or_comm, or_assoc]

end Insert
end Trie
end ActQuant.Lib
