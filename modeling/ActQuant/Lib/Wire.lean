import Mathlib.Data.Nat.Bitwise

namespace ActQuant.Lib

/-- The encodings of a number by seven bits in each byte, the low ones first; the top bit says
that another byte follows. A number has encodings of every length from its shortest one on. -/
inductive Varint : Nat → List UInt8 → Prop where
  | last (h : b.toNat < 128) : Varint b.toNat [b]
  | more (h : 128 ≤ b.toNat) (hv : Varint n bs) : Varint (b.toNat - 128 + 128 * n) (b :: bs)

/-- The content of a field by its wire type; groups are left out. -/
inductive Content where
  | varint (value : Nat)
  | fixed64 (bits : List UInt8)
  | len (payload : List UInt8)
  | fixed32 (bits : List UInt8)

def Content.wireType : Content → Nat
  | .varint _ => 0
  | .fixed64 _ => 1
  | .len _ => 2
  | .fixed32 _ => 5

theorem Content.wireType_lt (content : Content) : content.wireType < 8 := by
  cases content <;> simp only [wireType] <;> decide

inductive Content.Encodes : Content → List UInt8 → Prop where
  | varint (h : Varint value bs) : Encodes (.varint value) bs
  | fixed64 (h : bits.length = 8) : Encodes (.fixed64 bits) bits
  | len (h : Varint payload.length bs) : Encodes (.len payload) (bs ++ payload)
  | fixed32 (h : bits.length = 4) : Encodes (.fixed32 bits) bits

structure Field where
  number : Nat
  content : Content

/-- The encodings of a message: those of its fields, one after the other. -/
inductive Encoded : List Field → List UInt8 → Prop where
  | nil : Encoded [] []
  | cons {field : Field} (htag : Varint (8 * field.number + field.content.wireType) tag)
      (hcontent : field.content.Encodes bs) (hrest : Encoded fields rest) :
      Encoded (field :: fields) (tag ++ (bs ++ rest))

theorem Varint.ne_nil (h : Varint n bs) : bs ≠ [] := by
  cases h <;> exact List.cons_ne_nil _ _

/-- The bytes a field holds, if it has the number and holds bytes. -/
def payloadOf (number : Nat) (field : Field) : Option (List UInt8) :=
  match field.content with
  | .len payload => if field.number = number then some payload else none
  | _ => none

def payloads (number : Nat) (fields : List Field) : List (List UInt8) :=
  fields.filterMap (payloadOf number)

theorem payloadOf_cases (number : Nat) (field : Field) :
    (∃ payload, field.content = .len payload ∧ field.number = number ∧
        payloadOf number field = some payload) ∨
      ¬ (field.number = number ∧ field.content.wireType = 2) ∧ payloadOf number field = none := by
  obtain ⟨n, content⟩ := field
  cases content with
  | len payload =>
    by_cases hn : n = number
    · exact .inl ⟨payload, rfl, hn, if_pos hn⟩
    · exact .inr ⟨fun h => hn h.1, if_neg hn⟩
  | varint => exact .inr ⟨(fun ⟨_, h⟩ => nomatch h), rfl⟩
  | fixed64 => exact .inr ⟨(fun ⟨_, h⟩ => nomatch h), rfl⟩
  | fixed32 => exact .inr ⟨(fun ⟨_, h⟩ => nomatch h), rfl⟩

/-- What a loop over fields does after one of them. -/
inductive Flow (σ : Type) where
  | next (s : σ)
  | leave (s : σ)

/-- A loop over the fields of a message, which it may leave early. -/
def readFields (react : σ → Field → Flow σ) : σ → List Field → σ
  | s, [] => s
  | s, field :: fields =>
    match react s field with
    | .next s => readFields react s fields
    | .leave s => s

/-- A loop that never leaves is a fold. -/
theorem readFields_next (f : σ → Field → σ) (s : σ) (fields : List Field) :
    readFields (fun s field => .next (f s field)) s fields = fields.foldl f s := by
  induction fields generalizing s with
  | nil => rfl
  | cons field fields ih => exact ih (f s field)

/-- To leave a loop with what was found, if something was. -/
def Flow.leaveWith (found : Option α) (s : Option α) : Flow (Option α) :=
  match found with
  | some a => .leave (some a)
  | none => .next s

theorem readFields_leaveWith (g : Field → Option α) (fields : List Field) :
    readFields (fun s field => .leaveWith (g field) s) none fields =
      (fields.filterMap g).head? := by
  induction fields with
  | nil => rfl
  | cons field fields ih =>
    cases hg : g field with
    | none => simpa only [readFields, hg, Flow.leaveWith, List.filterMap_cons_none hg] using ih
    | some a =>
      simp only [readFields, hg, Flow.leaveWith, List.filterMap_cons_some hg, List.head?_cons]

/-- A fold that keeps what it found last. -/
theorem foldl_orElse (g : Field → Option α) (s : Option α) (fields : List Field) :
    fields.foldl (fun s field => g field <|> s) s = ((fields.filterMap g).getLast? <|> s) := by
  induction fields generalizing s with
  | nil => rfl
  | cons field fields ih =>
    rw [List.foldl_cons, ih]
    cases hg : g field with
    | none => rw [List.filterMap_cons_none hg]; rfl
    | some a =>
      rw [List.filterMap_cons_some hg, List.getLast?_cons]
      cases (fields.filterMap g).getLast? <;> rfl

theorem foldl_append_flatMap (g : Field → List α) (s : List α) (fields : List Field) :
    fields.foldl (fun s field => s ++ g field) s = s ++ fields.flatMap g := by
  induction fields generalizing s with
  | nil => exact (List.append_nil s).symm
  | cons field fields ih => rw [List.foldl_cons, ih, List.flatMap_cons, List.append_assoc]

theorem foldl_pair (f : α → Field → α) (g : β → Field → β) (s : α × β) (fields : List Field) :
    fields.foldl (fun s field => (f s.1 field, g s.2 field)) s =
      (fields.foldl f s.1, fields.foldl g s.2) := by
  induction fields generalizing s with
  | nil => rfl
  | cons field fields ih => exact ih (f s.1 field, g s.2 field)

theorem mem_payloads (hf : field ∈ fields) (h : payloadOf number field = some payload) :
    payload ∈ payloads number fields :=
  List.mem_filterMap.2 ⟨field, hf, h⟩

end ActQuant.Lib
