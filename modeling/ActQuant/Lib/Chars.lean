import Mathlib.Data.List.Basic
import Mathlib.Data.List.TakeWhile
import Mathlib.Data.Nat.Digits.Defs

namespace ActQuant.Lib

/-- `str.encode("utf-8")`. -/
def encodeUtf8 (s : List Char) : List UInt8 := s.flatMap String.utf8EncodeChar

/-- `bytes.decode("utf-8")`, none where it raises. -/
def decodeUtf8 (bs : List UInt8) : Option (List Char) :=
  bs.toByteArray.utf8Decode?.map Array.toList

theorem toByteArray_encodeUtf8 (s : List Char) : (encodeUtf8 s).toByteArray = s.utf8Encode := rfl

theorem decodeUtf8_encodeUtf8 (s : List Char) : decodeUtf8 (encodeUtf8 s) = some s := by
  rw [decodeUtf8, toByteArray_encodeUtf8, List.utf8Decode?_utf8Encode, Option.map_some]

theorem encodeUtf8_of_decodeUtf8 (h : decodeUtf8 bs = some s) : encodeUtf8 s = bs := by
  obtain ⟨cs, hcs, rfl⟩ := Option.map_eq_some_iff.1 h
  have hsome : bs.toByteArray.utf8Decode?.isSome := by rw [hcs, Option.isSome_some]
  have hget := ByteArray.utf8Encode_get_utf8Decode? (h := hsome)
  have hdata : (encodeUtf8 cs.toList).toByteArray = bs.toByteArray := by
    rw [toByteArray_encodeUtf8, ← hget]
    simp only [hcs, Option.get_some]
  have hlist := congrArg (fun b => b.data.toList) hdata
  simpa only [List.toList_data_toByteArray] using hlist

/-! The bytes of a code point as numbers: UTF-8, without an upper limit of its own. -/

/-- How many bytes stand behind the first one of a code point. -/
def extraBytes (c : Nat) : Nat :=
  if c < 0x80 then 0 else if c < 0x800 then 1 else if c < 0x10000 then 2 else 3

/-- The first byte of a sequence with `n` more of them. -/
def leadByte (n c : Nat) : Nat := [0, 0xC0, 0xE0, 0xF0].getD n 0 + c / 64 ^ n

/-- The last `n` bytes of a code point. -/
def tailBytes : Nat → Nat → List Nat
  | 0, _ => []
  | n + 1, c => (0x80 + c / 64 ^ n % 64) :: tailBytes n c

def utf8Bytes (c : Nat) : List Nat := leadByte (extraBytes c) c :: tailBytes (extraBytes c) c

theorem length_tailBytes (n c : Nat) : (tailBytes n c).length = n := by
  induction n with
  | zero => rfl
  | succ n ih => rw [tailBytes, List.length_cons, ih]

theorem extraBytes_le (c : Nat) : extraBytes c ≤ 3 := by
  unfold extraBytes
  split_ifs <;> omega

/-- The bytes of a character are those of its code point. -/
theorem utf8Bytes_char (ch : Char) :
    (String.utf8EncodeChar ch).map UInt8.toNat = utf8Bytes ch.toNat := by
  have hvalid : ch.val.toNat < 0x110000 := by
    rcases ch.valid with h | h <;> omega
  change (if ch.val.toNat ≤ 0x7f then _ else if ch.val.toNat ≤ 0x7ff then _
    else if ch.val.toNat ≤ 0xffff then _ else _ : List UInt8).map UInt8.toNat =
      utf8Bytes ch.val.toNat
  generalize ch.val.toNat = c at hvalid ⊢
  rw [utf8Bytes, extraBytes]
  split_ifs with h₁ h₂ h₃ <;> try omega
  all_goals
    simp only [List.map_cons, List.map_nil, leadByte, tailBytes, UInt8.toNat_ofNat', List.cons.injEq]
    simp
    omega

section Search
variable {α β : Type*}

/-- The pattern matches an initial part of the text, item by item. -/
def matchPrefix (m : α → β → Bool) : List α → List β → Bool
  | [], _ => true
  | _ :: _, [] => false
  | p :: ps, c :: cs => m p c && matchPrefix m ps cs

/-- The pattern matches somewhere in the text. -/
def search (m : α → β → Bool) (pat : List α) : List β → Bool
  | [] => matchPrefix m pat []
  | c :: cs => matchPrefix m pat (c :: cs) || search m pat cs

variable {m : α → β → Bool}

theorem search_cons (pat : List α) (c : β) (cs : List β) :
    search m pat (c :: cs) = (matchPrefix m pat (c :: cs) || search m pat cs) := rfl

theorem search_of_matchPrefix (h : matchPrefix m pat cs = true) : search m pat cs = true := by
  cases cs with
  | nil => exact h
  | cons c cs => rw [search_cons, h, Bool.true_or]

/-- Text in which the pattern cannot even start is passed over. -/
theorem search_append_of_head {p : α} (h : ∀ c ∈ ds, m p c = false) (rest : List β) :
    search m (p :: pat) (ds ++ rest) = search m (p :: pat) rest := by
  induction ds with
  | nil => rfl
  | cons d ds ih =>
    have hd : m p d = false := h d (.head _)
    rw [List.cons_append, search_cons, ih fun c hc => h c (.tail _ hc)]
    simp only [matchPrefix, hd, Bool.false_and, Bool.false_or]

theorem matchPrefix_refl {m : α → α → Bool} (hm : ∀ a, m a a = true) (xs ys : List α) :
    matchPrefix m xs (xs ++ ys) = true := by
  induction xs with
  | nil => rfl
  | cons x xs ih => simp only [List.cons_append, matchPrefix, hm, ih, Bool.and_self]

/-- Pattern and text differ at a place both still reach. -/
def clash (m : α → β → Bool) : List α → List β → Bool
  | p :: ps, c :: cs => !m p c || clash m ps cs
  | _, _ => false

/-- The pattern clashes with every part of a text it could start in. -/
def passesOver (m : α → β → Bool) (pat : List α) : List β → Bool
  | [] => true
  | c :: cs => clash m pat (c :: cs) && passesOver m pat cs

theorem matchPrefix_of_clash (h : clash m pat xs = true) (rest : List β) :
    matchPrefix m pat (xs ++ rest) = false := by
  induction pat generalizing xs with
  | nil => cases xs <;> exact absurd h (by simp only [clash, Bool.false_eq_true, not_false_iff])
  | cons p pat ih =>
    cases xs with
    | nil => exact absurd h (by simp only [clash, Bool.false_eq_true, not_false_iff])
    | cons x xs =>
      simp only [clash, Bool.or_eq_true, Bool.not_eq_true'] at h
      rcases h with h | h
      · rw [List.cons_append, matchPrefix, h, Bool.false_and]
      · rw [List.cons_append, matchPrefix, ih h, Bool.and_false]

theorem search_append_of_passesOver (h : passesOver m pat xs = true) (rest : List β) :
    search m pat (xs ++ rest) = search m pat rest := by
  induction xs with
  | nil => rfl
  | cons x xs ih =>
    simp only [passesOver, Bool.and_eq_true] at h
    have hx : matchPrefix m pat (x :: (xs ++ rest)) = false := matchPrefix_of_clash h.1 rest
    rw [List.cons_append, search_cons, hx, Bool.false_or, ih h.2]

end Search

/-- `std::string::find(..) != npos`. -/
def contains (needle : String) (text : List Char) : Bool := search (· == ·) needle.toList text

def startsWith (start : String) (text : List Char) : Bool := start.toList.isPrefixOf text

def endsWith (suffix : String) (text : List Char) : Bool := suffix.toList.isSuffixOf text

theorem endsWith_append {suffix : String} (h : suffix.toList.length ≤ ys.length) (xs : List Char) :
    endsWith suffix (xs ++ ys) = endsWith suffix ys := by
  rw [Bool.eq_iff_iff, endsWith, endsWith, List.isSuffixOf_iff_suffix, List.isSuffixOf_iff_suffix]
  constructor
  · intro hs
    exact List.suffix_of_suffix_length_le hs (List.suffix_append _ _) h
  · intro hs
    exact hs.trans (List.suffix_append _ _)

theorem isPrefixOf_eq_matchPrefix (old text : List Char) :
    old.isPrefixOf text = matchPrefix (· == ·) old text := by
  induction old generalizing text with
  | nil => simp only [List.isPrefixOf_nil_left, matchPrefix]
  | cons o old ih =>
    cases text with
    | nil => rfl
    | cons c text => rw [List.isPrefixOf, matchPrefix, ih]

/-- Where the ends of two texts differ, neither is at the end of the other. -/
theorem endsWith_of_clash {suffix : String}
    (h : clash (· == ·) suffix.toList.reverse ys.reverse = true) (xs : List Char) :
    endsWith suffix (xs ++ ys) = false := by
  have hmatch := matchPrefix_of_clash h xs.reverse
  rw [endsWith, List.isSuffixOf, List.reverse_append, isPrefixOf_eq_matchPrefix, hmatch]

def stripSuffix (suffix : String) (text : List Char) : Option (List Char) :=
  if endsWith suffix text then some (text.take (text.length - suffix.toList.length)) else none

theorem stripSuffix_append (suffix : String) (xs : List Char) :
    stripSuffix suffix (xs ++ suffix.toList) = some xs := by
  have hends : endsWith suffix (xs ++ suffix.toList) = true :=
    List.isSuffixOf_iff_suffix.2 (List.suffix_append _ _)
  rw [stripSuffix, if_pos hends, List.length_append, Nat.add_sub_cancel, List.take_left]

/-- A dot stands for any character but a line end, anything else for itself. -/
def regexChar (p c : Char) : Bool := (p == '.' && c != '\n' && c != '\r') || p == c

def regexSearch (pat text : List Char) : Bool := search regexChar pat text

/-- `str.replace`: each occurrence, from the left, without overlaps. -/
def replaceFrom (old new : List Char) : Nat → List Char → List Char
  | _, [] => []
  | skip + 1, _ :: cs => replaceFrom old new skip cs
  | 0, c :: cs =>
    if old.isPrefixOf (c :: cs) then new ++ replaceFrom old new (old.length - 1) cs
    else c :: replaceFrom old new 0 cs

def replace (old new : String) (text : List Char) : List Char :=
  replaceFrom old.toList new.toList 0 text

theorem replaceFrom_skip {old new : List Char} (xs rest : List Char) :
    replaceFrom old new xs.length (xs ++ rest) = replaceFrom old new 0 rest := by
  induction xs with
  | nil => rfl
  | cons x xs ih => exact ih

theorem replace_prepended {old : String} (hne : old.toList ≠ []) (new : String)
    (rest : List Char) :
    replace old new (old.toList ++ rest) = new.toList ++ replace old new rest := by
  rw [replace, replace]
  generalize old.toList = pat at hne ⊢
  cases pat with
  | nil => exact absurd rfl hne
  | cons o pat =>
    have hpre : (o :: pat).isPrefixOf (o :: (pat ++ rest)) = true :=
      List.isPrefixOf_iff_prefix.2 ⟨rest, rfl⟩
    rw [List.cons_append, replaceFrom, hpre, if_pos rfl, List.length_cons, Nat.add_sub_cancel,
      replaceFrom_skip]

theorem replaceFrom_append_of_passesOver (new : List Char)
    (h : passesOver (· == ·) old xs = true) (rest : List Char) :
    replaceFrom old new 0 (xs ++ rest) = xs ++ replaceFrom old new 0 rest := by
  induction xs with
  | nil => rfl
  | cons x xs ih =>
    simp only [passesOver, Bool.and_eq_true] at h
    have hx : old.isPrefixOf (x :: (xs ++ rest)) = false := by
      rw [isPrefixOf_eq_matchPrefix]
      exact matchPrefix_of_clash h.1 rest
    rw [List.cons_append, replaceFrom, hx, if_neg (by decide), ih h.2, List.cons_append]

def decimal (n : Nat) : List Char := Nat.toDigits 10 n

theorem isDigit_of_mem_decimal (h : c ∈ decimal n) : c.isDigit = true :=
  Nat.isDigit_of_mem_toDigits (by decide) (by decide) h

theorem decimal_injective (h : decimal m = decimal n) : m = n := by
  have hval := congrArg (fun ds => Nat.ofDigitChars 10 ds 0) h
  simpa only [decimal, Nat.ofDigitChars_ten_toDigits] using hval

theorem decimal_ne_nil (n : Nat) : decimal n ≠ [] := by
  intro h
  have hval := congrArg (fun ds => Nat.ofDigitChars 10 ds 0) h
  simp only [decimal, Nat.ofDigitChars_ten_toDigits] at hval
  subst hval
  exact absurd h (by decide)

/-- A text with a number in it, up to the dot after the number, and the rest. -/
def numbered (pre : String) (n : Nat) (rest : List Char) : List Char :=
  pre.toList ++ (decimal n ++ '.' :: rest)

theorem numbered_append (pre : String) (n : Nat) (xs ys : List Char) :
    numbered pre n xs ++ ys = numbered pre n (xs ++ ys) := by
  simp only [numbered, List.append_assoc, List.cons_append]

/-- A needle that can start neither in the text before a number nor in the number. -/
def skips (needle pre : String) : Bool :=
  needle.toList.head?.any (fun c => !c.isDigit) && passesOver (· == ·) needle.toList pre.toList
    && passesOver (· == ·) needle.toList ['.']

section Numbered
variable {needle pre : String}

theorem passesOver_decimal (h : pat.head?.any (fun c : Char => !c.isDigit) = true)
    (hds : ∀ c ∈ ds, c.isDigit = true) : passesOver (· == ·) pat ds = true := by
  cases pat with
  | nil => exact absurd h (by decide)
  | cons p pat =>
    have hp : p.isDigit = false := by simpa only [List.head?_cons, Option.any_some,
      Bool.not_eq_true'] using h
    induction ds with
    | nil => rfl
    | cons d ds ih =>
      have hd : (p == d) = false := by
        apply beq_false_of_ne
        rintro rfl
        exact absurd (hds p (.head _)) (by rw [hp]; decide)
      rw [passesOver, clash, hd, Bool.not_false, Bool.true_or, Bool.true_and]
      exact ih fun c hc => hds c (.tail _ hc)

theorem contains_numbered (h : skips needle pre = true) (n : Nat) (rest : List Char) :
    contains needle (numbered pre n rest) = contains needle rest := by
  simp only [skips, Bool.and_eq_true] at h
  have hds := passesOver_decimal h.1.1 fun c => isDigit_of_mem_decimal (c := c) (n := n)
  rw [contains, numbered, search_append_of_passesOver h.1.2, search_append_of_passesOver hds]
  exact search_append_of_passesOver h.2 rest

theorem replace_numbered (h : skips needle pre = true) (new : String) (n : Nat)
    (rest : List Char) :
    replace needle new (numbered pre n rest) = numbered pre n (replace needle new rest) := by
  simp only [skips, Bool.and_eq_true] at h
  have hds := passesOver_decimal h.1.1 fun c => isDigit_of_mem_decimal (c := c) (n := n)
  have hdot := replaceFrom_append_of_passesOver new.toList h.2 rest
  rw [List.singleton_append] at hdot
  rw [replace, numbered, replaceFrom_append_of_passesOver _ h.1.2,
    replaceFrom_append_of_passesOver _ hds, hdot]
  rfl

theorem digits_inj {ds ds' : List Char} (h : ∀ c ∈ ds, c.isDigit = true)
    (h' : ∀ c ∈ ds', c.isDigit = true) (he : ds ++ '.' :: xs = ds' ++ '.' :: ys) :
    ds = ds' ∧ xs = ys := by
  have hrun {es zs : List Char} (hes : ∀ c ∈ es, c.isDigit = true) :
      (es ++ '.' :: zs).takeWhile Char.isDigit = es := by
    rw [List.takeWhile_append_of_pos hes, List.takeWhile_cons_of_neg (by decide),
      List.append_nil]
  have hds : ds = ds' := by rw [← hrun h, he, hrun h']
  subst hds
  have htail := List.append_cancel_left he
  exact ⟨rfl, (List.cons.inj htail).2⟩

theorem numbered_inj (h : numbered pre m xs = numbered pre n ys) : m = n ∧ xs = ys := by
  have htail := List.append_cancel_left h
  obtain ⟨hd, hs⟩ := digits_inj (fun _ => isDigit_of_mem_decimal)
    (fun _ => isDigit_of_mem_decimal) htail
  exact ⟨decimal_injective hd, hs⟩

end Numbered
end ActQuant.Lib
