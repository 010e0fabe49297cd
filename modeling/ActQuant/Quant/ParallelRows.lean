import ActQuant.Lib.Interleave
import ActQuant.Lib.Partition

namespace ActQuant.Quant.ParallelRows
open ActQuant.Lib Relation

/-- What `llama_tensor_quantize_impl` is given, a row being encoded by any function of its values
and its slice of the importance matrix. -/
structure Job (α β Enc : Type) where
  f32Data : List α
  imatrix : Option (List β)
  imatrixIsPerWeight : Bool
  nrows : Nat
  nPerRow : Nat
  rowSize : Nat
  quantizeRow : List α → Option (List β) → Enc
  validRow : Enc → Bool

/-- What has been written of `new_data`, as rows, the last one first. -/
abbrev NewData (Enc : Type) := List (Nat × Enc)

variable {α β Enc : Type}

/-- The rows `ggml_quantize_chunk` writes; it returns `nrows * row_size`. -/
def ggmlQuantizeChunk (J : Job α β Enc) (start nrows : Nat) (imatrix : Option (List β)) :
    List (Nat × Enc) :=
  let startRow := start / J.nPerRow
  (List.range nrows).map fun r =>
    (startRow + r, J.quantizeRow
      (slice J.f32Data (start + r * J.nPerRow) (start + r * J.nPerRow + J.nPerRow))
      (imatrix.map (·.take J.nPerRow)))

def ggmlValidateRowData (J : Job α β Enc) (newData : NewData Enc) (firstRow nrows : Nat) : Bool :=
  (List.range nrows).all fun r => ((newData.lookup (firstRow + r)).map J.validRow).getD false

/-- The rows written for a chunk: by one call, or by a call for each row. -/
def chunkCalls (J : Job α β Enc) (firstRow thisNrow : Nat) : List (Nat × Enc) :=
  if J.imatrixIsPerWeight then
    (List.range thisNrow).flatMap fun r =>
      let row := firstRow + r
      ggmlQuantizeChunk J (row * J.nPerRow) 1 (J.imatrix.map (·.drop (row * J.nPerRow)))
  else ggmlQuantizeChunk J (firstRow * J.nPerRow) thisNrow J.imatrix

/-- The path of one thread: the size returned, where the rows are valid, and the rows written. -/
def quantizeSequential (J : Job α β Enc) : Option Nat × NewData Enc :=
  let newData := (chunkCalls J 0 J.nrows).reverse
  (if ggmlValidateRowData J newData 0 J.nrows then some (J.rowSize * J.nrows) else none, newData)

structure Shared (Enc : Type) where
  counter : Nat
  newSize : Nat
  valid : Bool
  newData : NewData Enc

/-- Where a worker is: at the top of its loop, in a chunk with some rows left, about to report an
invalid chunk, or through. -/
inductive Worker (Enc : Type) where
  | looping (localSize : Nat)
  | quantizing (localSize firstRow thisNrow : Nat) (todo : List (Nat × Enc))
  | invalidating
  | done

/-- The steps of `compute`: each critical section, each row written, each validation. -/
def compute (J : Job α β Enc) (nrowsPerChunk : Nat) (s : Shared Enc) :
    Worker Enc → Option (Shared Enc × Worker Enc)
  | .looping localSize =>
    let firstRow := s.counter
    let s := { s with counter := s.counter + nrowsPerChunk }
    if J.nrows ≤ firstRow then some ({ s with newSize := s.newSize + localSize }, .done)
    else
      let thisNrow := min (J.nrows - firstRow) nrowsPerChunk
      some (s, .quantizing localSize firstRow thisNrow (chunkCalls J firstRow thisNrow))
  | .quantizing localSize firstRow thisNrow (x :: todo) =>
    some ({ s with newData := x :: s.newData }, .quantizing localSize firstRow thisNrow todo)
  | .quantizing localSize firstRow thisNrow [] =>
    if ggmlValidateRowData J s.newData firstRow thisNrow then
      some (s, .looping (localSize + J.rowSize * thisNrow))
    else some (s, .invalidating)
  | .invalidating => some ({ s with valid := false }, .done)
  | .done => none

abbrev State (Enc : Type) := Shared Enc × List (Worker Enc)

def State.init (nthread : Nat) : State Enc :=
  (⟨0, 0, true, []⟩, List.replicate nthread (.looping 0))

/-- The size returned once all workers are joined; without one the call has thrown. -/
def Shared.result (s : Shared Enc) : Option Nat := if s.valid then some s.newSize else none

/-- The outcomes of `llama_tensor_quantize_impl`, one for each schedule of its workers. -/
inductive LlamaTensorQuantizeImpl (J : Job α β Enc) (chunkSize nthread : Nat) :
    Option Nat × NewData Enc → Prop where
  | sequential (h : nthread < 2) :
      LlamaTensorQuantizeImpl J chunkSize nthread (quantizeSequential J)
  | parallel (h : ¬ nthread < 2)
      (hrun : ReflTransGen (Interleave (compute J (chunkSize / J.nPerRow))) (State.init nthread) q)
      (hjoin : Stopped (compute J (chunkSize / J.nPerRow)) q) :
      LlamaTensorQuantizeImpl J chunkSize nthread (q.1.result, q.1.newData)

/-- The slice of the importance matrix meant for a row. -/
def rowImatrix (J : Job α β Enc) (row : Nat) : Option (List β) :=
  J.imatrix.map fun data =>
    if J.imatrixIsPerWeight then slice data (row * J.nPerRow) (row * J.nPerRow + J.nPerRow)
    else data.take J.nPerRow

def encoding (J : Job α β Enc) (row : Nat) : Enc :=
  J.quantizeRow (slice J.f32Data (row * J.nPerRow) (row * J.nPerRow + J.nPerRow))
    (rowImatrix J row)

def AllValid (J : Job α β Enc) : Prop := ∀ row < J.nrows, J.validRow (encoding J row) = true

section Calls
variable {J : Job α β Enc}

theorem chunkCalls_eq (hn : 0 < J.nPerRow) (firstRow thisNrow : Nat) :
    chunkCalls J firstRow thisNrow =
      (List.range thisNrow).map fun r => (firstRow + r, encoding J (firstRow + r)) := by
  by_cases hper : J.imatrixIsPerWeight = true
  · rw [chunkCalls, if_pos hper, ← List.flatMap_singleton' ((List.range thisNrow).map _),
      List.flatMap_map]
    congr 1
    funext r
    simp only [ggmlQuantizeChunk, List.range_one, List.map_singleton, Nat.mul_div_cancel _ hn,
      Nat.zero_mul, Nat.add_zero, encoding, rowImatrix, if_pos hper, Option.map_map, slice,
      Nat.add_sub_cancel_left, Function.comp_def]
  · rw [chunkCalls, if_neg hper, ggmlQuantizeChunk, Nat.mul_div_cancel _ hn]
    refine List.map_congr_left fun r _ => ?_
    rw [encoding, rowImatrix, ← Nat.add_mul]
    simp only [if_neg hper]

theorem length_chunkCalls (hn : 0 < J.nPerRow) (firstRow thisNrow : Nat) :
    (chunkCalls J firstRow thisNrow).length = thisNrow := by
  rw [chunkCalls_eq hn, List.length_map, List.length_range]

theorem mem_chunkCalls (hn : 0 < J.nPerRow) (h : x ∈ chunkCalls J firstRow thisNrow) :
    x.2 = encoding J x.1 ∧ firstRow ≤ x.1 ∧ x.1 < firstRow + thisNrow := by
  rw [chunkCalls_eq hn] at h
  obtain ⟨r, hr, rfl⟩ := List.mem_map.1 h
  rw [List.mem_range] at hr
  exact ⟨rfl, Nat.le_add_right _ _, Nat.add_lt_add_left hr _⟩

theorem lookup_of_encs {newData : NewData Enc} (h : ∀ x ∈ newData, x.2 = encoding J x.1)
    (hr : row ∈ newData.map Prod.fst) : newData.lookup row = some (encoding J row) := by
  cases hlookup : newData.lookup row with
  | none =>
    obtain ⟨x, hx, rfl⟩ := List.mem_map.1 hr
    have hne := List.lookup_eq_none_iff.1 hlookup x hx
    simp at hne
  | some e =>
    obtain ⟨l₁, l₂, hsplit, _⟩ := List.lookup_eq_some_iff.1 hlookup
    have hmem : (row, e) ∈ newData := by
      rw [hsplit]
      exact List.mem_append_right l₁ (List.mem_cons_self)
    have henc : e = encoding J row := h _ hmem
    rw [henc]

/-- Where its rows are all there, a chunk validates if and only if each of them does. -/
theorem validate_iff {newData : NewData Enc} (h : ∀ x ∈ newData, x.2 = encoding J x.1)
    (hrows : ∀ r < thisNrow, firstRow + r ∈ newData.map Prod.fst) :
    ggmlValidateRowData J newData firstRow thisNrow = true ↔
      ∀ r < thisNrow, J.validRow (encoding J (firstRow + r)) = true := by
  rw [ggmlValidateRowData, List.all_eq_true]
  refine forall_congr' fun r => ?_
  rw [List.mem_range]
  refine imp_congr_right fun hr => ?_
  rw [lookup_of_encs h (hrows r hr), Option.map_some, Option.getD_some]

end Calls

section Schedules
variable {J : Job α β Enc} {q : Nat} {s t : Shared Enc} {ws us vs : List (Worker Enc)}
  {w w' : Worker Enc}

/-- The rows a worker has taken and not written yet. -/
def Worker.rows : Worker Enc → List Nat
  | .quantizing _ _ _ todo => todo.map Prod.fst
  | .looping _ | .invalidating | .done => []

/-- The bytes of all the chunks a worker took, until it hands them over. -/
def Worker.size (J : Job α β Enc) : Worker Enc → Nat
  | .looping localSize => localSize
  | .quantizing localSize _ thisNrow _ => localSize + J.rowSize * thisNrow
  | .invalidating | .done => 0

def Flagged (s : Shared Enc) (ws : List (Worker Enc)) : Prop :=
  s.valid = false ∨ .invalidating ∈ ws

/-- A worker's chunk lies in the tensor, and the rows it no longer has to write are written. -/
def ChunkOk (J : Job α β Enc) (s : Shared Enc) : Worker Enc → Prop
  | .quantizing _ firstRow thisNrow todo =>
    firstRow + thisNrow ≤ J.nrows ∧
      (∀ x ∈ todo, x.2 = encoding J x.1 ∧ firstRow ≤ x.1 ∧ x.1 < firstRow + thisNrow) ∧
      ∀ r < thisNrow, firstRow + r ∈ todo.map Prod.fst ∨ firstRow + r ∈ s.newData.map Prod.fst
  | .looping _ | .invalidating | .done => True

/-- A written row is part of the chunk a worker is in. -/
def InChunk (row : Nat) : Worker Enc → Prop
  | .quantizing _ firstRow thisNrow _ => firstRow ≤ row ∧ row < firstRow + thisNrow
  | .looping _ | .invalidating | .done => False

structure Inv (J : Job α β Enc) (s : Shared Enc) (ws : List (Worker Enc)) : Prop where
  rows : (s.newData.map Prod.fst ++ ws.flatMap Worker.rows).Perm
    (List.range (min s.counter J.nrows))
  encs : ∀ x ∈ s.newData, x.2 = encoding J x.1
  chunks : ∀ w ∈ ws, ChunkOk J s w
  exits : .done ∈ ws → s.valid = true → J.nrows ≤ s.counter
  caught : ∀ row ∈ s.newData.map Prod.fst, J.validRow (encoding J row) = false →
    Flagged s ws ∨ ∃ w ∈ ws, InChunk row w
  honest : Flagged s ws → ¬ AllValid J
  sizes : ¬ Flagged s ws →
    s.newSize + (ws.map (Worker.size J)).sum = J.rowSize * min s.counter J.nrows

theorem flagged_turn (hw : w ≠ .invalidating) (hw' : w' ≠ .invalidating)
    (hv : t.valid = s.valid) :
    Flagged t (us ++ w' :: vs) ↔ Flagged s (us ++ w :: vs) := by
  rw [Flagged, Flagged, hv]
  refine or_congr_right ⟨fun h => ?_, fun h => mem_turn_of_ne w' h hw.symm⟩
  exact (mem_turn w h).resolve_left hw'.symm

theorem ChunkOk.mono (h : ChunkOk J s w)
    (hsub : ∀ row ∈ s.newData.map Prod.fst, row ∈ t.newData.map Prod.fst) : ChunkOk J t w := by
  cases w with
  | quantizing localSize firstRow thisNrow todo =>
    exact ⟨h.1, h.2.1, fun r hr => (h.2.2 r hr).imp_right (hsub _)⟩
  | looping localSize => trivial
  | invalidating => trivial
  | done => trivial

/-- A worker in no chunk can take a turn without a written row losing its chunk. -/
theorem caught_turn (hw : ∀ row, ¬ InChunk row w) (w' : Worker Enc)
    (h : ∃ x ∈ us ++ w :: vs, InChunk row x) : ∃ x ∈ us ++ w' :: vs, InChunk row x := by
  obtain ⟨x, hx, hin⟩ := h
  refine ⟨x, mem_turn_of_ne w' hx ?_, hin⟩
  rintro rfl
  exact hw row hin

/-- The other workers stay in their chunks, as no row is taken back. -/
theorem Inv.chunks_turn (hI : Inv J s (us ++ w :: vs)) (hw' : ChunkOk J t w')
    (hsub : ∀ row ∈ s.newData.map Prod.fst, row ∈ t.newData.map Prod.fst) :
    ∀ x ∈ us ++ w' :: vs, ChunkOk J t x := by
  intro x hx
  rcases mem_turn w hx with rfl | hx
  · exact hw'
  · exact (hI.chunks x hx).mono hsub

theorem Inv.exits_turn (hI : Inv J s (us ++ w :: vs)) (hw' : w' ≠ .done)
    (hdone : .done ∈ us ++ w' :: vs) (hv : s.valid = true) : J.nrows ≤ s.counter :=
  hI.exits ((mem_turn w hdone).resolve_left hw'.symm) hv

theorem inv_take (hn : 0 < J.nPerRow) (hI : Inv J s (us ++ .looping localSize :: vs))
    (hc : s.counter < J.nrows) (ht : thisNrow = min (J.nrows - s.counter) q) :
    Inv J { s with counter := s.counter + q }
      (us ++ .quantizing localSize s.counter thisNrow (chunkCalls J s.counter thisNrow) :: vs) := by
  have hnew : min (s.counter + q) J.nrows = s.counter + thisNrow := by omega
  have hold : min s.counter J.nrows = s.counter := by omega
  have hflag : Flagged { s with counter := s.counter + q } (us ++ .quantizing localSize s.counter
      thisNrow (chunkCalls J s.counter thisNrow) :: vs) ↔
        Flagged s (us ++ .looping localSize :: vs) :=
    flagged_turn (by simp) (by simp) rfl
  have hfst : (chunkCalls J s.counter thisNrow).map Prod.fst =
      (List.range thisNrow).map (s.counter + ·) := by
    rw [chunkCalls_eq hn, List.map_map]
    rfl
  constructor
  case rows =>
    have hrows := hI.rows
    rw [hold] at hrows
    simp only [hnew, List.range_add, List.flatMap_append, List.flatMap_cons, Worker.rows, hfst,
      List.nil_append] at hrows ⊢
    rw [List.perm_iff_count] at hrows ⊢
    intro row
    have hcount := hrows row
    simp only [List.count_append] at hcount ⊢
    omega
  case encs => exact hI.encs
  case chunks =>
    apply hI.chunks_turn _ fun _ h => h
    refine ⟨by omega, fun x hx => mem_chunkCalls hn hx, fun r hr => .inl ?_⟩
    rw [hfst]
    exact List.mem_map_of_mem (List.mem_range.2 hr)
  case exits =>
    intro hdone hv
    exact Nat.le_add_right_of_le (hI.exits_turn (by simp) hdone hv)
  case caught =>
    intro row hrow hbad
    rw [hflag]
    exact (hI.caught row hrow hbad).imp_right
      (caught_turn (w := .looping localSize) (fun _ h => h) _)
  case honest =>
    rw [hflag]
    exact hI.honest
  case sizes =>
    rw [hflag]
    intro hno
    have hsize := hI.sizes hno
    rw [hold] at hsize
    simp only [hnew, List.map_append, List.map_cons, List.sum_append, List.sum_cons,
      Worker.size, Nat.mul_add] at hsize ⊢
    omega

theorem inv_exit (hI : Inv J s (us ++ .looping localSize :: vs)) (hc : J.nrows ≤ s.counter) :
    Inv J { s with counter := s.counter + q, newSize := s.newSize + localSize }
      (us ++ .done :: vs) := by
  have hold : min s.counter J.nrows = J.nrows := by omega
  have hnew : min (s.counter + q) J.nrows = J.nrows := by omega
  have hflag : Flagged { s with counter := s.counter + q, newSize := s.newSize + localSize }
      (us ++ .done :: vs) ↔ Flagged s (us ++ .looping localSize :: vs) :=
    flagged_turn (by simp) (by simp) rfl
  constructor
  case rows =>
    have hrows := hI.rows
    rw [hold] at hrows
    simpa only [hnew, List.flatMap_append, List.flatMap_cons, Worker.rows,
      List.nil_append] using hrows
  case encs => exact hI.encs
  case chunks => exact hI.chunks_turn trivial fun _ h => h
  case exits =>
    intro _ _
    exact Nat.le_add_right_of_le hc
  case caught =>
    intro row hrow hbad
    rw [hflag]
    exact (hI.caught row hrow hbad).imp_right
      (caught_turn (w := .looping localSize) (fun _ h => h) _)
  case honest =>
    rw [hflag]
    exact hI.honest
  case sizes =>
    rw [hflag]
    intro hno
    have hsize := hI.sizes hno
    rw [hold] at hsize
    simp only [hnew, List.map_append, List.map_cons, List.sum_append, List.sum_cons,
      Worker.size] at hsize ⊢
    omega

theorem inv_write
    (hI : Inv J s (us ++ .quantizing localSize firstRow thisNrow (x :: todo) :: vs)) :
    Inv J { s with newData := x :: s.newData }
      (us ++ .quantizing localSize firstRow thisNrow todo :: vs) := by
  have hflag : Flagged { s with newData := x :: s.newData }
      (us ++ .quantizing localSize firstRow thisNrow todo :: vs) ↔
        Flagged s (us ++ .quantizing localSize firstRow thisNrow (x :: todo) :: vs) :=
    flagged_turn (by simp) (by simp) rfl
  obtain ⟨hfit, htodo, hwritten⟩ := hI.chunks (.quantizing localSize firstRow thisNrow (x :: todo))
    (by simp)
  constructor
  case rows =>
    have hrows := hI.rows
    simp only [List.flatMap_append, List.flatMap_cons, Worker.rows, List.map_cons] at hrows ⊢
    rw [List.perm_iff_count] at hrows ⊢
    intro row
    have hcount := hrows row
    simp only [List.count_append, List.count_cons] at hcount ⊢
    omega
  case encs =>
    intro y hy
    rcases List.mem_cons.1 hy with rfl | hy
    · exact (htodo y List.mem_cons_self).1
    · exact hI.encs y hy
  case chunks =>
    refine hI.chunks_turn ?_ fun _ h => List.mem_cons_of_mem _ h
    refine ⟨hfit, fun z hz => htodo z (List.mem_cons_of_mem x hz), fun r hr => ?_⟩
    have hmem := hwritten r hr
    simp only [List.map_cons, List.mem_cons] at hmem ⊢
    tauto
  case exits => exact hI.exits_turn (by simp)
  case caught =>
    intro row hrow hbad
    rw [hflag]
    rcases List.mem_cons.1 hrow with rfl | hrow
    · exact .inr ⟨_, List.mem_append_right us List.mem_cons_self,
        (htodo x List.mem_cons_self).2⟩
    · refine (hI.caught row hrow hbad).imp_right fun ⟨y, hy, hin⟩ => ?_
      -- The worker that wrote is still in its chunk.
      rcases mem_turn (.quantizing localSize firstRow thisNrow todo) hy with rfl | hy
      · exact ⟨_, List.mem_append_right us List.mem_cons_self, hin⟩
      · exact ⟨y, hy, hin⟩
  case honest =>
    rw [hflag]
    exact hI.honest
  case sizes =>
    rw [hflag]
    intro hno
    have hsize := hI.sizes hno
    simpa only [List.map_append, List.map_cons, List.sum_append, List.sum_cons,
      Worker.size] using hsize

theorem validate_chunk
    (hI : Inv J s (us ++ .quantizing localSize firstRow thisNrow [] :: vs)) :
    ggmlValidateRowData J s.newData firstRow thisNrow = true ↔
      ∀ r < thisNrow, J.validRow (encoding J (firstRow + r)) = true := by
  obtain ⟨_, _, hwritten⟩ := hI.chunks (.quantizing localSize firstRow thisNrow []) (by simp)
  exact validate_iff hI.encs fun r hr => (hwritten r hr).resolve_left List.not_mem_nil

theorem inv_accept (hI : Inv J s (us ++ .quantizing localSize firstRow thisNrow [] :: vs))
    (hvalid : ggmlValidateRowData J s.newData firstRow thisNrow = true) :
    Inv J s (us ++ .looping (localSize + J.rowSize * thisNrow) :: vs) := by
  have hflag : Flagged s (us ++ .looping (localSize + J.rowSize * thisNrow) :: vs) ↔
      Flagged s (us ++ .quantizing localSize firstRow thisNrow [] :: vs) :=
    flagged_turn (by simp) (by simp) rfl
  rw [validate_chunk hI] at hvalid
  constructor
  case rows =>
    have hrows := hI.rows
    simpa only [List.flatMap_append, List.flatMap_cons, Worker.rows, List.map_nil] using hrows
  case encs => exact hI.encs
  case chunks => exact hI.chunks_turn trivial fun _ h => h
  case exits => exact hI.exits_turn (by simp)
  case caught =>
    intro row hrow hbad
    rw [hflag]
    refine (hI.caught row hrow hbad).imp_right fun ⟨y, hy, hin⟩ => ?_
    refine ⟨y, mem_turn_of_ne _ hy ?_, hin⟩
    -- The chunk that was accepted holds no invalid row.
    rintro rfl
    obtain ⟨r, rfl⟩ := Nat.exists_eq_add_of_le hin.1
    rw [hvalid r (Nat.lt_of_add_lt_add_left hin.2)] at hbad
    cases hbad
  case honest =>
    rw [hflag]
    exact hI.honest
  case sizes =>
    rw [hflag]
    intro hno
    have hsize := hI.sizes hno
    simpa only [List.map_append, List.map_cons, List.sum_append, List.sum_cons,
      Worker.size] using hsize

theorem inv_reject (hI : Inv J s (us ++ .quantizing localSize firstRow thisNrow [] :: vs))
    (hvalid : ¬ ggmlValidateRowData J s.newData firstRow thisNrow = true) :
    Inv J s (us ++ .invalidating :: vs) := by
  have hflag : Flagged s (us ++ .invalidating :: vs) :=
    .inr (List.mem_append_right us List.mem_cons_self)
  rw [validate_chunk hI] at hvalid
  obtain ⟨hfit, _⟩ := hI.chunks (.quantizing localSize firstRow thisNrow []) (by simp)
  constructor
  case rows =>
    have hrows := hI.rows
    simpa only [List.flatMap_append, List.flatMap_cons, Worker.rows, List.map_nil] using hrows
  case encs => exact hI.encs
  case chunks => exact hI.chunks_turn trivial fun _ h => h
  case exits => exact hI.exits_turn (by simp)
  case caught =>
    intro _ _ _
    exact .inl hflag
  case honest =>
    intro _ hall
    exact hvalid fun r hr => hall _ (by omega)
  case sizes =>
    intro hno
    exact absurd hflag hno

theorem inv_report (hI : Inv J s (us ++ .invalidating :: vs)) :
    Inv J { s with valid := false } (us ++ .done :: vs) := by
  constructor
  case rows =>
    have hrows := hI.rows
    simpa only [List.flatMap_append, List.flatMap_cons, Worker.rows] using hrows
  case encs => exact hI.encs
  case chunks => exact hI.chunks_turn trivial fun _ h => h
  case exits =>
    intro _ hv
    cases hv
  case caught =>
    intro _ _ _
    exact .inl (.inl rfl)
  case honest =>
    intro _
    exact hI.honest (.inr (List.mem_append_right us List.mem_cons_self))
  case sizes =>
    intro hno
    exact absurd (.inl rfl) hno

/-- Every turn keeps the invariant. -/
theorem inv_compute (hn : 0 < J.nPerRow) (hI : Inv J s (us ++ w :: vs))
    (h : compute J q s w = some (t, w')) : Inv J t (us ++ w' :: vs) := by
  cases w with
  | looping localSize =>
    simp only [compute] at h
    split_ifs at h with hc
    · cases h
      exact inv_exit hI hc
    · cases h
      exact inv_take hn hI (Nat.lt_of_not_le hc) rfl
  | quantizing localSize firstRow thisNrow todo =>
    cases todo with
    | nil =>
      simp only [compute] at h
      split_ifs at h with hvalid
      · cases h
        exact inv_accept hI hvalid
      · cases h
        exact inv_reject hI hvalid
    | cons x todo =>
      cases h
      exact inv_write hI
  | invalidating =>
    cases h
    exact inv_report hI
  | done => cases h

theorem inv_init (J : Job α β Enc) (nthread : Nat) :
    Inv J (State.init nthread).1 (State.init nthread).2 := by
  have hlooping (w : Worker Enc) (hw : w ∈ (State.init nthread).2) : w = .looping 0 :=
    List.eq_of_mem_replicate hw
  have hflag : ¬ Flagged (State.init nthread).1 (State.init nthread : State Enc).2 := by
    rintro (hv | hw)
    · cases hv
    · cases hlooping _ hw
  refine ⟨?_, fun x hx => ?_, fun w hw => ?_, fun hdone _ => ?_, fun row hrow => ?_,
    fun h => absurd h hflag, fun _ => ?_⟩
  · simp [State.init, Worker.rows]
  · cases hx
  · rw [hlooping w hw]
    trivial
  · cases hlooping _ hdone
  · cases hrow
  · simp [State.init, Worker.size]

theorem compute_stopped (h : compute J q s w = none) : w = .done := by
  cases w with
  | looping localSize =>
    simp only [compute] at h
    split_ifs at h
  | quantizing localSize firstRow thisNrow todo =>
    cases todo with
    | nil =>
      simp only [compute] at h
      split_ifs at h
    | cons x todo => cases h
  | invalidating => cases h
  | done => rfl

def Shared.left (J : Job α β Enc) (s : Shared Enc) : Nat := 3 * (J.nrows - s.counter)

def Worker.left : Worker Enc → Nat
  | .looping _ => 2
  | .quantizing _ _ _ todo => todo.length + 3
  | .invalidating => 1
  | .done => 0

/-- A chunk of at least one row brings the end nearer, as every other step does. -/
theorem compute_left (hn : 0 < J.nPerRow) (hq : 0 < q) (h : compute J q s w = some (t, w')) :
    t.left J + w'.left < s.left J + w.left := by
  cases w with
  | looping localSize =>
    simp only [compute] at h
    split_ifs at h with hc
    · cases h
      simp only [Shared.left, Worker.left]
      omega
    · cases h
      simp only [Shared.left, Worker.left, length_chunkCalls hn]
      omega
  | quantizing localSize firstRow thisNrow todo =>
    cases todo with
    | nil =>
      simp only [compute] at h
      split_ifs at h
      · cases h
        simp only [Worker.left, List.length_nil]
        omega
      · cases h
        simp only [Worker.left, List.length_nil]
        omega
    | cons x todo =>
      cases h
      simp only [Shared.left, Worker.left, List.length_cons]
      omega
  | invalidating =>
    cases h
    simp only [Shared.left, Worker.left]
    omega
  | done => cases h

end Schedules

section Outcome
variable {J : Job α β Enc} {r : Option Nat × NewData Enc} {chunkSize : Nat}

/-- What a call leaves: no row is written twice, and each with its own encoding; it returns the
size of all rows, and has then written them all, unless one of them is invalid. -/
structure Quantized (J : Job α β Enc) (r : Option Nat × NewData Enc) : Prop where
  once : (r.2.map Prod.fst).Nodup
  encoded : ∀ x ∈ r.2, x.1 < J.nrows ∧ x.2 = encoding J x.1
  throws : r.1 = none ↔ ¬ AllValid J
  returns : ∀ size, r.1 = some size → size = J.nrows * J.rowSize ∧
    ∀ row < J.nrows, r.2.lookup row = some (encoding J row)

theorem quantized_of_inv {p : State Enc} (hI : Inv J p.1 p.2) (hdone : ∀ w ∈ p.2, w = .done)
    (hne : p.2 ≠ []) : Quantized J (p.1.result, p.1.newData) := by
  have hrows := hI.rows
  have hnone : p.2.flatMap Worker.rows = [] := by
    rw [List.flatMap_eq_nil_iff]
    intro w hw
    rw [hdone w hw]
    rfl
  rw [hnone, List.append_nil] at hrows
  have hflag (hv : p.1.valid = true) : ¬ Flagged p.1 p.2 := by
    rintro (hv' | hw)
    · rw [hv] at hv'
      cases hv'
    · cases hdone _ hw
  have hcount (hv : p.1.valid = true) : min p.1.counter J.nrows = J.nrows := by
    obtain ⟨w, hw⟩ := List.exists_mem_of_ne_nil p.2 hne
    have hexit := hI.exits (hdone w hw ▸ hw) hv
    omega
  have hmem (hv : p.1.valid = true) (row : Nat) (hrow : row < J.nrows) :
      row ∈ p.1.newData.map Prod.fst := by
    rw [hrows.mem_iff, hcount hv, List.mem_range]
    exact hrow
  refine ⟨?_, fun x hx => ⟨?_, hI.encs x hx⟩, ?_, fun size hsize => ?_⟩
  · exact hrows.nodup_iff.2 List.nodup_range
  · have hx' := hrows.mem_iff.1 (List.mem_map_of_mem hx)
    rw [List.mem_range] at hx'
    omega
  · rw [Shared.result]
    split_ifs with hv
    · refine iff_of_false (by simp) (not_not.2 fun row hrow => ?_)
      by_contra hbad
      rw [Bool.not_eq_true] at hbad
      rcases hI.caught row (hmem hv row hrow) hbad with h | ⟨w, hw, hin⟩
      · exact hflag hv h
      · rw [hdone w hw] at hin
        exact hin
    · exact iff_of_true rfl (hI.honest (.inl (by simpa using hv)))
  · simp only [Shared.result, Option.ite_none_right_eq_some, Option.some.injEq] at hsize
    obtain ⟨hv, rfl⟩ := hsize
    refine ⟨?_, fun row hrow => lookup_of_encs hI.encs (hmem hv row hrow)⟩
    have hsizes := hI.sizes (hflag hv)
    have hzero : (p.2.map (Worker.size J)).sum = 0 := by
      refine List.sum_eq_zero fun n hn => ?_
      obtain ⟨w, hw, rfl⟩ := List.mem_map.1 hn
      rw [hdone w hw]
      rfl
    rw [hzero, hcount hv, Nat.add_zero] at hsizes
    rw [hsizes, Nat.mul_comm]

theorem quantized_sequential (hn : 0 < J.nPerRow) : Quantized J (quantizeSequential J) := by
  have hcalls : chunkCalls J 0 J.nrows =
      (List.range J.nrows).map fun row => (row, encoding J row) := by
    rw [chunkCalls_eq hn]
    simp only [Nat.zero_add]
  have hfst : (chunkCalls J 0 J.nrows).reverse.map Prod.fst = (List.range J.nrows).reverse := by
    rw [hcalls, List.map_reverse, List.map_map]
    exact congrArg List.reverse (List.map_id _)
  have hencs : ∀ x ∈ (chunkCalls J 0 J.nrows).reverse, x.2 = encoding J x.1 :=
    fun x hx => (mem_chunkCalls hn (List.mem_reverse.1 hx)).1
  have hmem (row : Nat) (hrow : row < J.nrows) :
      row ∈ (chunkCalls J 0 J.nrows).reverse.map Prod.fst := by
    rw [hfst, List.mem_reverse, List.mem_range]
    exact hrow
  have hvalidate : ggmlValidateRowData J (chunkCalls J 0 J.nrows).reverse 0 J.nrows = true ↔
      AllValid J := by
    rw [validate_iff hencs fun r hr => by rw [Nat.zero_add]; exact hmem r hr]
    simp only [Nat.zero_add]
    rfl
  refine ⟨?_, fun x hx => ⟨?_, hencs x hx⟩, ?_, fun size hsize => ?_⟩
  · rw [quantizeSequential, hfst, (List.reverse_perm _).nodup_iff]
    exact List.nodup_range
  · have hx' := List.mem_map_of_mem (f := Prod.fst) hx
    rw [quantizeSequential, hfst, List.mem_reverse, List.mem_range] at hx'
    exact hx'
  · simp only [quantizeSequential, ite_eq_right_iff, reduceCtorEq, imp_false, hvalidate]
  · simp only [quantizeSequential, Option.ite_none_right_eq_some, Option.some.injEq] at hsize
    exact ⟨by rw [← hsize.2, Nat.mul_comm], fun row hrow => lookup_of_encs hencs (hmem row hrow)⟩

theorem Quantized.result_eq {r' : Option Nat × NewData Enc} (h : Quantized J r)
    (h' : Quantized J r') : r.1 = r'.1 := by
  cases hr : r.1 with
  | none => exact (h'.throws.2 (h.throws.1 hr)).symm
  | some size =>
    cases hr' : r'.1 with
    | none =>
      have hnone := h.throws.2 (h'.throws.1 hr')
      rw [hr] at hnone
      cases hnone
    | some size' => rw [(h.returns size hr).1, (h'.returns size' hr').1]

theorem workers_ne_nil (hthread : 0 < nthread)
    (hrun : ReflTransGen (Interleave (compute J q)) (State.init nthread) p) : p.2 ≠ [] := by
  have hinit : (State.init nthread : State Enc).2 ≠ [] := by
    rw [State.init, Ne, List.replicate_eq_nil_iff]
    omega
  refine interleave_invariant (I := fun _ ws => ws ≠ []) (fun _ _ => ?_) hinit hrun
  exact List.append_ne_nil_of_right_ne_nil _ (List.cons_ne_nil _ _)

theorem compute_wf (hn : 0 < J.nPerRow) (hchunk : J.nPerRow ≤ chunkSize) :
    WellFounded fun q p => Interleave (compute J (chunkSize / J.nPerRow)) p q :=
  interleave_wf (Shared.left J) Worker.left (compute_left hn (Nat.div_pos hchunk hn))

theorem quantized_of_impl (hn : 0 < J.nPerRow)
    (hr : LlamaTensorQuantizeImpl J chunkSize nthread r) : Quantized J r := by
  cases hr with
  | sequential _ => exact quantized_sequential hn
  | parallel hthread hrun hjoin =>
    have hI := interleave_invariant (fun hI h => inv_compute hn hI h) (inv_init J nthread) hrun
    refine quantized_of_inv hI (fun w hw => compute_stopped (hjoin w hw)) ?_
    exact workers_ne_nil (by omega) hrun

theorem exists_impl (hn : 0 < J.nPerRow) (hchunk : 2 ≤ nthread → J.nPerRow ≤ chunkSize) :
    ∃ r, LlamaTensorQuantizeImpl J chunkSize nthread r := by
  by_cases hthread : nthread < 2
  · exact ⟨_, .sequential hthread⟩
  · have hwf := compute_wf hn (hchunk (Nat.le_of_not_lt hthread))
    obtain ⟨q, hrun, hjoin⟩ := exists_stopped hwf (State.init nthread)
    exact ⟨_, .parallel hthread hrun hjoin⟩

/-- However many threads there are and however they are scheduled, the call ends, and every row
is written once with its own slice of the importance matrix. -/
theorem llamaTensorQuantizeImpl_quantized (J : Job α β Enc) (chunkSize nthread : Nat)
    (hn : 0 < J.nPerRow) (hchunk : 2 ≤ nthread → J.nPerRow ≤ chunkSize) :
    (∃ r, LlamaTensorQuantizeImpl J chunkSize nthread r) ∧
      (2 ≤ nthread →
        WellFounded fun q p => Interleave (compute J (chunkSize / J.nPerRow)) p q) ∧
      ∀ r, LlamaTensorQuantizeImpl J chunkSize nthread r →
        Quantized J r ∧ r.1 = (quantizeSequential J).1 := by
  refine ⟨exists_impl hn hchunk, fun hthread => compute_wf hn (hchunk hthread), fun r hr => ?_⟩
  have hquantized := quantized_of_impl hn hr
  exact ⟨hquantized, hquantized.result_eq (quantized_sequential hn)⟩

/-- With chunks of no row the counter stays, and no worker ever leaves its loop. -/
structure Spinning (J : Job α β Enc) (s : Shared Enc) (ws : List (Worker Enc)) : Prop where
  counter : s.counter = 0
  workers : ∀ w ∈ ws, (∃ localSize, w = .looping localSize) ∨
    ∃ localSize, w = .quantizing localSize 0 0 []

theorem spinning_compute (hn : 0 < J.nPerRow) (hrows : 0 < J.nrows)
    (hI : Spinning J s (us ++ w :: vs)) (h : compute J 0 s w = some (t, w')) :
    Spinning J t (us ++ w' :: vs) := by
  obtain ⟨hc, hw⟩ := hI
  have hothers (x : Worker Enc) (hx : x ∈ us ++ w' :: vs) : x = w' ∨ x ∈ us ++ w :: vs :=
    mem_turn w hx
  rcases hw w (List.mem_append_right us List.mem_cons_self) with ⟨l, rfl⟩ | ⟨l, rfl⟩
  · simp only [compute, hc, if_neg (Nat.not_le_of_lt hrows), Nat.min_zero] at h
    cases h
    refine ⟨rfl, fun x hx => (hothers x hx).elim (fun hx => .inr ⟨l, ?_⟩) (hw x)⟩
    rw [hx, chunkCalls_eq hn]
    rfl
  · cases h
    exact ⟨hc, fun x hx => (hothers x hx).elim (fun hx => .inl ⟨_, hx⟩) (hw x)⟩

/-- Several threads given less than a row at a time do not return. -/
theorem not_llamaTensorQuantizeImpl (hchunk : chunkSize < J.nPerRow) (hrows : 0 < J.nrows)
    (hthread : 2 ≤ nthread) (r : Option Nat × NewData Enc) :
    ¬ LlamaTensorQuantizeImpl J chunkSize nthread r := by
  intro hr
  have hn : 0 < J.nPerRow := Nat.zero_lt_of_lt hchunk
  cases hr with
  | sequential h => omega
  | @parallel p _ hrun hjoin =>
    rw [Nat.div_eq_of_lt hchunk] at hrun hjoin
    have hinit : Spinning J (State.init nthread).1 (State.init nthread).2 :=
      ⟨rfl, fun w hw => .inl ⟨0, List.eq_of_mem_replicate hw⟩⟩
    have hspin : Spinning J p.1 p.2 :=
      interleave_invariant (fun hI h => spinning_compute hn hrows hI h) hinit hrun
    obtain ⟨w, hw⟩ := List.exists_mem_of_ne_nil p.2 (workers_ne_nil (by omega) hrun)
    have hdone := compute_stopped (hjoin w hw)
    rcases hspin.workers w hw with ⟨l, rfl⟩ | ⟨l, rfl⟩
    · cases hdone
    · cases hdone

end Outcome

section Instances

/-- Three rows of two values, each kept with its importance. -/
def copyingJob : Job Nat Nat (List Nat × Option (List Nat)) where
  f32Data := [1, 2, 3, 4, 5, 6]
  imatrix := some [7, 8, 9, 10, 11, 12]
  imatrixIsPerWeight := true
  nrows := 3
  nPerRow := 2
  rowSize := 4
  quantizeRow values imatrix := (values, imatrix)
  validRow _ := true

theorem llamaTensorQuantizeImpl_quantized_copyingJob :
    ∃ r, LlamaTensorQuantizeImpl copyingJob 4 2 r ∧ r.1 = some 12 ∧
      r.2.lookup 1 = some ([3, 4], some [9, 10]) := by
  obtain ⟨⟨r, hr⟩, _, hall⟩ :=
    llamaTensorQuantizeImpl_quantized copyingJob 4 2 (by decide) fun _ => by decide
  obtain ⟨hquantized, hresult⟩ := hall r hr
  have hsize : r.1 = some 12 := hresult
  exact ⟨r, hr, hsize, (hquantized.returns 12 hsize).2 1 (by decide)⟩

theorem not_llamaTensorQuantizeImpl_copyingJob :
    ¬ ∃ r, LlamaTensorQuantizeImpl copyingJob 1 2 r := by
  rintro ⟨r, hr⟩
  exact not_llamaTensorQuantizeImpl (by decide) (by decide) (le_refl 2) r hr

end Instances
end ActQuant.Quant.ParallelRows
