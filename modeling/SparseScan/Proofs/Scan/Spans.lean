import SparseScan.Proofs.Scan.Backing

set_option autoImplicit false

/-! # The spans of a variable-length field

The offsets of a batch cut the value bytes into rows. The first row starts at zero and the last
ends with the values, whatever the offsets say; between them a row ends where the next one starts.
So rows whose offsets are in order tile the reported values, and whatever the offsets say, a row
fails only for its own span (`FieldBatch.bytesAt_tiles`). -/

namespace SparseScan

/-- Pieces of a list between ascending cuts, one after the other. -/
theorem flatten_pieces {α : Type} (xs : List α) {cut : Nat → Nat} {n : Nat} (hzero : cut 0 = 0)
    (h : ∀ k < n, cut k ≤ cut (k + 1)) :
    ((List.range n).map fun k => (xs.drop (cut k)).take (cut (k + 1) - cut k)).flatten =
      xs.take (cut n) := by
  induction n with
  | zero => rw [hzero]; rfl
  | succ n ih =>
      have hstep : cut (n + 1) = cut n + (cut (n + 1) - cut n) :=
        (Nat.add_sub_cancel' (h n (Nat.lt_succ_self n))).symm
      rw [List.range_succ, List.map_append, List.flatten_append,
        ih fun k hk => h k (Nat.lt_succ_of_lt hk), hstep, List.take_add]
      simp

/-! ## Offsets of a buffer -/

namespace ElementBuffer

/-- The offset of a row, as the buffer holds it. -/
def offset (o : ElementBuffer) (row : Nat) : Nat :=
  Bytes.toNat ((o.bytes.drop (row * offsetBytes)).take offsetBytes)

/-- Where a row starts, which is where the one before it ends: at zero for the first row, and at
    the end of the values behind the last one. -/
def cut (o : ElementBuffer) (counts : ElementCounts) (row : Nat) : Nat :=
  if row = 0 then 0 else if row < counts.offsets then o.offset row else counts.values

/-- From the second row on, the offsets do not decrease and lie among the reported values. -/
structure Delimits (o : ElementBuffer) (counts : ElementCounts) : Prop where
  sorted : ∀ row, 0 < row → row + 1 < counts.offsets → o.offset row ≤ o.offset (row + 1)
  inside : ∀ row, 0 < row → row < counts.offsets → o.offset row ≤ counts.values

variable {o : ElementBuffer} {counts : ElementCounts} {row : Nat}

@[simp]
theorem cut_zero : o.cut counts 0 = 0 := rfl

theorem cut_of_lt (hpos : 0 < row) (hrow : row < counts.offsets) :
    o.cut counts row = o.offset row := by
  rw [cut, if_neg hpos.ne', if_pos hrow]

theorem cut_last (h : 0 < counts.offsets) : o.cut counts counts.offsets = counts.values := by
  rw [cut, if_neg h.ne', if_neg (Nat.lt_irrefl _)]

theorem cut_le_values (h : o.Delimits counts) (row : Nat) : o.cut counts row ≤ counts.values := by
  unfold cut
  split
  · exact Nat.zero_le _
  · next hpos =>
      split
      · next hrow => exact h.inside row (Nat.pos_of_ne_zero hpos) hrow
      · exact le_rfl

theorem cut_le_cut_succ (h : o.Delimits counts) (hrow : row < counts.offsets) :
    o.cut counts row ≤ o.cut counts (row + 1) := by
  rcases Nat.eq_zero_or_pos row with rfl | hpos
  · exact Nat.zero_le _
  · rw [cut_of_lt hpos hrow, cut, if_neg (Nat.succ_ne_zero row)]
    split
    · next hnext => exact h.sorted row hpos hnext
    · exact h.inside row hpos hrow

/-- Words that are read from the start of a buffer are its offsets. -/
theorem words_take {n : Nat} (h : n * offsetBytes ≤ o.size) :
    FieldBatch.words (o.bytes.take (n * offsetBytes)) = (List.range n).map o.offset := by
  have hlen : (o.bytes.take (n * offsetBytes)).length = n * offsetBytes := by
    rw [List.length_take, o.bytes_length, Nat.min_eq_left h]
  rw [FieldBatch.words, hlen, Nat.mul_div_cancel _ (by decide)]
  refine List.map_congr_left ?_
  intro row hrow
  -- the bytes of a row lie before the end of what is read
  have hfits : offsetBytes ≤ n * offsetBytes - row * offsetBytes := by
    rw [← Nat.sub_mul]
    exact Nat.le_mul_of_pos_left _ (Nat.sub_pos_of_lt (List.mem_range.1 hrow))
  rw [offset, List.drop_take, List.take_take, Nat.min_eq_left hfits]

end ElementBuffer

namespace FieldBatch

section

variable {f : Field} {s : ElementBuffers} {counts : ElementCounts} {b : FieldBatch}
  {o : ElementBuffer}

/-- A batch of the reported rows and values, with the offsets of its buffer. -/
structure Spans (b : FieldBatch) (s : ElementBuffers) (o : ElementBuffer)
    (counts : ElementCounts) : Prop where
  rows : b.rows = counts.offsets
  values : b.values = s.values.bytes.take counts.values
  values_length : b.values.length = counts.values
  offsets : b.offsets = some ((List.range counts.offsets).map o.offset)

theorem spans_of_ok (h : ofBuffers f s counts = .ok b) (hvar : f.varLen = true)
    (ho : s.offsets = some o) : b.Spans s o counts := by
  obtain ⟨-, -, hrows, hvalues, hoffsets, -⟩ := ofBuffers_eq_ok h
  rw [ElementCounts.rows, if_pos hvar] at hrows
  rw [if_pos hvar] at hvalues hoffsets
  rw [hrows, ho] at hoffsets
  obtain ⟨-, hlen, htake⟩ := read_eq_take hvalues
  obtain ⟨offsets, hwords, hsome⟩ := map_eq_ok.1 hoffsets
  obtain ⟨raw, hraw, rfl⟩ := readWords_eq_ok hwords
  obtain ⟨hle, -, rfl⟩ := read_eq_take hraw
  exact ⟨hrows, htake, hlen, by rw [← hsome, ElementBuffer.words_take hle]⟩

namespace Spans

variable (h : b.Spans s o counts) {row : Nat}

include h

/-- A row reaches from its cut to the next one. -/
theorem span_eq (hrow : row < counts.offsets) :
    b.span row = .ok (o.cut counts row, o.cut counts (row + 1)) := by
  have hlast : ((List.range counts.offsets).map o.offset).getD (row + 1) b.values.length =
      o.cut counts (row + 1) := by
    rw [ElementBuffer.cut, if_neg (Nat.succ_ne_zero row), List.getD_eq_getElem?_getD,
      List.getElem?_map, h.values_length]
    split
    · next hnext => rw [List.getElem?_range hnext]; rfl
    · next hend => rw [List.getElem?_eq_none (by simpa using hend)]; rfl
  simp only [span, h.offsets, hlast]
  rcases Nat.eq_zero_or_pos row with rfl | hpos
  · rfl
  · rw [if_neg hpos.ne', List.getElem?_map, List.getElem?_range hrow,
      ElementBuffer.cut_of_lt hpos hrow]
    rfl

theorem bytesAt_eq (hrow : row < counts.offsets) : b.bytesAt row =
    if o.cut counts row ≤ o.cut counts (row + 1) ∧ o.cut counts (row + 1) ≤ counts.values then
      .ok ((b.values.drop (o.cut counts row)).take (o.cut counts (row + 1) - o.cut counts row))
    else .error (.storage (.badSpan (o.cut counts row) (o.cut counts (row + 1))
      counts.values)) := by
  rw [bytesAt, if_neg (Nat.not_le.2 (h.rows ▸ hrow)), h.span_eq hrow]
  simp only [h.values_length]

/-- A row has no bytes exactly if it ends before it starts, or behind the values. -/
theorem bytesAt_error_iff (hrow : row < counts.offsets) : (∃ e, b.bytesAt row = .error e) ↔
    o.cut counts (row + 1) < o.cut counts row ∨ counts.values < o.cut counts (row + 1) := by
  rw [h.bytesAt_eq hrow]
  split
  · next hspan => exact iff_of_false (fun ⟨_, he⟩ => nomatch he) (by omega)
  · next hspan => exact iff_of_true ⟨_, rfl⟩ (by omega)

/-- The rows of offsets in order are the pieces of the values between the cuts. -/
theorem mapM_bytesAt (ho : o.Delimits counts) : (List.range b.rows).mapM b.bytesAt =
    .ok ((List.range counts.offsets).map fun row =>
      (b.values.drop (o.cut counts row)).take (o.cut counts (row + 1) - o.cut counts row)) := by
  rw [h.rows, mapM_eq_ok, List.forall₂_map_right_iff, List.forall₂_same]
  intro row hrow
  have hlt := List.mem_range.1 hrow
  rw [h.bytesAt_eq hlt, if_pos ⟨ElementBuffer.cut_le_cut_succ ho hlt,
    ElementBuffer.cut_le_values ho _⟩]

theorem flatten_rows (ho : o.Delimits counts) (hpos : 0 < counts.offsets) :
    ((List.range counts.offsets).map fun row => (b.values.drop (o.cut counts row)).take
      (o.cut counts (row + 1) - o.cut counts row)).flatten = b.values := by
  rw [flatten_pieces b.values ElementBuffer.cut_zero fun k => ElementBuffer.cut_le_cut_succ ho,
    ElementBuffer.cut_last hpos, List.take_of_length_le h.values_length.le]

end Spans

/-- The rows of a batch with offsets in order, one after the other, are the reported value bytes,
    whatever the first offset is. Whatever the offsets are, every row has an answer, which is an
    error exactly if it ends before it starts or behind the values. -/
theorem bytesAt_tiles (h : ofBuffers f s counts = .ok b) (hvar : f.varLen = true)
    (ho : s.offsets = some o) :
    b.rows = counts.offsets ∧
    (0 < counts.offsets → o.Delimits counts → ∃ rows,
      (List.range b.rows).mapM b.bytesAt = .ok rows ∧
        rows.flatten = s.values.bytes.take counts.values) ∧
    ∀ row < b.rows, Returns (b.bytesAt row) ∧ ((∃ e, b.bytesAt row = .error e) ↔
      o.cut counts (row + 1) < o.cut counts row ∨ counts.values < o.cut counts (row + 1)) := by
  have hspans := spans_of_ok h hvar ho
  refine ⟨hspans.rows, fun hpos hdelimits => ?_, fun row hrow => ?_⟩
  · exact ⟨_, hspans.mapM_bytesAt hdelimits,
      (hspans.flatten_rows hdelimits hpos).trans hspans.values⟩
  · rw [hspans.rows] at hrow
    exact ⟨returns_of_span (hspans.span_eq hrow), hspans.bytesAt_error_iff hrow⟩

end

/-! ## Texts -/

/-- A field of texts. -/
def namesField : Field := ⟨0, "s", .stringUtf8, true, false, .varchar, .ofAttribute⟩

/-- Two words with nothing between them, and an offset of the first row that leads nowhere. -/
def wordElements : ElementBuffers :=
  ⟨some ⟨8, 5, [99, 3, 3].flatMap (Bytes.ofNat offsetBytes), by decide, by decide +kernel⟩,
    ⟨1, 9, [102, 111, 111, 98, 97, 114], by decide, by decide⟩, none⟩

/-- Three rows, of which the second is empty, are all of the six bytes. -/
theorem bytesAt_wordElements : ∃ b rows, ofBuffers namesField wordElements ⟨3, 6⟩ = .ok b ∧
    (List.range b.rows).mapM b.bytesAt = .ok rows ∧
    rows.flatten = [102, 111, 111, 98, 97, 114] ∧ b.bytesAt 1 = .ok [] := by
  have hbatch : ofBuffers namesField wordElements ⟨3, 6⟩ = .ok ⟨.stringUtf8, false, false, 3,
      [102, 111, 111, 98, 97, 114], some [99, 3, 3], none⟩ := by decide +kernel
  obtain ⟨-, htiles, -⟩ := bytesAt_tiles hbatch rfl rfl
  obtain ⟨rows, hrows, hflat⟩ := htiles (by decide) {
    sorted := fun row hpos hrow => by
      change row + 1 < 3 at hrow
      obtain rfl : row = 1 := by omega
      decide +kernel
    inside := fun row hpos hrow => by
      change row < 3 at hrow
      obtain rfl | rfl : row = 1 ∨ row = 2 := by omega
      · decide +kernel
      · decide +kernel }
  exact ⟨_, rows, hbatch, hrows, hflat.trans (by decide +kernel), by decide +kernel⟩

end FieldBatch

end SparseScan
