import SparseScan.Proofs.Storage.Fields

set_option autoImplicit false

/-! # What a submit writes into buffers

The buffers of a field hold its cells one after the other: `flatMap_slice` finds the bytes of one of
them again, and `fill_spec` says what each of the three buffers starts with. -/

namespace SparseScan

/-! ## Chunks -/

section

variable {α : Type} (g : α → List UInt8)

/-- The bytes of the element at a position stand behind those of the elements before it. -/
theorem flatMap_slice {xs : List α} {i : Nat} {x : α} (h : xs[i]? = some x) :
    ((xs.flatMap g).drop ((xs.take i).flatMap g).length).take (g x).length = g x := by
  obtain ⟨hlt, hx⟩ := List.getElem?_eq_some_iff.1 h
  have hsplit : xs.flatMap g = (xs.take i).flatMap g ++ (g x ++ (xs.drop (i + 1)).flatMap g) := by
    conv_lhs => rw [← List.take_append_drop i xs, List.drop_eq_getElem_cons hlt, hx]
    rw [List.flatMap_append, List.flatMap_cons]
  rw [hsplit, List.drop_left, List.take_left]

theorem flatMap_take_length_succ {xs : List α} {i : Nat} {x : α} (h : xs[i]? = some x) :
    ((xs.take (i + 1)).flatMap g).length =
      ((xs.take i).flatMap g).length + (g x).length := by
  rw [List.take_add_one, h, List.flatMap_append, List.length_append]
  simp

theorem flatMap_take_length_le (xs : List α) (i : Nat) :
    ((xs.take i).flatMap g).length ≤ (xs.flatMap g).length := by
  conv_rhs => rw [← List.take_append_drop i xs, List.flatMap_append, List.length_append]
  omega

/-- Chunks of one length take so much each. -/
theorem flatMap_length_of_forall {xs : List α} {w : Nat} (h : ∀ x ∈ xs, (g x).length = w) :
    (xs.flatMap g).length = xs.length * w := by
  induction xs with
  | nil => simp
  | cons x xs ih =>
      rw [List.flatMap_cons, List.length_append, h x (List.mem_cons_self ..),
        ih fun y hy => h y (List.mem_cons_of_mem _ hy), List.length_cons, Nat.succ_mul]
      omega

end

/-! ## Buffers that start with bytes -/

namespace ElementBuffer

/-- The buffer has `bytes` at its start. -/
def StartsWith (b : ElementBuffer) (bytes : List UInt8) : Prop := ∃ rest, b.written = bytes ++ rest

theorem length_le_of_startsWith {b : ElementBuffer} {bytes : List UInt8} (h : b.StartsWith bytes) :
    bytes.length ≤ b.size := by
  obtain ⟨rest, hrest⟩ := h
  have hle := b.written_le
  rw [hrest, List.length_append] at hle
  unfold size
  omega

/-- Reading no more than a buffer starts with reads just that. -/
theorem take?_of_startsWith {b : ElementBuffer} {bytes : List UInt8} (h : b.StartsWith bytes) :
    b.take? bytes.length = some bytes := by
  have hle := length_le_of_startsWith h
  obtain ⟨rest, hrest⟩ := h
  rw [take?, if_pos hle, hrest, List.take_left, List.length_append,
    Nat.sub_eq_zero_of_le (Nat.le_add_right _ _)]
  simp

end ElementBuffer

namespace TiledQuery

theorem put_spec {name : String} {role : BufferRole} {b b' : ElementBuffer} {bytes : List UInt8}
    (h : put name role b bytes = .ok b') :
    b'.StartsWith bytes ∧ b'.width = b.width ∧ b'.capacity = b.capacity := by
  unfold put ElementBuffer.overwrite? at h
  split at h
  · next c hc =>
      cases h
      split at hc
      · cases hc
        exact ⟨⟨_, rfl⟩, rfl, rfl⟩
      · cases hc
  · cases h

/-! ## Filled buffers -/

/-- The positions at which the bytes of cells start. -/
def offsetsOf (f : TiledArray.StoredField) (cells : List Cell) : List Nat :=
  starts 0 (cells.map fun c => (f.packed c).length)

/-- Buffers of the same widths and capacities. -/
structure SameLayout (s s' : ElementBuffers) : Prop where
  offsets : s'.offsets.map (fun b => (b.width, b.capacity)) =
    s.offsets.map fun b => (b.width, b.capacity)
  values : (s'.values.width, s'.values.capacity) = (s.values.width, s.values.capacity)
  validity : s'.validity.map (fun b => (b.width, b.capacity)) =
    s.validity.map fun b => (b.width, b.capacity)

theorem onPresent_put_spec {name : String} {role : BufferRole} {x y : Option ElementBuffer}
    {bytes : List UInt8} (h : onPresent (fun b => put name role b bytes) x = .ok y) :
    y.map (fun b => (b.width, b.capacity)) = x.map (fun b => (b.width, b.capacity)) ∧
      ∀ b, y = some b → b.StartsWith bytes := by
  rcases onPresent_eq_ok.1 h with ⟨rfl, rfl⟩ | ⟨a, b, rfl, hput, rfl⟩
  · exact ⟨rfl, fun b hb => nomatch hb⟩
  · obtain ⟨hstart, hwidth, hcapacity⟩ := put_spec hput
    refine ⟨by simp [hwidth, hcapacity], ?_⟩
    rintro _ ⟨⟩
    exact hstart

/-- Filling keeps the layout, and each buffer starts with what the cells have in it. -/
theorem fill_spec {name : String} {f : TiledArray.StoredField} {cells : List Cell}
    {s s' : ElementBuffers} (h : fill name f cells s = .ok s') :
    SameLayout s s' ∧
      (∀ b, s'.offsets = some b →
        b.StartsWith ((offsetsOf f cells).flatMap (Bytes.ofNat offsetBytes))) ∧
      s'.values.StartsWith (valueBytes f s cells) ∧
      ∀ b, s'.validity = some b → b.StartsWith (cells.map f.flag) := by
  simp only [fill, bind_eq_ok, pure_eq_ok] at h
  obtain ⟨offsets, hoffsets, values, hvalues, validity, hvalidity, rfl⟩ := h
  obtain ⟨hoffsetsLayout, hoffsetsStart⟩ := onPresent_put_spec hoffsets
  obtain ⟨hstart, hwidth, hcapacity⟩ := put_spec hvalues
  obtain ⟨hvalidityLayout, hvalidityStart⟩ := onPresent_put_spec hvalidity
  exact ⟨⟨hoffsetsLayout, by rw [hwidth, hcapacity], hvalidityLayout⟩, hoffsetsStart, hstart,
    hvalidityStart⟩

theorem starts_getElem? (first : Nat) (lens : List Nat) (i : Nat) :
    (starts first lens)[i]? =
      if i < lens.length then some (first + (lens.take i).sum) else none := by
  induction lens generalizing first i with
  | nil => simp [starts]
  | cons n lens ih =>
      cases i with
      | zero => simp [starts]
      | succ i =>
          simp only [starts, List.getElem?_cons_succ, ih, List.length_cons,
            Nat.add_lt_add_iff_right, List.take_succ_cons, List.sum_cons]
          congr 2
          omega

theorem starts_length (first : Nat) (lens : List Nat) :
    (starts first lens).length = lens.length := by
  induction lens generalizing first with
  | nil => rfl
  | cons n lens ih => simp [starts, ih]

theorem offsetsOf_length (f : TiledArray.StoredField) (cells : List Cell) :
    (offsetsOf f cells).length = cells.length := by
  rw [offsetsOf, starts_length, List.length_map]

theorem offsetBytes_length (f : TiledArray.StoredField) (cells : List Cell) :
    ((offsetsOf f cells).flatMap (Bytes.ofNat offsetBytes)).length =
      cells.length * offsetBytes := by
  rw [flatMap_length_of_forall _ fun k _ => Bytes.ofNat_length _ k, offsetsOf_length]

theorem offsetsOf_getElem? (f : TiledArray.StoredField) (cells : List Cell) (i : Nat) :
    (offsetsOf f cells)[i]? =
      if i < cells.length then some ((cells.take i).flatMap f.packed).length else none := by
  rw [offsetsOf, starts_getElem?, List.length_map, ← List.map_take, List.length_flatMap,
    Nat.zero_add]

end TiledQuery

end SparseScan
