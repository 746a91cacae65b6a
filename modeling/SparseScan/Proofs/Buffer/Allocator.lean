import SparseScan.Proofs.Storage.Scaling
import SparseScan.Scan.Advance

set_option autoImplicit false

/-! # What an allocator grants

Buffers are granted twice: for an estimate, within the budget, and later by doubling. A buffer can
be had exactly if one block takes it (`ElementBuffer.allocate_ok_iff`), and with a budget below
`blockLimit` every first buffer can. Growth passes a gate and then doubles all buffers or none
(`BufferAllocator.grow_eq_ok`, `BufferAllocator.grow_eq_error`). -/

namespace SparseScan

/-! ## Blocks -/

theorem two_mul_blockLimit : 2 * blockLimit = addressSpace := by decide

theorem Datatype.width_lt_blockLimit (d : Datatype) : d.width < blockLimit := by
  unfold Datatype.width
  rcases d.form with k | f | _
  · cases k <;> decide
  · cases f <;> decide
  · decide

namespace ElementBuffer

variable {b b' : ElementBuffer} {width capacity : Nat} {e : MemoryError}

theorem allocate_eq_ok : allocate width capacity = .ok b ↔
    ∃ h : capacity * width < blockLimit, b = { width, capacity, size_lt := h } := by
  have haddress : capacity * width < blockLimit → capacity * width < addressSpace := by
    have := two_mul_blockLimit
    omega
  unfold allocate
  constructor
  · intro h
    split at h
    · split at h
      · next hlt =>
          rw [Except.ok.injEq] at h
          exact ⟨hlt, h.symm⟩
      · cases h
    · cases h
  · rintro ⟨hlt, rfl⟩
    rw [if_pos (haddress hlt), dif_pos hlt]

theorem allocate_ok_iff :
    (∃ b, allocate width capacity = .ok b) ↔ capacity * width < blockLimit := by
  simp only [allocate_eq_ok]
  constructor
  · rintro ⟨-, h, -⟩
    exact h
  · intro h
    exact ⟨_, h, rfl⟩

/-- What one block cannot take either is no word, which is an error, or it is beyond what a block
    may take, which ends the run. -/
theorem allocate_eq_error (h : allocate width capacity = .error e) :
    e = .overflow capacity width ∧ addressSpace ≤ capacity * width ∨
      e = .abort (.oversized (capacity * width)) ∧ blockLimit ≤ capacity * width := by
  unfold allocate at h
  split at h
  · split at h
    · cases h
    · next hlarge =>
        cases h
        exact .inr ⟨rfl, Nat.le_of_not_lt hlarge⟩
  · next hlarge =>
      cases h
      exact .inl ⟨rfl, Nat.le_of_not_lt hlarge⟩

/-- A fresh buffer is zero throughout. -/
theorem allocate_bytes (h : allocate width capacity = .ok b) :
    b.bytes = List.replicate b.size 0 := by
  obtain ⟨hlt, rfl⟩ := allocate_eq_ok.1 h
  rfl

/-! ## Doubling -/

/-- A zeroed buffer for twice as many elements of the same width. -/
structure IsDouble (b b' : ElementBuffer) : Prop where
  width : b'.width = b.width
  capacity : b'.capacity = 2 * b.capacity
  bytes : b'.bytes = List.replicate b'.size 0

/-- There is a buffer of twice the size. -/
structure Doublable (b : ElementBuffer) : Prop where
  capacity : b.capacity * 2 < addressSpace
  size : b.capacity * 2 * b.width < blockLimit

theorem IsDouble.size (h : b.IsDouble b') : b'.size = 2 * b.size := by
  rw [ElementBuffer.size, ElementBuffer.size, h.width, h.capacity, Nat.mul_assoc]

theorem double_isDouble (h : b.double = .ok b') : b.IsDouble b' := by
  unfold double at h
  split at h
  · have hbytes := allocate_bytes h
    obtain ⟨hlt, rfl⟩ := allocate_eq_ok.1 h
    exact ⟨rfl, Nat.mul_comm _ _, hbytes⟩
  · cases h

theorem double_ok_iff : (∃ b', b.double = .ok b') ↔ b.Doublable := by
  unfold double
  by_cases hcapacity : b.capacity * 2 < addressSpace
  · simp only [if_pos hcapacity, allocate_ok_iff]
    exact ⟨fun hsize => ⟨hcapacity, hsize⟩, Doublable.size⟩
  · simp only [if_neg hcapacity, reduceCtorEq, exists_false, false_iff]
    exact fun h => hcapacity h.capacity

/-- Why a buffer cannot be doubled: as many elements are not counted by a word, which is an error,
    or no block takes them, which ends the run. -/
structure Undoublable (b : ElementBuffer) (e : MemoryError) : Prop where
  not_doublable : ¬ b.Doublable
  returned : e.aborts = false → e = .overflow b.capacity b.width ∧ addressSpace ≤ b.capacity * 2
  aborted : e.aborts = true →
    e = .abort (.oversized (b.capacity * 2 * b.width)) ∧ blockLimit ≤ b.capacity * 2 * b.width

theorem double_undoublable (h : b.double = .error e) : b.Undoublable e := by
  have hnot : ¬ b.Doublable := by
    intro hb
    obtain ⟨b', hb'⟩ := double_ok_iff.2 hb
    cases h.symm.trans hb'
  have hword : b.capacity * 2 * b.width < addressSpace := by
    have hsize := b.size_lt
    have htwo := two_mul_blockLimit
    rw [Nat.mul_right_comm]
    omega
  unfold double at h
  split at h
  · rcases allocate_eq_error h with ⟨-, hoverflow⟩ | ⟨rfl, hlarge⟩
    · exact absurd hword (Nat.not_lt.2 hoverflow)
    · exact ⟨hnot, nofun, fun _ => ⟨rfl, hlarge⟩⟩
  · next hlarge =>
      cases h
      exact ⟨hnot, fun _ => ⟨rfl, Nat.le_of_not_lt hlarge⟩, nofun⟩

end ElementBuffer

namespace ElementBuffers

/-- Every buffer that is there is doubled, and no other one is added. -/
structure IsDouble (s s' : ElementBuffers) : Prop where
  offsets : Option.Rel ElementBuffer.IsDouble s.offsets s'.offsets
  values : s.values.IsDouble s'.values
  validity : Option.Rel ElementBuffer.IsDouble s.validity s'.validity

variable {s s' : ElementBuffers}

theorem onPresent_isDouble {x y : Option ElementBuffer}
    (h : onPresent ElementBuffer.double x = .ok y) : Option.Rel ElementBuffer.IsDouble x y := by
  rcases onPresent_eq_ok.1 h with ⟨rfl, rfl⟩ | ⟨b, b', rfl, hb, rfl⟩
  · exact .none
  · exact .some (ElementBuffer.double_isDouble hb)

theorem double_isDouble (h : s.double = .ok s') : s.IsDouble s' := by
  simp only [double, bind_eq_ok, pure_eq_ok] at h
  obtain ⟨offsets, hoffsets, values, hvalues, validity, hvalidity, rfl⟩ := h
  exact ⟨onPresent_isDouble hoffsets, ElementBuffer.double_isDouble hvalues,
    onPresent_isDouble hvalidity⟩

theorem size_optional {x y : Option ElementBuffer} (h : Option.Rel ElementBuffer.IsDouble x y) :
    (y.toList.map (·.size)).sum = 2 * (x.toList.map (·.size)).sum := by
  cases h with
  | some hb => simpa using hb.size
  | none => rfl

theorem IsDouble.size (h : s.IsDouble s') : s'.size = 2 * s.size := by
  have hoffsets := size_optional h.offsets
  have hvalidity := size_optional h.validity
  simp only [ElementBuffers.size, buffers, List.map_append, List.sum_append, List.map_singleton,
    List.sum_singleton, h.values.size]
  omega

/-- Doubling fails as it does for one of the buffers. -/
theorem double_eq_error {e : MemoryError} (h : s.double = .error e) :
    ∃ b ∈ s.buffers, b.double = .error e := by
  simp only [double, bind_eq_error, pure, Except.pure, reduceCtorEq, and_false, exists_false,
    or_false] at h
  rcases h with hoffsets | ⟨-, -, hvalues | ⟨-, -, hvalidity⟩⟩
  · obtain ⟨o, ho, hdouble⟩ := onPresent_eq_error hoffsets
    exact ⟨o, by simp [buffers, ho], hdouble⟩
  · exact ⟨s.values, by simp [buffers], hvalues⟩
  · obtain ⟨v, hv, hdouble⟩ := onPresent_eq_error hvalidity
    exact ⟨v, by simp [buffers, hv], hdouble⟩

theorem double_ok_iff : (∃ s', s.double = .ok s') ↔ ∀ b ∈ s.buffers, b.Doublable := by
  constructor
  · rintro ⟨s', h⟩ b hb
    simp only [double, bind_eq_ok, pure_eq_ok] at h
    obtain ⟨offsets, hoffsets, values, hvalues, validity, hvalidity, -⟩ := h
    have hpresent : ∀ {x y : Option ElementBuffer}, onPresent ElementBuffer.double x = .ok y →
        x = some b → b.Doublable := by
      rintro x y hx rfl
      obtain ⟨b', hb', -⟩ := map_eq_ok.1 hx
      exact ElementBuffer.double_ok_iff.1 ⟨b', hb'⟩
    simp only [buffers, List.mem_append, Option.mem_toList, List.mem_singleton, or_assoc] at hb
    rcases hb with hb | rfl | hb
    · exact hpresent hoffsets hb
    · exact ElementBuffer.double_ok_iff.1 ⟨_, hvalues⟩
    · exact hpresent hvalidity hb
  · intro h
    cases hdouble : s.double with
    | ok s' => exact ⟨s', rfl⟩
    | error e =>
        obtain ⟨b, hb, he⟩ := double_eq_error hdouble
        exact absurd (h b hb) (ElementBuffer.double_undoublable he).not_doublable

end ElementBuffers

namespace NamedBuffers

/-- The buffers of the same field, doubled. -/
structure IsDouble (f f' : NamedBuffers) : Prop where
  name : f'.name = f.name
  datatype : f'.datatype = f.datatype
  buffers : f.buffers.IsDouble f'.buffers

variable {f f' : NamedBuffers} {fs fs' : List NamedBuffers}

theorem double_isDouble (h : f.double = .ok f') : f.IsDouble f' := by
  obtain ⟨s, hs, rfl⟩ := map_eq_ok.1 h
  exact ⟨rfl, rfl, ElementBuffers.double_isDouble hs⟩

theorem double_ok_iff : (∃ f', f.double = .ok f') ↔ ∀ b ∈ f.buffers.buffers, b.Doublable := by
  rw [← ElementBuffers.double_ok_iff]
  constructor
  · rintro ⟨f', h⟩
    obtain ⟨s, hs, -⟩ := map_eq_ok.1 h
    exact ⟨s, hs⟩
  · rintro ⟨s, hs⟩
    exact ⟨{ f with buffers := s }, map_eq_ok.2 ⟨s, hs, rfl⟩⟩

theorem footprint_isDouble (h : List.Forall₂ IsDouble fs fs') :
    footprint fs' = 2 * footprint fs := by
  induction h with
  | nil => rfl
  | cons hf _ ih =>
      simp only [footprint, List.map_cons, List.sum_cons] at ih ⊢
      rw [ih, hf.buffers.size, Nat.mul_add]

/-- Doubling fails as it does for some buffer of some field. -/
theorem mapM_double_eq_error {e : MemoryError} (h : fs.mapM double = .error e) :
    ∃ f ∈ fs, ∃ b ∈ f.buffers.buffers, b.double = .error e := by
  obtain ⟨f, hf, hfield⟩ := mapM_eq_error h
  exact ⟨f, hf, ElementBuffers.double_eq_error (map_eq_error.1 hfield)⟩

theorem mapM_double_ok_iff : (∃ fs', fs.mapM double = .ok fs') ↔
    ∀ f ∈ fs, ∀ b ∈ f.buffers.buffers, b.Doublable := by
  constructor
  · rintro ⟨fs', h⟩ f hf
    obtain ⟨i, hi⟩ := List.mem_iff_getElem?.1 hf
    obtain ⟨f', -, hdouble⟩ := forall₂_getElem? (mapM_eq_ok.1 h) hi
    exact double_ok_iff.1 ⟨f', hdouble⟩
  · intro h
    exact mapM_ok fun f hf => double_ok_iff.2 (h f hf)

end NamedBuffers

/-! ## First buffers -/

section

variable {budget width estimate : Nat}

theorem elementsWithin_pos : 1 ≤ elementsWithin budget width estimate := Nat.le_max_left _ _

/-- What fits into the budget is granted, and no more than that. -/
theorem elementsWithin_of_le (hwidth : 0 < width) (h : estimate * width ≤ budget) :
    elementsWithin budget width estimate = max 1 estimate := by
  simp only [elementsWithin, Nat.max_eq_left hwidth, if_pos h]

theorem le_elementsWithin (hwidth : 0 < width) (h : estimate * width ≤ budget) :
    estimate ≤ elementsWithin budget width estimate := by
  rw [elementsWithin_of_le hwidth h]
  exact Nat.le_max_right _ _

/-- No more than the budget is granted, or one element. -/
theorem elementsWithin_mul_le (hwidth : 0 < width) :
    elementsWithin budget width estimate * width ≤ max budget width := by
  have hfits :
      (if estimate * width ≤ budget then estimate else budget / width) * width ≤ budget := by
    split
    · next h => exact h
    · exact Nat.div_mul_le_self budget width
  simp only [elementsWithin, Nat.max_eq_left hwidth]
  generalize (if estimate * width ≤ budget then estimate else budget / width) = n at hfits ⊢
  rcases Nat.le_total 1 n with hn | hn
  · rw [Nat.max_eq_right hn]
    exact hfits.trans (Nat.le_max_left _ _)
  · rw [Nat.max_eq_left hn, Nat.one_mul]
    exact Nat.le_max_right _ _

end

/-- The sizes in bytes of buffers with the capacities for elements of datatype `d`. -/
def Capacities.sizes (c : Capacities) (d : Datatype) : List Nat :=
  (c.offsets.map (· * offsetBytes)).toList ++ [c.values * d.width] ++
    (c.validity.map (· * flagBytes)).toList

namespace ElementBuffers

variable {d : Datatype} {c : Capacities} {e : MemoryError}

/-- Buffers fail as one of them does. -/
theorem allocate_eq_error (h : allocate d c = .error e) :
    ∃ width capacity, capacity * width ∈ c.sizes d ∧
      ElementBuffer.allocate width capacity = .error e := by
  simp only [allocate, bind_eq_error, pure, Except.pure, reduceCtorEq, and_false, exists_false,
    or_false] at h
  rcases h with hoffsets | ⟨-, -, hvalues | ⟨-, -, hvalidity⟩⟩
  · obtain ⟨n, hn, hbuffer⟩ := onPresent_eq_error hoffsets
    exact ⟨offsetBytes, n, by simp [Capacities.sizes, hn], hbuffer⟩
  · exact ⟨d.width, c.values, by simp [Capacities.sizes], hvalues⟩
  · obtain ⟨n, hn, hbuffer⟩ := onPresent_eq_error hvalidity
    exact ⟨flagBytes, n, by simp [Capacities.sizes, hn], hbuffer⟩

theorem allocate_ok_iff : (∃ s, allocate d c = .ok s) ↔ ∀ n ∈ c.sizes d, n < blockLimit := by
  constructor
  · rintro ⟨s, h⟩ n hn
    simp only [allocate, bind_eq_ok, pure_eq_ok] at h
    obtain ⟨offsets, hoffsets, values, hvalues, validity, hvalidity, -⟩ := h
    have hpresent : ∀ {width : Nat} {x : Option Nat} {y : Option ElementBuffer},
        onPresent (ElementBuffer.allocate width) x = .ok y → x.map (· * width) = some n →
          n < blockLimit := by
      intro width x y hx hsize
      obtain ⟨capacity, rfl, rfl⟩ := Option.map_eq_some_iff.1 hsize
      obtain ⟨b, hb, -⟩ := map_eq_ok.1 hx
      exact ElementBuffer.allocate_ok_iff.1 ⟨b, hb⟩
    simp only [Capacities.sizes, List.mem_append, Option.mem_toList, List.mem_singleton,
      or_assoc] at hn
    rcases hn with hn | rfl | hn
    · exact hpresent hoffsets hn
    · exact ElementBuffer.allocate_ok_iff.1 ⟨values, hvalues⟩
    · exact hpresent hvalidity hn
  · intro h
    cases hallocate : allocate d c with
    | ok s => exact ⟨s, rfl⟩
    | error e =>
        obtain ⟨width, capacity, hmem, hbuffer⟩ := allocate_eq_error hallocate
        obtain ⟨b, hb⟩ := ElementBuffer.allocate_ok_iff.2 (h _ hmem)
        cases hbuffer.symm.trans hb

end ElementBuffers

/-- A zeroed buffer for the elements that are expected, as far as the budget goes. -/
structure ElementBuffer.SizedFor (budget width estimate : Nat) (b : ElementBuffer) : Prop where
  width_eq : b.width = width
  capacity_pos : 1 ≤ b.capacity
  size_le : b.size ≤ max budget width
  enough : estimate * width ≤ budget → estimate ≤ b.capacity
  bytes_eq : b.bytes = List.replicate b.size 0

theorem ElementBuffer.allocate_sizedFor {b : ElementBuffer} {budget width estimate : Nat}
    (hwidth : 0 < width) (h : allocate width (elementsWithin budget width estimate) = .ok b) :
    b.SizedFor budget width estimate := by
  have hbytes := allocate_bytes h
  obtain ⟨hlt, rfl⟩ := allocate_eq_ok.1 h
  exact ⟨rfl, elementsWithin_pos, elementsWithin_mul_le hwidth, le_elementsWithin hwidth, hbytes⟩

namespace BufferAllocator

variable {a : BufferAllocator} {f : Field} {e : Estimate} {b : NamedBuffers}

/-- The buffers of a field for an estimate, each within the budget. -/
structure Grants (budget : Nat) (f : Field) (e : Estimate) (b : NamedBuffers) : Prop where
  name : b.name = f.name
  datatype : b.datatype = f.datatype
  offsets_isSome : b.buffers.offsets.isSome = f.varLen
  validity_isSome : b.buffers.validity.isSome = f.nullable
  offsets : ∀ o, b.buffers.offsets = some o → o.SizedFor budget offsetBytes e.cells
  values : b.buffers.values.SizedFor budget f.datatype.width e.values
  validity : ∀ v, b.buffers.validity = some v →
    v.SizedFor budget flagBytes (e.validity.getD e.cells)

theorem onPresent_sizedFor {shaped : Bool} {budget width estimate : Nat}
    {y : Option ElementBuffer} (hwidth : 0 < width)
    (h : onPresent (ElementBuffer.allocate width)
      (if shaped then some (elementsWithin budget width estimate) else none) = .ok y) :
    y.isSome = shaped ∧ ∀ b, y = some b → b.SizedFor budget width estimate := by
  cases shaped with
  | false =>
      rcases onPresent_eq_ok.1 h with ⟨-, rfl⟩ | ⟨n, b, hn, -, -⟩
      · simp
      · cases hn
  | true =>
      rcases onPresent_eq_ok.1 h with ⟨hnone, -⟩ | ⟨n, b, hn, hb, rfl⟩
      · cases hnone
      · cases hn
        refine ⟨rfl, ?_⟩
        rintro _ ⟨⟩
        exact ElementBuffer.allocate_sizedFor hwidth hb

theorem allocate_grants (h : a.allocate f e = .ok b) : Grants a.budget f e b := by
  obtain ⟨s, hs, rfl⟩ := map_eq_ok.1 h
  simp only [ElementBuffers.allocate, bind_eq_ok, pure_eq_ok] at hs
  obtain ⟨offsets, hoffsets, values, hvalues, validity, hvalidity, rfl⟩ := hs
  obtain ⟨hisOffsets, hsizedOffsets⟩ := onPresent_sizedFor (by decide) hoffsets
  obtain ⟨hisValidity, hsizedValidity⟩ := onPresent_sizedFor (by decide) hvalidity
  exact ⟨rfl, rfl, hisOffsets, hisValidity, hsizedOffsets,
    ElementBuffer.allocate_sizedFor f.datatype.width_pos hvalues, hsizedValidity⟩

/-- No first buffer is larger than the budget and every element. -/
theorem initialSizes_lt {limit : Nat} (hbudget : a.budget < limit) (hlimit : blockLimit ≤ limit) :
    ∀ n ∈ (a.initialCapacities f e).sizes f.datatype, n < limit := by
  have hsize : ∀ {width : Nat} (estimate : Nat), 0 < width → width < blockLimit →
      a.elementsFor width estimate * width < limit := by
    intro width estimate hpos hwidth
    refine lt_of_le_of_lt (elementsWithin_mul_le hpos) ?_
    exact Nat.max_lt.2 ⟨hbudget, hwidth.trans_le hlimit⟩
  intro n hn
  simp only [Capacities.sizes, initialCapacities, List.mem_append, Option.mem_toList,
    List.mem_singleton, or_assoc] at hn
  rcases hn with hn | rfl | hn
  · obtain ⟨m, hm, rfl⟩ := Option.map_eq_some_iff.1 hn
    cases (Option.ite_none_right_eq_some.1 hm).2
    exact hsize _ (by decide) (by decide)
  · exact hsize _ f.datatype.width_pos f.datatype.width_lt_blockLimit
  · obtain ⟨m, hm, rfl⟩ := Option.map_eq_some_iff.1 hn
    cases (Option.ite_none_right_eq_some.1 hm).2
    exact hsize _ (by decide) (by decide)

/-- With a budget that one block can take, every field gets buffers for every estimate. With any
    budget it gets them exactly if one block takes each of them, no size is beyond a word, and the
    buffers it gets are within the budget and hold what is expected if the budget allows. -/
theorem allocate_within_budget (a : BufferAllocator) (f : Field) (e : Estimate) :
    let sizes := (a.initialCapacities f e).sizes f.datatype
    (a.budget < blockLimit → ∃ b, a.allocate f e = .ok b) ∧
    ((∃ b, a.allocate f e = .ok b) ↔ ∀ n ∈ sizes, n < blockLimit) ∧
    (a.budget < addressSpace → (∀ n ∈ sizes, n < addressSpace) ∧
      ∀ m, a.allocate f e = .error m →
        ∃ n ∈ sizes, m = .abort (.oversized n) ∧ blockLimit ≤ n) ∧
    ∀ b, a.allocate f e = .ok b → Grants a.budget f e b := by
  intro sizes
  have hiff : (∃ b, a.allocate f e = .ok b) ↔ ∀ n ∈ sizes, n < blockLimit := by
    rw [← ElementBuffers.allocate_ok_iff]
    constructor
    · rintro ⟨b, hb⟩
      obtain ⟨s, hs, -⟩ := map_eq_ok.1 hb
      exact ⟨s, hs⟩
    · rintro ⟨s, hs⟩
      exact ⟨_, map_eq_ok.2 ⟨s, hs, rfl⟩⟩
  refine ⟨fun hbudget => hiff.2 (initialSizes_lt hbudget le_rfl), hiff, ?_,
    fun b => allocate_grants⟩
  intro hbudget
  have hword : ∀ n ∈ sizes, n < addressSpace := initialSizes_lt hbudget (by decide)
  refine ⟨hword, fun m hm => ?_⟩
  obtain ⟨width, capacity, hmem, hbuffer⟩ := ElementBuffers.allocate_eq_error (map_eq_error.1 hm)
  rcases ElementBuffer.allocate_eq_error hbuffer with ⟨-, hoverflow⟩ | ⟨rfl, hlarge⟩
  · exact absurd (hword _ hmem) (Nat.not_lt.2 hoverflow)
  · exact ⟨_, hmem, rfl, hlarge⟩

/-- No block takes what the greatest budget allows for as many bytes. -/
theorem allocate_blockLimit :
    ({ budget := addressSpace - 1, growth := {}, memory := .constant 0 } : BufferAllocator).allocate
      ⟨0, "f", .int8, false, false, .bigInt, .ofAttribute⟩ ⟨none, blockLimit, none⟩ =
        .error (.abort (.oversized blockLimit)) := by
  decide +kernel

end BufferAllocator

/-! ## The gate -/

namespace GrowthRule

variable {g : GrowthRule} {current : Nat} {reading : UInt64} {e : MemoryError}

/-- The gate lets growth through exactly if more is free than the multiple of the footprint. A
    reading is a word, so that the multiple is cut off at the greatest word decides nothing. -/
theorem permit_eq_ok :
    g.permit current reading = .ok () ↔ current * g.headroom < reading.toNat := by
  have hword : reading.toNat < addressSpace := reading.toNat_lt
  simp only [permit]
  split
  · next h =>
      simp only [true_iff]
      omega
  · next h =>
      simp only [reduceCtorEq, false_iff]
      omega

/-- What a gate that refuses growth says. -/
def refusal (g : GrowthRule) (current : Nat) (reading : UInt64) : MemoryError :=
  .insufficient current (min (current * g.headroom) (addressSpace - 1)) reading.toNat

theorem permit_eq_refusal (h : g.permit current reading = .error e) :
    ¬ current * g.headroom < reading.toNat ∧ e = g.refusal current reading := by
  refine ⟨fun hlt => ?_, ?_⟩
  · rw [permit_eq_ok.2 hlt] at h
    cases h
  · simp only [permit] at h
    split at h
    · cases h
    · rw [Except.error.injEq] at h
      exact h.symm

end GrowthRule

namespace BufferAllocator

variable {a a' : BufferAllocator} {fs grown : List NamedBuffers} {e : MemoryError}

/-- Growth that succeeds has been let through, and notes what the doubled buffers take. -/
theorem grow_eq_ok (h : a.grow fs = (.ok grown, a')) :
    a.growth.permit (NamedBuffers.footprint fs) a.memory.next.1 = .ok () ∧
      fs.mapM NamedBuffers.double = .ok grown ∧
      a' = { a with memory := a.memory.next.2 }.record grown := by
  simp only [grow] at h
  split at h
  · cases h
  · next hpermit =>
      split at h
      · cases h
      · next hdouble =>
          cases h
          exact ⟨hpermit, hdouble, rfl⟩

/-- Growth that fails has taken a reading. The gate has refused it, or some buffer cannot be
    doubled. -/
theorem grow_eq_error (h : a.grow fs = (.error e, a')) :
    a' = { a with memory := a.memory.next.2 } ∧
      (a.growth.permit (NamedBuffers.footprint fs) a.memory.next.1 = .error e ∨
        a.growth.permit (NamedBuffers.footprint fs) a.memory.next.1 = .ok () ∧
          fs.mapM NamedBuffers.double = .error e) := by
  simp only [grow] at h
  split at h
  · next hpermit =>
      cases h
      exact ⟨rfl, .inl hpermit⟩
  · next hpermit =>
      split at h
      · next hdouble =>
          cases h
          exact ⟨rfl, .inr ⟨hpermit, hdouble⟩⟩
      · cases h

theorem grow_ok_iff : (∃ grown, (a.grow fs).1 = .ok grown) ↔
    a.growth.permit (NamedBuffers.footprint fs) a.memory.next.1 = .ok () ∧
      ∀ f ∈ fs, ∀ b ∈ f.buffers.buffers, b.Doublable := by
  rw [← NamedBuffers.mapM_double_ok_iff]
  constructor
  · rintro ⟨grown, hok⟩
    obtain ⟨hpermit, hdouble, -⟩ := grow_eq_ok (Prod.ext hok rfl)
    exact ⟨hpermit, grown, hdouble⟩
  · rintro ⟨hpermit, grown, hdouble⟩
    exact ⟨grown, by simp only [grow, hpermit, hdouble]⟩

/-- Growth asks how much memory is free once, whether it is granted or not. -/
theorem grow_memory (a : BufferAllocator) (fs : List NamedBuffers) :
    (a.grow fs).2.memory = a.memory.next.2 := by
  rcases hgrow : a.grow fs with ⟨e | grown, a'⟩
  · rw [(grow_eq_error hgrow).1]
  · rw [(grow_eq_ok hgrow).2.2]
    rfl

end BufferAllocator

/-! ## Growth of the buffers of a scan -/

namespace Scan

variable {Q : Type} [QueryEngine Q] {s : Scan Q}

/-- Registering buffers changes no more than the query. -/
theorem registerAll_scan (bs : List NamedBuffers) (s : Scan Q) :
    ∃ query, (registerAll bs s).scan = { s with query } := by
  induction bs generalizing s with
  | nil => exact ⟨s.query, rfl⟩
  | cons b rest ih =>
      refine Outcome.andThen_scan (P := fun t => ∃ query, t = { s with query }) ⟨_, rfl⟩ ?_
      rintro _ t ⟨query, rfl⟩
      exact ih { s with query }

theorem grow_of_error {e : MemoryError} {allocator : BufferAllocator}
    (h : s.allocator.grow s.buffers = (.error e, allocator)) :
    s.grow = ⟨.error (.memory e), { s with allocator }⟩ := by
  simp only [grow, h]

theorem grow_scan_of_ok {grown : List NamedBuffers} {allocator : BufferAllocator}
    (h : s.allocator.grow s.buffers = (.ok grown, allocator)) :
    ∃ query, s.grow.scan = { s with query, buffers := grown, allocator } := by
  simp only [grow, h]
  exact registerAll_scan grown _

/-- Growth changes no more than the buffers, the query, and what the allocator knows. -/
theorem grow_scan (s : Scan Q) : ∃ query buffers allocator,
    s.grow.scan = { s with query, buffers, allocator } := by
  rcases hgrow : s.allocator.grow s.buffers with ⟨e | grown, allocator⟩
  · rw [grow_of_error hgrow]
    exact ⟨s.query, s.buffers, allocator, rfl⟩
  · obtain ⟨query, hscan⟩ := grow_scan_of_ok hgrow
    exact ⟨query, grown, allocator, hscan⟩

/-- Growth is all or nothing. It is let through exactly if more is free than the multiple of the
    footprint, and then succeeds exactly if every buffer can be doubled. On success all buffers are
    zeroed ones of twice the capacity for the same fields, and the footprint, noted with its peak,
    is twice as large. On failure the scan is as it was, apart from the reading that was taken; what
    fails is returned as an error, unless it is that no block is large enough, which ends the run.
    -/
theorem grow_all_or_none (s : Scan Q) :
    let reading := s.allocator.memory.next.1
    let current := NamedBuffers.footprint s.buffers
    let passes := current * s.allocator.growth.headroom < reading.toNat
    (s.allocator.growth.permit current reading = .ok () ↔ passes) ∧
    ((∃ grown, (s.allocator.grow s.buffers).1 = .ok grown) ↔
      passes ∧ ∀ f ∈ s.buffers, ∀ b ∈ f.buffers.buffers, b.Doublable) ∧
    (∀ grown, (s.allocator.grow s.buffers).1 = .ok grown →
      s.grow.scan.buffers = grown ∧ List.Forall₂ NamedBuffers.IsDouble s.buffers grown ∧
      NamedBuffers.footprint grown = 2 * current ∧
      s.grow.scan.allocator = { s.allocator with
        memory := s.allocator.memory.next.2
        footprint := ⟨2 * current, max s.allocator.footprint.peak (2 * current)⟩ }) ∧
    ∀ e, (s.allocator.grow s.buffers).1 = .error e →
      s.grow = ⟨.error (.memory e), { s with
        allocator := { s.allocator with memory := s.allocator.memory.next.2 } }⟩ ∧
      (¬ passes ∧ e = s.allocator.growth.refusal current reading ∨
        passes ∧ ∃ f ∈ s.buffers, ∃ b ∈ f.buffers.buffers,
          b.double = .error e ∧ b.Undoublable e) := by
  intro reading current passes
  have hpasses : s.allocator.growth.permit current reading = .ok () ↔ passes :=
    GrowthRule.permit_eq_ok
  refine ⟨hpasses, BufferAllocator.grow_ok_iff.trans (and_congr_left' hpasses), ?_⟩
  rcases hgrow : s.allocator.grow s.buffers with ⟨e | grown, allocator⟩
  · refine ⟨nofun, ?_⟩
    rintro _ ⟨⟩
    obtain ⟨rfl, hcause⟩ := BufferAllocator.grow_eq_error hgrow
    refine ⟨grow_of_error hgrow, ?_⟩
    rcases hcause with hpermit | ⟨hpermit, hdouble⟩
    · exact .inl (GrowthRule.permit_eq_refusal hpermit)
    · obtain ⟨f, hf, b, hb, hbuffer⟩ := NamedBuffers.mapM_double_eq_error hdouble
      exact .inr ⟨hpasses.1 hpermit, f, hf, b, hb, hbuffer,
        ElementBuffer.double_undoublable hbuffer⟩
  · refine ⟨?_, nofun⟩
    rintro _ ⟨⟩
    obtain ⟨-, hdouble, rfl⟩ := BufferAllocator.grow_eq_ok hgrow
    obtain ⟨query, hscan⟩ := grow_scan_of_ok hgrow
    have hall : List.Forall₂ NamedBuffers.IsDouble s.buffers grown :=
      (mapM_eq_ok.1 hdouble).imp fun _ _ => NamedBuffers.double_isDouble
    have hfootprint : NamedBuffers.footprint grown = 2 * current :=
      NamedBuffers.footprint_isDouble hall
    rw [hscan]
    refine ⟨rfl, hall, hfootprint, ?_⟩
    simp only [BufferAllocator.record, Footprint.record, hfootprint]

end Scan

end SparseScan
