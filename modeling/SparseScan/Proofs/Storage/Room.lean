import SparseScan.Proofs.Storage.Submit

set_option autoImplicit false

/-! # The room that a submit needs

A submit takes no more cells than every registered buffer has room for, and whole tiles unless it
takes all that remain: `batchSize_le_room` and `batchSize_tiles`. Hence cells that it takes can be
written: given buffers with the registered layouts, an open query with something registered always
answers (`submit_ok_iff`). -/

namespace SparseScan

/-! ## Layouts -/

/-- Buffers for elements of datatype `d` with the given capacities. -/
structure ElementBuffers.HasLayout (s : ElementBuffers) (d : Datatype) (c : Capacities) :
    Prop where
  offsets : s.offsets.map (fun b => (b.width, b.capacity)) =
    c.offsets.map fun n => (offsetBytes, n)
  values : (s.values.width, s.values.capacity) = (d.width, c.values)
  validity : s.validity.map (fun b => (b.width, b.capacity)) =
    c.validity.map fun n => (flagBytes, n)

theorem allocate_layout {w n : Nat} {b : ElementBuffer}
    (h : ElementBuffer.allocate w n = .ok b) : (b.width, b.capacity) = (w, n) := by
  unfold ElementBuffer.allocate at h
  split at h
  · split at h
    · cases h
      rfl
    · cases h
  · cases h

theorem onPresent_allocate_layout {w : Nat} {x : Option Nat} {y : Option ElementBuffer}
    (h : onPresent (ElementBuffer.allocate w) x = .ok y) :
    y.map (fun b => (b.width, b.capacity)) = x.map fun n => (w, n) := by
  rcases onPresent_eq_ok.1 h with ⟨rfl, rfl⟩ | ⟨n, b, rfl, hb, rfl⟩
  · rfl
  · rw [Option.map_some, Option.map_some, allocate_layout hb]

namespace ElementBuffers

variable {s s' : ElementBuffers} {d : Datatype} {c : Capacities}

/-- Buffers are allocated with the layout that is asked for. -/
theorem allocate_hasLayout (h : allocate d c = .ok s) : s.HasLayout d c := by
  simp only [allocate, bind_eq_ok, pure_eq_ok] at h
  obtain ⟨offsets, hoffsets, values, hvalues, validity, hvalidity, rfl⟩ := h
  exact ⟨onPresent_allocate_layout hoffsets, allocate_layout hvalues,
    onPresent_allocate_layout hvalidity⟩

theorem HasLayout.capacities (h : s.HasLayout d c) : s.capacities = c := by
  obtain ⟨offsets, values, validity⟩ := c
  have hoffsets := congrArg (Option.map Prod.snd) h.offsets
  have hvalidity := congrArg (Option.map Prod.snd) h.validity
  have hvalues := h.values
  simp only [Option.map_map, Function.comp_def, Option.map_id'] at hoffsets hvalidity
  simp only [Prod.mk.injEq] at hvalues
  simp only [ElementBuffers.capacities, hoffsets, hvalidity, hvalues.2]

theorem HasLayout.offsets_isSome (h : s.HasLayout d c) :
    s.offsets.isSome = c.offsets.isSome := by
  have hsome := congrArg Option.isSome h.offsets
  rwa [Option.isSome_map, Option.isSome_map] at hsome

theorem HasLayout.validity_isSome (h : s.HasLayout d c) :
    s.validity.isSome = c.validity.isSome := by
  have hsome := congrArg Option.isSome h.validity
  rwa [Option.isSome_map, Option.isSome_map] at hsome

end ElementBuffers

namespace TiledQuery

open TiledArray (StoredField)

/-! ## Counting -/

/-- The elements that are counted fit together. -/
theorem sum_take_le {room n : Nat} {lens : List Nat} (h : n ≤ countWithin room lens) :
    (lens.take n).sum ≤ room := by
  induction lens generalizing room n with
  | nil => simp
  | cons len lens ih =>
      cases n with
      | zero => simp
      | succ n =>
          simp only [countWithin] at h
          split at h
          · next hle =>
              have hrest := ih (Nat.le_of_succ_le_succ h)
              rw [List.take_succ_cons, List.sum_cons]
              omega
          · omega

/-- So many elements are counted as fit together. -/
theorem le_countWithin {room n : Nat} {lens : List Nat} (hlen : n ≤ lens.length)
    (hsum : (lens.take n).sum ≤ room) : n ≤ countWithin room lens := by
  induction lens generalizing room n with
  | nil => exact hlen
  | cons len lens ih =>
      rcases n with _ | n
      · exact Nat.zero_le _
      · rw [List.take_succ_cons, List.sum_cons] at hsum
        rw [List.length_cons] at hlen
        have hrest : n ≤ countWithin (room - len) lens := ih (by omega) (by omega)
        rw [countWithin, if_pos (by omega)]
        omega

/-- Buffers of the capacities have room for cells of a stored field. -/
structure HasRoom (c : Capacities) (st : StoredField) (cells : List Cell) : Prop where
  values : (cells.map st.elements).sum ≤ c.values
  offsets : ∀ n, c.offsets = some n → cells.length ≤ n
  validity : ∀ n, c.validity = some n → cells.length ≤ n

theorem hasRoom_of_le_room {t : Target} {cells : List Cell} {n : Nat} (h : n ≤ t.room cells) :
    HasRoom t.capacities t.field (cells.take n) := by
  simp only [Target.room, Nat.le_min] at h
  obtain ⟨hvalues, hoffsets, hvalidity⟩ := h
  have hlen : (cells.take n).length ≤ n := List.length_take_le _ _
  refine ⟨?_, ?_, ?_⟩
  · rw [List.map_take]
    exact sum_take_le hvalues
  · intro k hk
    rw [hk, Option.getD_some] at hoffsets
    exact hlen.trans hoffsets
  · intro k hk
    rw [hk, Option.getD_some] at hvalidity
    exact hlen.trans hvalidity

theorem le_room_of_hasRoom {t : Target} {cells : List Cell} {n : Nat} (hlen : n ≤ cells.length)
    (h : HasRoom t.capacities t.field (cells.take n)) : n ≤ t.room cells := by
  obtain ⟨hvalues, hoffsets, hvalidity⟩ := h
  rw [List.length_take, Nat.min_eq_left hlen] at hoffsets hvalidity
  have hcount : n ≤ countWithin t.capacities.values (cells.map t.field.elements) := by
    refine le_countWithin (by rwa [List.length_map]) ?_
    rwa [← List.map_take]
  have hroom : ∀ x : Option Nat, (∀ m, x = some m → n ≤ m) →
      n ≤ x.getD (countWithin t.capacities.values (cells.map t.field.elements)) := by
    intro x hx
    rcases x with _ | m
    · exact hcount
    · exact hx m rfl
  exact Nat.le_min.2 ⟨hcount, Nat.le_min.2 ⟨hroom _ hoffsets, hroom _ hvalidity⟩⟩

/-! ## Batches -/

section

variable {tileExtent : Nat} {ts : List Target} {cells : List Cell}

/-- The least room of the targets, at most `n`. -/
theorem foldl_room_le (n : Nat) :
    ts.foldl (fun n t => min n (t.room cells)) n ≤ n ∧
      ∀ t ∈ ts, ts.foldl (fun n t => min n (t.room cells)) n ≤ t.room cells := by
  induction ts generalizing n with
  | nil => simp
  | cons t ts ih =>
      obtain ⟨hle, hall⟩ := ih (min n (t.room cells))
      rw [List.foldl_cons]
      refine ⟨hle.trans (Nat.min_le_left _ _), ?_⟩
      intro u hu
      rcases List.mem_cons.1 hu with rfl | hu
      · exact hle.trans (Nat.min_le_right _ _)
      · exact hall u hu

theorem le_foldl_room {m n : Nat} (hn : m ≤ n) (h : ∀ t ∈ ts, m ≤ t.room cells) :
    m ≤ ts.foldl (fun n t => min n (t.room cells)) n := by
  induction ts generalizing n with
  | nil => exact hn
  | cons t ts ih =>
      rw [List.foldl_cons]
      refine ih (Nat.le_min.2 ⟨hn, h t (List.mem_cons_self ..)⟩) ?_
      intro u hu
      exact h u (List.mem_cons_of_mem _ hu)

theorem batchSize_le_foldl : batchSize tileExtent ts cells ≤
    ts.foldl (fun n t => min n (t.room cells)) cells.length := by
  unfold batchSize
  simp only
  split
  · exact le_rfl
  · exact Nat.div_mul_le_self _ _

theorem batchSize_le_room {t : Target} (ht : t ∈ ts) :
    batchSize tileExtent ts cells ≤ t.room cells :=
  batchSize_le_foldl.trans ((foldl_room_le _).2 t ht)

theorem batchSize_le_length : batchSize tileExtent ts cells ≤ cells.length :=
  batchSize_le_foldl.trans (foldl_room_le _).1

/-- A batch is whole tiles, or all cells. -/
theorem batchSize_tiles :
    batchSize tileExtent ts cells = cells.length ∨ tileExtent ∣ batchSize tileExtent ts cells := by
  unfold batchSize
  simp only
  split
  · next hall => exact Or.inl hall
  · exact Or.inr (Dvd.intro_left _ rfl)

/-- Where cells remain but none is taken, some buffers have no room for the next tile. -/
theorem exists_not_hasRoom (hextent : 0 < tileExtent) (hne : cells ≠ [])
    (h : batchSize tileExtent ts cells = 0) :
    ∃ t ∈ ts, ¬ HasRoom t.capacities t.field (cells.take tileExtent) := by
  by_contra hall
  push Not at hall
  have hlen : 0 < cells.length := List.length_pos_iff.2 hne
  -- with room for the next tile everywhere, at least that tile is taken
  have hroom : min tileExtent cells.length ≤
      ts.foldl (fun n t => min n (t.room cells)) cells.length := by
    refine le_foldl_room (Nat.min_le_right _ _) ?_
    intro t ht
    refine le_room_of_hasRoom (Nat.min_le_right _ _) ?_
    rw [← List.take_eq_take_min]
    exact hall t ht
  unfold batchSize at h
  simp only at h
  split at h
  · omega
  · next hpart =>
      have hle : tileExtent ≤ ts.foldl (fun n t => min n (t.room cells)) cells.length := by
        have hmost : ts.foldl (fun n t => min n (t.room cells)) cells.length ≤ cells.length :=
          (foldl_room_le _).1
        omega
      have hdiv := Nat.div_pos hle hextent
      have hpos := Nat.mul_pos hdiv hextent
      omega

end

/-- How a submit chooses the cells that it takes: there is room for them, they are whole tiles
    unless they are all that remain, and there are none only if the next tile has no room. -/
structure Chose (q : TiledQuery) (cells : List Cell) : Prop where
  hasRoom : ∀ r ∈ q.registered, ∀ st, q.array.stored? r.1 = some st → HasRoom r.2 st cells
  tiles : cells.length = q.remaining.length ∨ q.array.tileExtent ∣ cells.length
  idle : 0 < q.array.tileExtent → cells = [] → q.remaining ≠ [] → ∃ r ∈ q.registered, ∃ st,
    q.array.stored? r.1 = some st ∧ ¬ HasRoom r.2 st (q.remaining.take q.array.tileExtent)

theorem chose_batch {q : TiledQuery} {buffers : List NamedBuffers} {ts : List Target}
    (hts : targets q.array buffers q.registered = .ok ts) : q.Chose (q.batch ts) := by
  have hlen : (q.batch ts).length = batchSize q.array.tileExtent ts q.remaining := by
    rw [batch, List.length_take, Nat.min_eq_left batchSize_le_length]
  refine ⟨?_, ?_, ?_⟩
  · intro r hr st hst
    obtain ⟨i, hi⟩ := List.mem_iff_getElem?.1 hr
    obtain ⟨t, ht, hfor⟩ := forall₂_getElem? (targets_spec hts) hi
    have hroom : HasRoom t.capacities t.field (q.batch ts) :=
      hasRoom_of_le_room (batchSize_le_room (List.mem_of_getElem? ht))
    rw [hfor.field, Option.some.injEq] at hst
    rwa [hfor.capacities, hst] at hroom
  · rw [hlen]
    exact batchSize_tiles
  · intro hextent hnone hmore
    rw [hnone, List.length_nil] at hlen
    obtain ⟨t, ht, hroom⟩ := exists_not_hasRoom hextent hmore hlen.symm
    obtain ⟨r, hr, hfor⟩ := isFor_of_mem hts ht
    rw [hfor.capacities] at hroom
    exact ⟨r, hr, t.field, hfor.field, hroom⟩

/-! ## Writing -/

section

variable {st : StoredField} {cells : List Cell} {s : ElementBuffers} {c : Capacities}
  {name : String}

theorem put_ok {role : BufferRole} {b : ElementBuffer} {bytes : List UInt8}
    (h : bytes.length ≤ b.size) : ∃ b', put name role b bytes = .ok b' := by
  unfold put ElementBuffer.overwrite?
  rw [dif_pos h]
  exact ⟨_, rfl⟩

/-- The buffers have room, counted in bytes, for what is written of cells. -/
structure RoomFor (st : StoredField) (cells : List Cell) (s : ElementBuffers) : Prop where
  offsets : ∀ b, s.offsets = some b → cells.length * offsetBytes ≤ b.size
  values : (valueBytes st s cells).length ≤ s.values.size
  validity : ∀ b, s.validity = some b → cells.length * flagBytes ≤ b.size

/-- Cells that buffers have room for can be written into them. -/
theorem fill_of_roomFor (h : RoomFor st cells s) : ∃ s', fill name st cells s = .ok s' := by
  obtain ⟨hoffsets, hvalues, hvalidity⟩ := h
  obtain ⟨offsets, hoffsetsPut⟩ : ∃ y, onPresent (fun b => put name .offsets b
      ((offsetsOf st cells).flatMap (Bytes.ofNat offsetBytes))) s.offsets = .ok y :=
    onPresent_ok fun b hb => put_ok ((offsetBytes_length st cells).trans_le (hoffsets b hb))
  obtain ⟨values, hvaluesPut⟩ : ∃ b, put name .values s.values (valueBytes st s cells) = .ok b :=
    put_ok hvalues
  obtain ⟨validity, hvalidityPut⟩ : ∃ y, onPresent
      (fun b => put name .validity b (cells.map st.flag)) s.validity = .ok y := by
    refine onPresent_ok fun b hb => put_ok ?_
    have hle := hvalidity b hb
    rwa [flagBytes, Nat.mul_one, ← List.length_map (f := st.flag)] at hle
  refine ⟨⟨offsets, values, validity⟩, ?_⟩
  simp only [fill, bind_eq_ok, pure_eq_ok]
  exact ⟨_, hoffsetsPut, _, hvaluesPut, _, hvalidityPut, rfl⟩

/-- What the values of cells take, they have room for, unless their elements are wider than those
    that the buffer was made for. -/
theorem valueBytes_length_le {d : Datatype} (hlayout : s.HasLayout d c)
    (hwidth : st.shape.varLen = true ∨ st.datatype.width ≤ d.width)
    (hoffsets : c.offsets.isSome = st.shape.varLen)
    (hfits : ∀ cell ∈ cells, ∀ v, st.value? cell = some v →
      fitsField st.datatype st.shape.varLen v = true)
    (hroom : (cells.map st.elements).sum ≤ c.values) :
    (valueBytes st s cells).length ≤ s.values.size := by
  have hpos : 0 < d.width := d.width_pos
  have hvalues := hlayout.values
  simp only [Prod.mk.injEq] at hvalues
  rw [ElementBuffer.size, hvalues.1, hvalues.2, valueBytes, hlayout.offsets_isSome, hoffsets]
  cases hvar : st.shape.varLen with
  | true =>
      have hlen : (cells.flatMap st.packed).length = (cells.map st.elements).sum := by
        rw [List.length_flatMap]
        exact congrArg List.sum (List.map_congr_left fun cell _ => st.packed_length hvar cell)
      rw [if_pos rfl, hlen]
      exact hroom.trans (Nat.le_mul_of_pos_right _ hpos)
  | false =>
      have hlen : (cells.flatMap st.aligned).length = cells.length * st.datatype.width :=
        flatMap_length_of_forall _ fun cell hcell => st.aligned_length (hfits cell hcell) hvar
      rw [st.sum_elements hvar] at hroom
      rw [if_neg Bool.false_ne_true, hlen]
      exact Nat.mul_le_mul hroom (hwidth.resolve_left (by simp [hvar]))

theorem capacity_of_layout {x : Option ElementBuffer} {y : Option Nat} {w : Nat}
    (h : x.map (fun b => (b.width, b.capacity)) = y.map fun n => (w, n)) {b : ElementBuffer}
    (hb : x = some b) : ∃ n, y = some n ∧ b.size = n * w := by
  subst hb
  cases y with
  | none => cases h
  | some n =>
      simp only [Option.map_some, Option.some.injEq, Prod.mk.injEq] at h
      exact ⟨n, rfl, by rw [ElementBuffer.size, h.1, h.2]⟩

theorem put_eq_error {role : BufferRole} {b : ElementBuffer} {bytes : List UInt8} {e : ArrayError}
    (h : put name role b bytes = .error e) :
    e = .abort (.writeOutside name role) ∧ b.size < bytes.length := by
  by_cases hle : bytes.length ≤ b.size
  · obtain ⟨b', hb'⟩ : ∃ b', put name role b bytes = .ok b' := put_ok hle
    rw [hb'] at h
    cases h
  · simp only [put, ElementBuffer.overwrite?, dif_neg hle, Except.error.injEq] at h
    exact ⟨h.symm, Nat.not_le.1 hle⟩

/-- The buffer of a role is there and has fewer bytes than are written of cells. -/
def Short (st : StoredField) (cells : List Cell) (s : ElementBuffers) : BufferRole → Prop
  | .offsets => ∃ b, s.offsets = some b ∧ b.size < cells.length * offsetBytes
  | .values => s.values.size < (valueBytes st s cells).length
  | .validity => ∃ b, s.validity = some b ∧ b.size < cells.length * flagBytes

/-- Writing fails at a buffer that is short. -/
theorem fill_short {e : ArrayError} (h : fill name st cells s = .error e) :
    ∃ role, e = .abort (.writeOutside name role) ∧ Short st cells s role := by
  simp only [fill, bind_eq_error, pure, Except.pure, reduceCtorEq, and_false, exists_false,
    or_false] at h
  rcases h with h | ⟨-, -, h | ⟨-, -, h⟩⟩
  · obtain ⟨b, hb, hput⟩ := onPresent_eq_error h
    obtain ⟨rfl, hlt⟩ := put_eq_error hput
    rw [← offsetsOf, offsetBytes_length] at hlt
    exact ⟨.offsets, rfl, b, hb, hlt⟩
  · obtain ⟨rfl, hlt⟩ := put_eq_error h
    exact ⟨.values, rfl, hlt⟩
  · obtain ⟨b, hb, hput⟩ := onPresent_eq_error h
    obtain ⟨rfl, hlt⟩ := put_eq_error hput
    rw [List.length_map] at hlt
    exact ⟨.validity, rfl, b, hb, by rwa [flagBytes, Nat.mul_one]⟩

/-- Where the capacities have room for cells, only their values can lie outside a buffer, and only
    if their elements are wider than those that it was made for. -/
theorem fill_eq_error {d : Datatype} {e : ArrayError} (hlayout : s.HasLayout d c)
    (hoffsets : c.offsets.isSome = st.shape.varLen)
    (hfits : ∀ cell ∈ cells, ∀ v, st.value? cell = some v →
      fitsField st.datatype st.shape.varLen v = true)
    (hroom : HasRoom c st cells) (h : fill name st cells s = .error e) :
    e = .abort (.writeOutside name .values) ∧ st.shape.varLen = false ∧
      d.width < st.datatype.width := by
  obtain ⟨role, rfl, hshort⟩ := fill_short h
  cases role with
  | offsets =>
      obtain ⟨b, hb, hlt⟩ := hshort
      obtain ⟨n, hn, hsize⟩ := capacity_of_layout hlayout.offsets hb
      rw [hsize] at hlt
      exact absurd (Nat.mul_le_mul_right _ (hroom.offsets n hn)) (Nat.not_le.2 hlt)
  | values =>
      refine ⟨rfl, ?_⟩
      by_contra hnot
      have hwidth : st.shape.varLen = true ∨ st.datatype.width ≤ d.width := by
        rwa [not_and_or, Bool.not_eq_false, Nat.not_lt] at hnot
      exact absurd (valueBytes_length_le hlayout hwidth hoffsets hfits hroom.values)
        (Nat.not_le.2 hshort)
  | validity =>
      obtain ⟨b, hb, hlt⟩ := hshort
      obtain ⟨n, hn, hsize⟩ := capacity_of_layout hlayout.validity hb
      rw [hsize] at hlt
      exact absurd (Nat.mul_le_mul_right _ (hroom.validity n hn)) (Nat.not_le.2 hlt)

end

/-! ## Submits that succeed -/

/-- Everything registered is a stored field, once, with capacities of its shape. -/
structure Registered (q : TiledQuery) : Prop where
  nodup : (q.registered.map Prod.fst).Nodup
  shapes : ∀ r ∈ q.registered, ∃ st, q.array.stored? r.1 = some st ∧
    r.2.offsets.isSome = st.shape.varLen ∧ r.2.validity.isSome = st.shape.nullable

/-- For everything registered there are buffers with that layout. -/
def Provided (q : TiledQuery) (buffers : List NamedBuffers) : Prop :=
  ∀ r ∈ q.registered, ∀ st, q.array.stored? r.1 = some st →
    ∃ b, buffers.find? (·.name == r.1) = some b ∧ b.buffers.HasLayout st.datatype r.2

/-- For everything registered there are buffers of those capacities, whatever their elements. -/
def Supplied (q : TiledQuery) (buffers : List NamedBuffers) : Prop :=
  ∀ r ∈ q.registered, ∃ b, buffers.find? (·.name == r.1) = some b ∧
    ∃ d, b.buffers.HasLayout d r.2

theorem Provided.supplied {q : TiledQuery} {buffers : List NamedBuffers} (h : q.Provided buffers)
    (hregistered : q.Registered) : q.Supplied buffers := by
  intro r hr
  obtain ⟨st, hst, -⟩ := hregistered.shapes r hr
  obtain ⟨b, hb, hlayout⟩ := h r hr st hst
  exact ⟨b, hb, st.datatype, hlayout⟩

section

variable {q : TiledQuery} {buffers : List NamedBuffers}

/-- Capacities of the shape of a stored field can be registered. -/
theorem Registered.put (h : q.Registered) {name : String} {c : Capacities} {st : StoredField}
    (hst : q.array.stored? name = some st) (hoffsets : c.offsets.isSome = st.shape.varLen)
    (hvalidity : c.validity.isSome = st.shape.nullable) :
    Registered { q with registered := putCapacities name c q.registered } := by
  refine ⟨putCapacities_nodup h.nodup, ?_⟩
  intro r hr
  rcases mem_putCapacities hr with rfl | hr
  · exact ⟨st, hst, hoffsets, hvalidity⟩
  · exact h.shapes r hr

theorem ensureRoom_self (name : String) (role : BufferRole) (x : Option Nat) :
    ensureRoom name role x x = .ok () := by
  cases x with
  | none => rfl
  | some n => simp [ensureRoom]

theorem ensureRooms_ok (name : String) (s : ElementBuffers) :
    ensureRooms name s.capacities s = .ok () := by
  simp only [ensureRooms, ElementBuffers.capacities, ensureRoom_self]
  rfl

theorem targets_ok {a : TiledArray} {registered : List (String × Capacities)}
    (h : ∀ r ∈ registered, ∃ st b, a.stored? r.1 = some st ∧
      buffers.find? (·.name == r.1) = some b ∧ b.buffers.capacities = r.2) :
    ∃ ts, targets a buffers registered = .ok ts := by
  induction registered with
  | nil => exact ⟨[], rfl⟩
  | cons r rest ih =>
      obtain ⟨st, b, hst, hb, hcapacities⟩ := h r (List.mem_cons_self ..)
      obtain ⟨ts, hts⟩ := ih fun r' hr' => h r' (List.mem_cons_of_mem _ hr')
      have hfind := find?_zipIdx (fun x : NamedBuffers => x.name == r.1) buffers 0
      rw [hb, Option.map_some] at hfind
      have hstored : a.stored r.1 = .ok st := by rw [TiledArray.stored, hst]
      have hrooms : ensureRooms r.1 r.2 b.buffers = .ok () :=
        hcapacities ▸ ensureRooms_ok r.1 b.buffers
      refine ⟨⟨0 + buffers.findIdx (·.name == r.1), r.1, r.2, st⟩ :: ts, ?_⟩
      simp only [targets, hfind, hrooms, hstored, hts]
      rfl

/-- Where all targets have buffers, writing fails only as it does for one target. -/
theorem fillAll_eq_error {cells : List Cell} {ts : List Target} {e : ArrayError}
    (hnodup : (ts.map (·.index)).Nodup) (hfound : ∀ t ∈ ts, ∃ b, buffers[t.index]? = some b)
    (h : fillAll cells ts buffers = .error e) :
    ∃ t ∈ ts, ∃ b, buffers[t.index]? = some b ∧
      fill t.name t.field cells b.buffers = .error e := by
  induction ts generalizing buffers with
  | nil => cases h
  | cons t ts ih =>
      rw [List.map_cons, List.nodup_cons] at hnodup
      obtain ⟨b, hb⟩ := hfound t (List.mem_cons_self ..)
      rw [fillAll, hb] at h
      rcases hfill : fill t.name t.field cells b.buffers with e' | s
      · simp only [hfill, Except.error.injEq] at h
        exact ⟨t, List.mem_cons_self .., b, hb, h ▸ hfill⟩
      · simp only [hfill] at h
        -- the buffers of the later targets are other ones
        have hother : ∀ u ∈ ts, (buffers.set t.index { b with buffers := s })[u.index]? =
            buffers[u.index]? := by
          intro u hu
          have hne : t.index ≠ u.index := fun heq => hnodup.1 (heq ▸ List.mem_map.2 ⟨u, hu, rfl⟩)
          exact List.getElem?_set_ne hne
        obtain ⟨u, hu, b', hb', herror⟩ := ih hnodup.2
          (fun u hu => hother u hu ▸ hfound u (List.mem_cons_of_mem _ hu)) h
        exact ⟨u, List.mem_cons_of_mem _ hu, b', hother u hu ▸ hb', herror⟩

theorem mem_selected_of_batch {ts : List Target} {c : Cell} (h : c ∈ q.batch ts) :
    c ∈ q.selected := List.mem_of_mem_drop (List.mem_of_mem_take h)

/-- What becomes of a submit once there are targets. -/
theorem submit_of_targets {ts : List Target} (hopen : q.closed = false) (hne : q.registered ≠ [])
    (hts : targets q.array buffers q.registered = .ok ts) :
    (∃ filled, fillAll (q.batch ts) ts buffers = .ok filled ∧ q.submit buffers =
      (.ok (q.advanced (q.batch ts) (countsOfAll (q.batch ts) buffers ts)).status, filled,
        q.advanced (q.batch ts) (countsOfAll (q.batch ts) buffers ts))) ∨
    ∃ e, fillAll (q.batch ts) ts buffers = .error e ∧
      q.submit buffers = (.error e, buffers, q) := by
  have hempty : q.registered.isEmpty = false := by simpa using hne
  unfold batch
  rcases hfilled : fillAll (q.remaining.take (batchSize q.array.tileExtent ts q.remaining)) ts
    buffers with e | filled
  · refine Or.inr ⟨e, rfl, ?_⟩
    simp only [submit, whileOpen, hopen, hempty, Bool.false_eq_true, if_false, hts, hfilled, bind,
      Except.bind]
  · refine Or.inl ⟨filled, rfl, ?_⟩
    simp only [submit, whileOpen, hopen, hempty, Bool.false_eq_true, if_false, hts, hfilled, bind,
      Except.bind, pure, Except.pure]

/-- Once there are targets, a submit fails only as writing into the buffers of one of them does. -/
theorem submit_error_target {ts : List Target} {e : ArrayError} (hopen : q.closed = false)
    (hne : q.registered ≠ []) (hnodup : (q.registered.map Prod.fst).Nodup)
    (hts : targets q.array buffers q.registered = .ok ts) (h : (q.submit buffers).1 = .error e) :
    ∃ t ∈ ts, ∃ b, buffers[t.index]? = some b ∧
      fill t.name t.field (q.batch ts) b.buffers = .error e := by
  rcases submit_of_targets hopen hne hts with ⟨filled, -, hanswer⟩ | ⟨e', hfill, hanswer⟩
  · rw [hanswer] at h
    cases h
  · rw [hanswer, Except.error.injEq] at h
    subst h
    refine fillAll_eq_error (targets_nodup hts hnodup).2 ?_ hfill
    intro t ht
    obtain ⟨r, -, hfor⟩ := isFor_of_mem hts ht
    exact hfor.found.imp fun b hb => hb.1

/-- With buffers of the registered capacities an open query fails to answer a submit only where
    the elements of a registered field are wider than those that its value buffer was made for. -/
theorem submit_fails {e : ArrayError} (ha : q.array.Sound) (hopen : q.closed = false)
    (hselected : ∀ c ∈ q.selected, c ∈ q.array.cells) (hregistered : q.Registered)
    (hne : q.registered ≠ []) (hsupplied : q.Supplied buffers)
    (h : (q.submit buffers).1 = .error e) :
    ∃ r ∈ q.registered, ∃ st b, q.array.stored? r.1 = some st ∧
      buffers.find? (·.name == r.1) = some b ∧ st.shape.varLen = false ∧
      b.buffers.values.width < st.datatype.width ∧ e = .abort (.writeOutside r.1 .values) := by
  have hbuffers : ∀ r ∈ q.registered, ∃ st b, q.array.stored? r.1 = some st ∧
      buffers.find? (·.name == r.1) = some b ∧ b.buffers.capacities = r.2 := by
    intro r hr
    obtain ⟨st, hst, -⟩ := hregistered.shapes r hr
    obtain ⟨b, hb, d, hlayout⟩ := hsupplied r hr
    exact ⟨st, b, hst, hb, hlayout.capacities⟩
  obtain ⟨ts, hts⟩ := targets_ok hbuffers
  obtain ⟨t, ht, b, hb, herror⟩ := submit_error_target hopen hne hregistered.nodup hts h
  obtain ⟨r, hmem, hfor⟩ := isFor_of_mem hts ht
  obtain ⟨st, hst, hoffsets, -⟩ := hregistered.shapes r hmem
  rw [hfor.field, Option.some.injEq] at hst
  subst hst
  obtain ⟨b', hb', d, hlayout⟩ := hsupplied r hmem
  have hsame := hb'
  rw [List.find?_eq_getElem?_findIdx, ← hfor.index, hb, Option.some.injEq] at hsame
  subst hsame
  -- the target has room for the batch
  have hroom : HasRoom t.capacities t.field (q.batch ts) :=
    hasRoom_of_le_room (batchSize_le_room ht)
  rw [← hfor.capacities] at hlayout hoffsets
  obtain ⟨rfl, hvar, hlt⟩ := fill_eq_error hlayout hoffsets
    (fun c hc => (TiledArray.value?_spec hfor.field
      (ha.fits c (hselected c (mem_selected_of_batch hc)))).1) hroom herror
  have hwidth := hlayout.values
  simp only [Prod.mk.injEq] at hwidth
  exact ⟨r, hmem, t.field, b, hfor.field, hb', hvar, hwidth.1 ▸ hlt, hfor.name ▸ rfl⟩

/-- An open query answers a submit with buffers of the registered layouts exactly when something is
    registered. -/
theorem submit_ok_iff (ha : q.array.Sound) (hopen : q.closed = false)
    (hselected : ∀ c ∈ q.selected, c ∈ q.array.cells) (hregistered : q.Registered)
    (hprovided : q.Provided buffers) :
    (∃ status, (q.submit buffers).1 = .ok status) ↔ q.registered ≠ [] := by
  constructor
  · rintro ⟨status, h⟩ hnil
    simp [submit, whileOpen, hopen, hnil, throw, throwThe, MonadExceptOf.throw, bind,
      Except.bind] at h
  · intro hne
    rcases hsubmit : (q.submit buffers).1 with e | status
    · obtain ⟨r, hr, st, b, hst, hb, -, hlt, -⟩ := submit_fails ha hopen hselected hregistered hne
        (hprovided.supplied hregistered) hsubmit
      obtain ⟨b', hb', hlayout⟩ := hprovided r hr st hst
      rw [hb, Option.some.injEq] at hb'
      subst hb'
      have hwidth := hlayout.values
      simp only [Prod.mk.injEq] at hwidth
      exact absurd hwidth.1 (Nat.ne_of_lt hlt)
    · exact ⟨status, rfl⟩

end

end TiledQuery

end SparseScan
