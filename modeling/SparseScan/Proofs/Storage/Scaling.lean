import SparseScan.Proofs.Storage.Room

set_option autoImplicit false

/-! # Buffers of multiplied capacities

Filling buffers keeps their layout and doubling multiplies all capacities, so the buffers of a query
have a power of two times the capacities that they began with. The bytes that they take scale alike
(`footprint_scaled`), and how often they have doubled is bounded by what still had no room in them
(`lt_of_not_hasRoom`). -/

namespace SparseScan

/-! ## Capacities -/

namespace Capacities

variable {c : Capacities} {m n : Nat}

/-- All capacities `n` times over. -/
def times (c : Capacities) (n : Nat) : Capacities :=
  ⟨c.offsets.map (n * ·), n * c.values, c.validity.map (n * ·)⟩

/-- Every capacity is at least `m`. -/
structure AtLeast (m : Nat) (c : Capacities) : Prop where
  offsets : ∀ n, c.offsets = some n → m ≤ n
  values : m ≤ c.values
  validity : ∀ n, c.validity = some n → m ≤ n

/-- The bytes of buffers with the capacities for elements of datatype `d`. -/
def bytes (d : Datatype) (c : Capacities) : Nat :=
  c.offsets.getD 0 * offsetBytes + c.values * d.width + c.validity.getD 0 * flagBytes

theorem times_one (c : Capacities) : c.times 1 = c := by simp [times]

theorem times_times (c : Capacities) (m n : Nat) : (c.times m).times n = c.times (n * m) := by
  simp [times, Nat.mul_assoc, Function.comp_def]

theorem bytes_times (d : Datatype) (c : Capacities) (n : Nat) :
    (c.times n).bytes d = n * c.bytes d := by
  have hgetD : ∀ x : Option Nat, (x.map (n * ·)).getD 0 = n * x.getD 0 := by
    intro x
    rcases x with _ | m
    · rfl
    · rfl
  simp only [bytes, times, hgetD, Nat.mul_add, Nat.mul_assoc]

theorem AtLeast.mono (h : c.AtLeast n) (hle : m ≤ n) : c.AtLeast m :=
  ⟨fun k hk => hle.trans (h.offsets k hk), hle.trans h.values,
    fun k hk => hle.trans (h.validity k hk)⟩

theorem AtLeast.times (h : c.AtLeast m) (n : Nat) : (c.times n).AtLeast (n * m) := by
  have hmap : ∀ x : Option Nat, (∀ k, x = some k → m ≤ k) →
      ∀ k, x.map (n * ·) = some k → n * m ≤ k := by
    intro x hx k hk
    obtain ⟨j, hj, rfl⟩ := Option.map_eq_some_iff.1 hk
    exact Nat.mul_le_mul_left n (hx j hj)
  exact ⟨hmap _ h.offsets, Nat.mul_le_mul_left n h.values, hmap _ h.validity⟩

/-- Cells that have no room need more of some buffer than any capacity that is granted. -/
theorem AtLeast.lt_of_not_hasRoom (h : c.AtLeast m) {st : TiledArray.StoredField}
    {cells : List Cell} (hroom : ¬ TiledQuery.HasRoom c st cells) :
    m < cells.length ∨ m < (cells.map st.elements).sum := by
  by_contra hsmall
  rw [not_or, Nat.not_lt, Nat.not_lt] at hsmall
  refine hroom ⟨hsmall.2.trans h.values, ?_, ?_⟩
  · intro n hn
    exact hsmall.1.trans (h.offsets n hn)
  · intro n hn
    exact hsmall.1.trans (h.validity n hn)

end Capacities

/-- Cells that have room have it in larger buffers too. -/
theorem TiledQuery.HasRoom.times {c : Capacities} {st : TiledArray.StoredField}
    {cells : List Cell} (h : HasRoom c st cells) {n : Nat} (hn : 0 < n) :
    HasRoom (c.times n) st cells := by
  have hmap : ∀ x : Option Nat, (∀ m, x = some m → cells.length ≤ m) →
      ∀ m, x.map (n * ·) = some m → cells.length ≤ m := by
    intro x hx m hm
    obtain ⟨k, hk, rfl⟩ := Option.map_eq_some_iff.1 hm
    exact (hx k hk).trans (Nat.le_mul_of_pos_left k hn)
  exact ⟨h.values.trans (Nat.le_mul_of_pos_left _ hn), hmap _ h.offsets, hmap _ h.validity⟩

/-! ## The buffers of a field -/

namespace ElementBuffers

variable {s s' : ElementBuffers} {d : Datatype} {c : Capacities}

theorem HasLayout.fill (h : s.HasLayout d c) {name : String} {st : TiledArray.StoredField}
    {cells : List Cell} (hfill : TiledQuery.fill name st cells s = .ok s') : s'.HasLayout d c := by
  obtain ⟨hoffsets, hvalues, hvalidity⟩ := (TiledQuery.fill_spec hfill).1
  exact ⟨hoffsets.trans h.offsets, hvalues.trans h.values, hvalidity.trans h.validity⟩

theorem double_layout {b b' : ElementBuffer} (h : b.double = .ok b') :
    (b'.width, b'.capacity) = (b.width, 2 * b.capacity) ∧ b'.capacity < addressSpace := by
  unfold ElementBuffer.double at h
  split at h
  · next hlt =>
      have hlayout := allocate_layout h
      have hcapacity := congrArg Prod.snd hlayout
      exact ⟨by rw [hlayout, Nat.mul_comm], lt_of_eq_of_lt hcapacity hlt⟩
  · cases h

theorem onPresent_double_layout {x y : Option ElementBuffer} {z : Option Nat} {w : Nat}
    (hx : x.map (fun b => (b.width, b.capacity)) = z.map fun n => (w, n))
    (h : onPresent ElementBuffer.double x = .ok y) :
    y.map (fun b => (b.width, b.capacity)) = (z.map (2 * ·)).map fun n => (w, n) := by
  rcases onPresent_eq_ok.1 h with ⟨rfl, rfl⟩ | ⟨b, b', rfl, hb, rfl⟩
  · rcases z with _ | n
    · rfl
    · cases hx
  · rcases z with _ | n
    · cases hx
    · simp only [Option.map_some, Option.some.injEq, Prod.mk.injEq] at hx
      rw [Option.map_some, (double_layout hb).1, hx.1, hx.2]
      rfl

/-- Doubled buffers have twice the capacities, for elements of the same widths. -/
theorem HasLayout.double (h : s.HasLayout d c) (hdouble : s.double = .ok s') :
    s'.HasLayout d (c.times 2) := by
  simp only [ElementBuffers.double, bind_eq_ok, pure_eq_ok] at hdouble
  obtain ⟨offsets, hoffsets, values, hvalues, validity, hvalidity, rfl⟩ := hdouble
  have hlayout := h.values
  rw [Prod.mk.injEq] at hlayout
  refine ⟨onPresent_double_layout h.offsets hoffsets, ?_,
    onPresent_double_layout h.validity hvalidity⟩
  rw [(double_layout hvalues).1, hlayout.1, hlayout.2]
  rfl

theorem size_of_layout {x : Option ElementBuffer} {z : Option Nat} {w : Nat}
    (hx : x.map (fun b => (b.width, b.capacity)) = z.map fun n => (w, n)) :
    (x.toList.map ElementBuffer.size).sum = z.getD 0 * w := by
  rcases x with _ | b
  · rcases z with _ | n
    · simp
    · cases hx
  · obtain ⟨n, rfl, hsize⟩ := TiledQuery.capacity_of_layout hx rfl
    simp [hsize]

/-- The layout says how many bytes the buffers take. -/
theorem HasLayout.size (h : s.HasLayout d c) : s.size = c.bytes d := by
  have hvalues := h.values
  rw [Prod.mk.injEq] at hvalues
  rw [ElementBuffers.size, ElementBuffers.buffers, List.map_append, List.map_append,
    List.sum_append, List.sum_append, size_of_layout h.offsets, size_of_layout h.validity,
    List.map_singleton, List.sum_singleton, ElementBuffer.size, hvalues.1, hvalues.2,
    Capacities.bytes]

end ElementBuffers

/-! ## All buffers -/

namespace NamedBuffers

variable {m n : Nat} {b b' b'' : NamedBuffers} {bs bs' bs'' : List NamedBuffers}

/-- Buffers of the same field with `n` times the capacities. -/
structure Scaled (n : Nat) (b b' : NamedBuffers) : Prop where
  name : b'.name = b.name
  datatype : b'.datatype = b.datatype
  layout : b'.buffers.HasLayout b.datatype (b.buffers.capacities.times n)

/-- The bytes that buffers take scale with them. -/
theorem footprint_scaled (hbs : ∀ b ∈ bs, b.buffers.HasLayout b.datatype b.buffers.capacities)
    (h : List.Forall₂ (Scaled n) bs bs') : footprint bs' = n * footprint bs := by
  induction h with
  | nil => rfl
  | @cons b b' bs bs' hb _ ih =>
      have hbytes := (hbs b (List.mem_cons_self ..)).size
      have hrest := ih fun c hc => hbs c (List.mem_cons_of_mem _ hc)
      simp only [footprint, List.map_cons, List.sum_cons] at hrest ⊢
      rw [hb.layout.size, Capacities.bytes_times, ← hbytes, hrest, Nat.mul_add]

theorem forall₂_scaled_fill {q : TiledQuery} {cells : List Cell}
    (h : List.Forall₂ (Scaled n) bs bs') (hwrote : List.Forall₂ (q.Wrote cells) bs' bs'') :
    List.Forall₂ (Scaled n) bs bs'' := by
  induction h generalizing bs'' with
  | nil =>
      rcases hwrote with _ | _
      exact .nil
  | cons hb _ ih =>
      rcases hwrote with _ | ⟨hw, hws⟩
      obtain ⟨st, s, -, hfill, rfl, -⟩ := hw.filled
      exact .cons ⟨hb.name, hb.datatype, hb.layout.fill hfill⟩ (ih hws)

theorem forall₂_scaled_double (h : List.Forall₂ (Scaled n) bs bs')
    (hgrown : List.Forall₂ (fun b b' => double b = .ok b') bs' bs'') :
    List.Forall₂ (Scaled (2 * n)) bs bs'' := by
  induction h generalizing bs'' with
  | nil =>
      rcases hgrown with _ | _
      exact .nil
  | cons hb _ ih =>
      rcases hgrown with _ | ⟨hg, hgs⟩
      obtain ⟨s, hs, rfl⟩ := map_eq_ok.1 hg
      have hlayout := hb.layout.double hs
      rw [Capacities.times_times] at hlayout
      exact .cons ⟨hb.name, hb.datatype, hlayout⟩ (ih hgs)

end NamedBuffers

end SparseScan
