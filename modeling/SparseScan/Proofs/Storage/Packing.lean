import SparseScan.Proofs.Storage.Overrun
import SparseScan.Proofs.Storage.Session

set_option autoImplicit false

/-! # The largest batch that fits

The prefixes of the remaining cells that a submit may take end at a tile, or with the last cell, and
have room in all registered buffers (`Fits`). A submit takes the longest of them
(`submit_takes_greatest`), which is also what packing tile by tile comes to: counting up what each
buffer holds and giving up at the first tile for which some buffer has no room
(`packTiles_eq_batchSize`). -/

namespace SparseScan.TiledQuery

open TiledArray (StoredField)

/-! ## Prefixes that fit -/

/-- What holds some cells holds fewer of them. -/
theorem HasRoom.mono {c : Capacities} {st : StoredField} {cells cells' : List Cell}
    (h : HasRoom c st cells') (hle : cells.Sublist cells') : HasRoom c st cells := by
  have hlen := hle.length_le
  refine ⟨?_, fun n hn => hlen.trans (h.offsets n hn), fun n hn => hlen.trans (h.validity n hn)⟩
  exact ((hle.map st.elements).sum_le_sum fun _ _ => Nat.zero_le _).trans h.values

/-- So many of the cells end at a tile, or are all of them, and there is room for them. -/
structure Fits (tileExtent : Nat) (room : List Cell → Prop) (cells : List Cell) (n : Nat) :
    Prop where
  le : n ≤ cells.length
  tiles : tileExtent ∣ n ∨ n = cells.length
  hasRoom : room (cells.take n)

/-- The buffers of all targets have room for cells. -/
def RoomIn (ts : List Target) (cells : List Cell) : Prop :=
  ∀ t ∈ ts, HasRoom t.capacities t.field cells

theorem RoomIn.mono {ts : List Target} {cells cells' : List Cell} (h : RoomIn ts cells')
    (hle : cells <+: cells') : RoomIn ts cells := by
  intro t ht
  exact (h t ht).mono hle.sublist

section

variable {tileExtent : Nat} {ts : List Target} {cells : List Cell}

/-- The batch is the longest prefix that fits. -/
theorem isGreatest_batchSize (hextent : 0 < tileExtent) :
    IsGreatest {n | Fits tileExtent (RoomIn ts) cells n} (batchSize tileExtent ts cells) := by
  refine ⟨⟨batchSize_le_length, batchSize_tiles.symm, ?_⟩, ?_⟩
  · intro t ht
    exact hasRoom_of_le_room (batchSize_le_room ht)
  · intro n hn
    have hroom : n ≤ ts.foldl (fun n t => min n (t.room cells)) cells.length :=
      le_foldl_room hn.le fun t ht => le_room_of_hasRoom hn.le (hn.hasRoom t ht)
    unfold batchSize
    simp only
    split
    · exact hroom
    · next hpart =>
        have hmost : ts.foldl (fun n t => min n (t.room cells)) cells.length ≤ cells.length :=
          (foldl_room_le _).1
        obtain ⟨k, rfl⟩ : tileExtent ∣ n := hn.tiles.resolve_right (by omega)
        rw [Nat.mul_comm]
        refine Nat.mul_le_mul_right _ ((Nat.le_div_iff_mul_le hextent).2 ?_)
        rwa [Nat.mul_comm]

end

/-! ## Tile by tile -/

/-- The value elements that cells take in the buffers of a target. -/
def Target.elements (t : Target) (cells : List Cell) : Nat := (cells.map t.field.elements).sum

/-- Whether the capacities of a target are enough for so many value elements and so many cells. -/
def Target.holds (t : Target) (elements cells : Nat) : Bool :=
  decide (elements ≤ t.capacities.values) && t.capacities.offsets.all (cells ≤ ·) &&
    t.capacities.validity.all (cells ≤ ·)

/-- Add a tile to the value elements of each target, up to the first target that does not hold them.
    There are `cells` cells up to the end of the tile. -/
def addTile (tile : List Cell) (cells : Nat) : List (Target × Nat) → List (Target × Nat) × Bool
  | [] => ([], true)
  | (t, used) :: rest =>
      let grown := used + t.elements tile
      if t.holds grown cells then
        let (others, fits) := addTile tile cells rest
        ((t, grown) :: others, fits)
      else ((t, grown) :: rest, false)

/-- Take tiles of the cells as long as they fit, after `taken` cells which use so many elements of
    each target. What was added of a tile that does not fit is forgotten. -/
def packTiles (tileExtent : Nat) (usage : List (Target × Nat)) (taken : Nat) (cells : List Cell) :
    Nat :=
  if _h : tileExtent = 0 ∨ cells = [] then taken
  else
    match addTile (cells.take tileExtent) (taken + (cells.take tileExtent).length) usage with
    | (grown, true) =>
        packTiles tileExtent grown (taken + (cells.take tileExtent).length) (cells.drop tileExtent)
    | (_, false) => taken
termination_by cells.length
decreasing_by
  rw [not_or, ← List.length_eq_zero_iff] at _h
  rw [List.length_drop]
  omega

theorem Target.holds_iff {t : Target} {cells : List Cell} :
    t.holds (t.elements cells) cells.length = true ↔ HasRoom t.capacities t.field cells := by
  have hall : ∀ x : Option Nat,
      x.all (cells.length ≤ ·) = true ↔ ∀ n, x = some n → cells.length ≤ n := by
    intro x
    rcases x with _ | n <;> simp
  simp only [holds, Bool.and_eq_true, decide_eq_true_eq, hall]
  constructor
  · rintro ⟨⟨hvalues, hoffsets⟩, hvalidity⟩
    exact ⟨hvalues, hoffsets, hvalidity⟩
  · rintro ⟨hvalues, hoffsets, hvalidity⟩
    exact ⟨⟨hvalues, hoffsets⟩, hvalidity⟩

theorem Target.elements_append (t : Target) (cells cells' : List Cell) :
    t.elements (cells ++ cells') = t.elements cells + t.elements cells' := by
  simp [elements]

/-- A tile fits if every target holds it, and then it is added to all of them. -/
theorem addTile_spec (tile : List Cell) (cells : Nat) (usage : List (Target × Nat)) :
    ((addTile tile cells usage).2 = true ↔
        ∀ u ∈ usage, u.1.holds (u.2 + u.1.elements tile) cells = true) ∧
      ((addTile tile cells usage).2 = true →
        (addTile tile cells usage).1 = usage.map fun u => (u.1, u.2 + u.1.elements tile)) := by
  induction usage with
  | nil => simp [addTile]
  | cons u rest ih =>
      obtain ⟨t, used⟩ := u
      by_cases hholds : t.holds (used + t.elements tile) cells = true
      · simp only [addTile, hholds, if_true, List.forall_mem_cons, true_and, List.map_cons]
        exact ⟨ih.1, fun hfits => congrArg _ (ih.2 hfits)⟩
      · simp [addTile, hholds]

section

variable {tileExtent : Nat} {ts : List Target} {all : List Cell} {usage : List (Target × Nat)}
  {taken : Nat} {rest : List Cell}

/-- What packing has come to: the cells taken so far fit, and the elements that they use are
    counted. -/
structure Packing (tileExtent : Nat) (ts : List Target) (all : List Cell)
    (usage : List (Target × Nat)) (taken : Nat) (rest : List Cell) : Prop where
  fits : Fits tileExtent (RoomIn ts) all taken
  usage : usage = ts.map fun t => (t, t.elements (all.take taken))
  rest : rest = all.drop taken

namespace Packing

theorem start (ts : List Target) (all : List Cell) :
    Packing tileExtent ts all (ts.map fun t => (t, 0)) 0 all where
  fits := ⟨Nat.zero_le _, Or.inl (dvd_zero _), fun t _ => by constructor <;> simp⟩
  usage := by simp [Target.elements]
  rest := rfl

/-- The cells up to the end of the next tile. -/
theorem take_tile (h : Packing tileExtent ts all usage taken rest) :
    all.take (taken + (rest.take tileExtent).length) = all.take taken ++ rest.take tileExtent := by
  rw [h.rest, List.take_add, List.length_take, ← List.take_eq_take_min]

theorem addTile_fits_iff (h : Packing tileExtent ts all usage taken rest) :
    (addTile (rest.take tileExtent) (taken + (rest.take tileExtent).length) usage).2 = true ↔
      RoomIn ts (all.take (taken + (rest.take tileExtent).length)) := by
  have hlen : (all.take taken ++ rest.take tileExtent).length =
      taken + (rest.take tileExtent).length := by
    rw [List.length_append, List.length_take, Nat.min_eq_left h.fits.le]
  rw [(addTile_spec _ _ _).1, h.usage, List.forall_mem_map, h.take_tile]
  refine forall₂_congr fun t _ => ?_
  rw [← Target.elements_append, ← hlen, Target.holds_iff]

/-- The next tile ends at a tile, or with the last cell. -/
theorem tile_ends (h : Packing tileExtent ts all usage taken rest) (hrest : rest ≠ []) :
    tileExtent ∣ taken ∧ taken + (rest.take tileExtent).length ≤ all.length ∧
      (tileExtent ∣ taken + (rest.take tileExtent).length ∨
        taken + (rest.take tileExtent).length = all.length) := by
  have hle := h.fits.le
  have hlen : rest.length = all.length - taken := by rw [h.rest, List.length_drop]
  have hpos := List.length_pos_iff.2 hrest
  have htile : tileExtent ∣ taken := h.fits.tiles.resolve_right (by omega)
  rw [List.length_take]
  refine ⟨htile, by omega, ?_⟩
  rcases Nat.le_total tileExtent rest.length with hfull | hshort
  · rw [Nat.min_eq_left hfull]
    exact Or.inl (dvd_add htile dvd_rfl)
  · rw [Nat.min_eq_right hshort]
    exact Or.inr (by omega)

/-- One more tile that fits. -/
theorem advance {grown : List (Target × Nat)} (h : Packing tileExtent ts all usage taken rest)
    (hrest : rest ≠ [])
    (hadd : addTile (rest.take tileExtent) (taken + (rest.take tileExtent).length) usage =
      (grown, true)) :
    Packing tileExtent ts all grown (taken + (rest.take tileExtent).length)
      (rest.drop tileExtent) := by
  obtain ⟨-, hle, htiles⟩ := h.tile_ends hrest
  have hfits := congrArg Prod.snd hadd
  have hgrown : grown = usage.map fun u => (u.1, u.2 + u.1.elements (rest.take tileExtent)) := by
    rw [← (addTile_spec _ _ _).2 hfits, hadd]
  refine ⟨⟨hle, htiles, h.addTile_fits_iff.1 hfits⟩, ?_, ?_⟩
  · rw [hgrown, h.usage, List.map_map, h.take_tile]
    exact List.map_congr_left fun t _ => by simp [Target.elements_append]
  · rw [h.rest, List.drop_drop, List.length_take, List.length_drop]
    rcases Nat.le_total tileExtent (all.length - taken) with hfull | hshort
    · rw [Nat.min_eq_left hfull]
    · rw [Nat.min_eq_right hshort, List.drop_eq_nil_of_le (by omega),
        List.drop_eq_nil_of_le (by omega)]

/-- A longer prefix that fits has the whole next tile. -/
theorem tile_le_of_fits {n : Nat} (h : Packing tileExtent ts all usage taken rest)
    (hrest : rest ≠ []) (hlt : taken < n) (hn : Fits tileExtent (RoomIn ts) all n) :
    taken + (rest.take tileExtent).length ≤ n := by
  obtain ⟨⟨k, rfl⟩, hle, -⟩ := h.tile_ends hrest
  rcases hn.tiles with ⟨m, rfl⟩ | rfl
  · have hnext := Nat.mul_le_mul_left tileExtent (Nat.succ_le_of_lt (Nat.lt_of_mul_lt_mul_left hlt))
    rw [Nat.mul_succ] at hnext
    exact (Nat.add_le_add_left (List.length_take_le _ _) _).trans hnext
  · exact hle

/-- Packing ends with the longest prefix that fits. -/
theorem isGreatest (hextent : 0 < tileExtent) (h : Packing tileExtent ts all usage taken rest) :
    IsGreatest {n | Fits tileExtent (RoomIn ts) all n} (packTiles tileExtent usage taken rest) := by
  fun_induction packTiles tileExtent usage taken rest with
  | case1 usage taken rest hdone =>
      refine ⟨h.fits, ?_⟩
      intro n hn
      have hnil : rest = [] := hdone.resolve_left hextent.ne'
      have hall := h.rest
      rw [hnil, eq_comm, List.drop_eq_nil_iff] at hall
      exact hn.le.trans hall
  | case2 usage taken rest hmore grown hadd ih => exact ih (h.advance (not_or.1 hmore).2 hadd)
  | case3 usage taken rest hmore grown hadd =>
      refine ⟨h.fits, ?_⟩
      intro n hn
      by_contra hlonger
      -- the next tile would have room as part of the longer prefix
      have htile := h.tile_le_of_fits (not_or.1 hmore).2 (not_le.1 hlonger) hn
      have hroom := RoomIn.mono hn.hasRoom (List.take_prefix_take_left htile)
      rw [← h.addTile_fits_iff, hadd] at hroom
      cases hroom

end Packing

/-- Packing tile by tile takes as many cells as all buffers have room for, in whole tiles unless
    they are all that remain. -/
theorem packTiles_eq_batchSize (hextent : 0 < tileExtent) (ts : List Target) (cells : List Cell) :
    packTiles tileExtent (ts.map fun t => (t, 0)) 0 cells = batchSize tileExtent ts cells :=
  ((Packing.start ts cells).isGreatest hextent).unique (isGreatest_batchSize hextent)

end

/-! ## The batch of a query -/

/-- Everything registered has room for cells. -/
def Accommodates (q : TiledQuery) (cells : List Cell) : Prop :=
  ∀ r ∈ q.registered, ∀ st, q.array.stored? r.1 = some st → HasRoom r.2 st cells

section

variable {q q' : TiledQuery} {buffers filled : List NamedBuffers} {ts : List Target}
  {status : Progress}

theorem accommodates_iff (hts : targets q.array buffers q.registered = .ok ts)
    (cells : List Cell) : q.Accommodates cells ↔ RoomIn ts cells := by
  constructor
  · intro h t ht
    obtain ⟨r, hr, hfor⟩ := isFor_of_mem hts ht
    rw [hfor.capacities]
    exact h r hr t.field hfor.field
  · intro h r hr st hst
    obtain ⟨i, hi⟩ := List.mem_iff_getElem?.1 hr
    obtain ⟨t, ht, hfor⟩ := forall₂_getElem? (targets_spec hts) hi
    rw [hfor.field, Option.some.injEq] at hst
    rw [← hfor.capacities, ← hst]
    exact h t (List.mem_of_getElem? ht)

theorem batch_length (q : TiledQuery) (ts : List Target) :
    (q.batch ts).length = batchSize q.array.tileExtent ts q.remaining := by
  rw [batch, List.length_take, Nat.min_eq_left batchSize_le_length]

/-- The batch of a query is the longest prefix that everything registered has room for. -/
theorem isGreatest_batch (hextent : 0 < q.array.tileExtent)
    (hts : targets q.array buffers q.registered = .ok ts) :
    IsGreatest {n | Fits q.array.tileExtent q.Accommodates q.remaining n} (q.batch ts).length := by
  have hsame : q.Accommodates = RoomIn ts := by
    funext cells
    exact propext (accommodates_iff hts cells)
  rw [hsame, batch_length]
  exact isGreatest_batchSize hextent

theorem Took.length_eq {batch : List Cell} (h : q.Took q' batch) (hfresh : q.delivered = 0) :
    batch.length = q'.delivered := by
  rw [h.delivered, hfresh, Nat.zero_add]

/-- Nothing is taken exactly if the next tile alone has no room. -/
theorem batch_eq_nil_iff (hextent : 0 < q.array.tileExtent) (hmore : q.remaining ≠ [])
    (hts : targets q.array buffers q.registered = .ok ts) :
    q.batch ts = [] ↔ ¬ q.Accommodates (q.remaining.take q.array.tileExtent) := by
  constructor
  · intro hnone hroom
    obtain ⟨r, hr, st, hst, hfull⟩ := (chose_batch hts).idle hextent hnone hmore
    exact hfull (hroom r hr st hst)
  · intro hfull
    by_contra hsome
    -- a batch that is not empty has the next tile
    obtain ⟨hfits, -⟩ := isGreatest_batch hextent hts
    have hpos := List.length_pos_iff.2 hsome
    have htile : q.remaining.take q.array.tileExtent <+:
        q.remaining.take (q.batch ts).length := by
      rcases hfits.tiles with hdvd | hall
      · exact List.take_prefix_take_left (Nat.le_of_dvd hpos hdvd)
      · rw [hall, List.take_length]
        exact List.take_prefix _ _
    refine hfull ?_
    intro r hr st hst
    exact (hfits.hasRoom r hr st hst).mono htile.sublist

/-! ## Tiles of the selection -/

/-- The remaining cells start at a tile of the selection, unless there are none. -/
structure Aligned (q : TiledQuery) : Prop where
  unstarted : q.selection = none → q.delivered = 0
  tiles : q.array.tileExtent ∣ q.delivered ∨ q.remaining = []

theorem aligned_ofArray (a : TiledArray) : (ofArray a).Aligned :=
  ⟨fun _ => rfl, Or.inl (dvd_zero _)⟩

/-- A submit ends at a tile if it starts at one. -/
theorem Aligned.submit (h : q.Aligned) (hsubmit : q.submit buffers = (.ok status, filled, q')) :
    q'.Aligned := by
  obtain ⟨ts, -, -, rfl, -⟩ := submit_eq_ok hsubmit
  refine ⟨nofun, ?_⟩
  have hremaining : (q.advanced (q.batch ts) (countsOfAll (q.batch ts) buffers ts)).remaining =
      q.remaining.drop (q.batch ts).length := by
    rw [remaining, remaining, List.drop_drop]
    rfl
  rw [hremaining, List.drop_eq_nil_iff, batch_length]
  have hends : batchSize q.array.tileExtent ts q.remaining = q.remaining.length ∨
      q.array.tileExtent ∣ batchSize q.array.tileExtent ts q.remaining := batchSize_tiles
  rcases hends with hall | htiles
  · exact Or.inr hall.ge
  · rcases h.tiles with hstart | hnone
    · refine Or.inl ?_
      show q.array.tileExtent ∣ q.delivered + (q.batch ts).length
      rw [batch_length]
      exact dvd_add hstart htiles
    · exact Or.inr (by simp [hnone])

theorem Aligned.perform (h : q.Aligned) (op : Operation) : (q.perform op).query.Aligned := by
  by_cases hhands : q.Hands op
  · obtain ⟨buffers, status, rfl, hstatus⟩ := hhands
    rcases hsubmit : q.submit buffers with ⟨answer, filled, q'⟩
    rw [hsubmit] at hstatus
    subst hstatus
    simpa only [TiledQuery.perform, hsubmit] using h.submit hsubmit
  · have hnext := perform_next q op
    generalize (q.perform op).query = q' at hnext
    cases hnext with
    | ranged hrange =>
        rw [hrange.query]
        have hzero := h.unstarted hrange.unselected
        exact ⟨fun _ => hzero, Or.inl (by simp [hzero])⟩
    | submitted hsubmitted cells counts => exact absurd hsubmitted hhands
    | _ => exact ⟨h.unstarted, h.tiles⟩

theorem Aligned.run (h : q.Aligned) (ops : List Operation) : (q.run ops).Aligned := by
  induction ops generalizing q with
  | nil => exact h
  | cons op rest ih => exact ih (h.perform op)

end

/-! ## The batch of a submit -/

/-- A submit that is answered, on a query in any state, takes the longest prefix of the remaining
    cells that ends at a tile, or with the last cell, and for which everything registered has room.
    These are the tiles of the selection, and the prefix is the one that packing tile by tile comes
    to. Of every registered field so many rows are reported. If cells remain, none of them is taken
    exactly if the next tile alone has no room in something registered. An open query answers if
    something is registered and buffers with the registered layouts are passed. -/
theorem submit_takes_greatest {schema : Schema} {tileExtent : Nat} {cells : List Cell}
    {a : TiledArray} {q : TiledQuery} {buffers : List NamedBuffers}
    (ha : TiledArray.ofCells schema tileExtent cells = .ok a) (hq : Reached a q) :
    (tileExtent ∣ q.delivered ∨ q.remaining = []) ∧
    (∀ status filled q', q.submit buffers = (.ok status, filled, q') →
      ∃ ts batch, targets a buffers q.registered = .ok ts ∧ q.Took q' batch ∧
        IsGreatest {n | Fits tileExtent q.Accommodates q.remaining n} batch.length ∧
        packTiles tileExtent (ts.map fun t => (t, 0)) 0 q.remaining = batch.length ∧
        (∀ r ∈ q.registered, ∃ st counts, a.stored? r.1 = some st ∧
          q'.counts.lookup r.1 = some counts ∧
            (if st.shape.varLen then counts.offsets else counts.values) = batch.length) ∧
        (q.remaining ≠ [] →
          (batch = [] ↔ ¬ q.Accommodates (q.remaining.take tileExtent)))) ∧
    (q.closed = false → q.registered ≠ [] → q.Provided buffers →
      ∃ status, (q.submit buffers).1 = .ok status) := by
  have haligned : q.Aligned := by
    obtain ⟨ops, rfl⟩ := hq
    exact (aligned_ofArray a).run ops
  obtain ⟨hkept, rfl⟩ := hq.kept
  obtain rfl := TiledArray.tileExtent_ofCells ha
  have hextent := TiledArray.tileExtent_pos_ofCells ha
  refine ⟨haligned.tiles, ?_, ?_⟩
  · intro status filled q' hsubmit
    obtain ⟨ts, hts, hfilled, rfl, -⟩ := submit_eq_ok hsubmit
    refine ⟨ts, q.batch ts, hts, took_advanced q _ _, isGreatest_batch hextent hts, ?_, ?_, ?_⟩
    · rw [packTiles_eq_batchSize hextent, batch_length]
    · intro r hr
      obtain ⟨i, hi⟩ := List.mem_iff_getElem?.1 hr
      obtain ⟨t, ht, hfor⟩ := forall₂_getElem? (targets_spec hts) hi
      obtain ⟨b, -, -, -, -, hcounts⟩ :=
        submit_wrote hts hfilled hkept.registered.nodup (List.mem_of_getElem? ht)
      refine ⟨t.field, _, hfor.field, hfor.name ▸ hcounts, ?_⟩
      unfold countsOf
      split <;> simp_all
    · intro hmore
      exact batch_eq_nil_iff hextent hmore hts
  · intro hopen hne hprovided
    exact (submit_ok_iff (TiledArray.sound_ofCells ha).1 hopen hkept.selected hkept.registered
      hprovided).2 hne

/-- A query for as many of four rows, which are in tiles of two. -/
def rowQuery (capacity : Nat) : TiledQuery :=
  (ofArray Session.tally).run [.register "row" ⟨none, capacity, none⟩]

/-- With room for three rows a submit takes one tile, and with room for one row nothing, as the tile
    has no room. -/
theorem rowQuery_takes_greatest :
    IsGreatest {n | Fits 2 (rowQuery 3).Accommodates (rowQuery 3).remaining n} 2 ∧
      ((rowQuery 1).submit (Session.rowBuffers 1 (by decide))).1 = .ok .incomplete ∧
      ¬ (rowQuery 1).Accommodates ((rowQuery 1).remaining.take 2) := by
  have hcells : TiledArray.ofCells Session.tally.schema 2 Session.tally.cells =
      .ok Session.tally :=
    TiledArray.ofCells_of_sorted (by decide) (by decide) (by decide +kernel) (by decide +kernel)
  have hprovided : (rowQuery 3).Provided (Session.rowBuffers 3 (by decide)) := by
    intro r hr st hst
    rw [show (rowQuery 3).registered = [("row", ⟨none, 3, none⟩)] by decide +kernel,
      List.mem_singleton] at hr
    subst hr
    obtain rfl := Option.some.inj (hst.symm.trans (show _ = some _ from rfl))
    exact ⟨_, rfl, rfl, rfl, rfl⟩
  have hfull : ((rowQuery 1).submit (Session.rowBuffers 1 (by decide))).1 = .ok .incomplete := by
    decide +kernel
  refine ⟨?_, hfull, ?_⟩
  · obtain ⟨-, htakes, hanswers⟩ := submit_takes_greatest (q := rowQuery 3) hcells ⟨_, rfl⟩
    obtain ⟨status, hstatus⟩ := hanswers rfl (by decide +kernel) hprovided
    rcases hsubmit : (rowQuery 3).submit (Session.rowBuffers 3 (by decide)) with
      ⟨answer, filled, q'⟩
    rw [hsubmit] at hstatus
    subst hstatus
    obtain ⟨ts, batch, -, htook, hgreatest, -⟩ := htakes status filled q' hsubmit
    have hdelivered : q'.delivered = 2 := by
      rw [show q' = ((rowQuery 3).submit (Session.rowBuffers 3 (by decide))).2.2 by rw [hsubmit]]
      decide +kernel
    rwa [(htook.length_eq rfl).trans hdelivered] at hgreatest
  · obtain ⟨-, htakes, -⟩ := submit_takes_greatest (q := rowQuery 1) hcells ⟨_, rfl⟩
    rcases hsubmit : (rowQuery 1).submit (Session.rowBuffers 1 (by decide)) with
      ⟨answer, filled, q'⟩
    rw [hsubmit] at hfull
    subst hfull
    obtain ⟨ts, batch, -, htook, -, -, -, hidle⟩ := htakes _ filled q' hsubmit
    have hdelivered : q'.delivered = 0 := by
      rw [show q' = ((rowQuery 1).submit (Session.rowBuffers 1 (by decide))).2.2 by rw [hsubmit]]
      decide +kernel
    have hnone : batch = [] :=
      List.length_eq_zero_iff.1 ((htook.length_eq rfl).trans hdelivered)
    exact (hidle (by decide +kernel)).1 hnone

end SparseScan.TiledQuery
