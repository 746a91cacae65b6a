import SparseScan.Proofs.Storage.Fill
import SparseScan.Proofs.Storage.Requests

set_option autoImplicit false

/-! # What a submit does

A successful submit takes a prefix of the cells that remain, writes it into the buffers of every
registered field, and reports as many (`submit_spec`). How many it takes depends on the room in the
buffers and on the tiles; nothing else does. -/

namespace SparseScan

/-- The value that a list of pairs with keys of their own has for a key. -/
theorem lookup_of_mem {α β : Type} [BEq α] [LawfulBEq α] {ps : List (α × β)} {a : α} {b : β}
    (hnodup : (ps.map Prod.fst).Nodup) (h : (a, b) ∈ ps) : ps.lookup a = some b := by
  induction ps with
  | nil => cases h
  | cons p ps ih =>
      rw [List.map_cons, List.nodup_cons] at hnodup
      rw [List.lookup_cons]
      rcases List.mem_cons.1 h with rfl | h
      · simp
      · have hne : a ≠ p.1 := fun heq => hnodup.1 (heq ▸ List.mem_map.2 ⟨_, h, rfl⟩)
        rw [beq_eq_false_iff_ne.2 hne]
        exact ih hnodup.2 h

/-- What the array is told of buffers. -/
def NamedBuffers.registration (b : NamedBuffers) : String × Capacities :=
  (b.name, b.buffers.capacities)

namespace TiledQuery

/-! ## Targets -/

/-- The target of what is registered as `r`: the first buffers of that name. -/
structure Target.IsFor (t : Target) (a : TiledArray) (buffers : List NamedBuffers)
    (r : String × Capacities) : Prop where
  name : t.name = r.1
  capacities : t.capacities = r.2
  field : a.stored? r.1 = some t.field
  index : t.index = buffers.findIdx (·.name == r.1)
  found : ∃ b, buffers[t.index]? = some b ∧ b.name = r.1
  covered : ∀ b, buffers[t.index]? = some b → ensureRooms r.1 r.2 b.buffers = .ok ()

section

variable {a : TiledArray} {buffers : List NamedBuffers} {registered : List (String × Capacities)}
  {ts : List Target}

/-- Each registered field has a target. -/
theorem targets_spec (h : targets a buffers registered = .ok ts) :
    List.Forall₂ (fun r t => t.IsFor a buffers r) registered ts := by
  induction registered generalizing ts with
  | nil =>
      cases h
      exact .nil
  | cons r rest ih =>
      simp only [targets] at h
      split at h
      · cases h
      · next b index hfind =>
          simp only [bind_eq_ok, pure_eq_ok] at h
          obtain ⟨⟨⟩, hrooms, field, hfield, others, hothers, rfl⟩ := h
          rw [find?_zipIdx fun x : NamedBuffers => x.name == r.1] at hfind
          obtain ⟨b', hb', hpair⟩ := Option.map_eq_some_iff.1 hfind
          simp only [Prod.mk.injEq, Nat.zero_add] at hpair
          obtain ⟨rfl, rfl⟩ := hpair
          rw [List.find?_eq_getElem?_findIdx] at hb'
          refine .cons ⟨rfl, rfl, stored_eq_ok hfield, rfl, ⟨b', hb', ?_⟩, ?_⟩ (ih hothers)
          · rw [← List.find?_eq_getElem?_findIdx] at hb'
            simpa using List.find?_some hb'
          · intro b hb
            rw [hb', Option.some.injEq] at hb
            exact hb ▸ hrooms

/-- Each target is that of a registered field. -/
theorem isFor_of_mem (h : targets a buffers registered = .ok ts) {t : Target} (ht : t ∈ ts) :
    ∃ r ∈ registered, t.IsFor a buffers r := by
  obtain ⟨i, hi⟩ := List.mem_iff_getElem?.1 ht
  obtain ⟨r, hr, hfor⟩ := forall₂_getElem? (targets_spec h).flip hi
  exact ⟨r, List.mem_of_getElem? hr, hfor⟩

/-- Fields registered under names of their own have targets at places of their own. -/
theorem targets_nodup (h : targets a buffers registered = .ok ts)
    (hnodup : (registered.map Prod.fst).Nodup) :
    (ts.map (·.name)).Nodup ∧ (ts.map (·.index)).Nodup := by
  have htargets := targets_spec h
  have hnames : (ts.map (·.name)).Nodup := by
    rw [map_eq_map_of_forall₂ htargets fun r t ht => ht.name]
    exact hnodup
  refine ⟨hnames, List.Nodup.map_on ?_ (List.Nodup.of_map _ hnames)⟩
  intro t ht u hu hindex
  obtain ⟨i, hi⟩ := List.mem_iff_getElem?.1 ht
  obtain ⟨j, hj⟩ := List.mem_iff_getElem?.1 hu
  obtain ⟨r, -, hr⟩ := forall₂_getElem? htargets.flip hi
  obtain ⟨r', -, hr'⟩ := forall₂_getElem? htargets.flip hj
  -- the buffers at one place have one name
  obtain ⟨b, hb, hbname⟩ := hr.found
  obtain ⟨b', hb', hbname'⟩ := hr'.found
  rw [hindex, hb', Option.some.injEq] at hb
  subst hb
  refine List.inj_on_of_nodup_map hnames ht hu ?_
  rw [hr.name, hr'.name, ← hbname, hbname']

/-- Buffers with names of their own are found at their place. -/
theorem findIdx_name (hnodup : (buffers.map (·.name)).Nodup) {i : Nat}
    {b : NamedBuffers} (hb : buffers[i]? = some b) : buffers.findIdx (·.name == b.name) = i := by
  obtain ⟨hlt, hget⟩ := List.getElem?_eq_some_iff.1 hb
  rw [List.findIdx_eq hlt]
  refine ⟨by simp [hget], ?_⟩
  intro j hj
  rw [beq_eq_false_iff_ne]
  intro hname
  have hjlt : j < buffers.length := hj.trans hlt
  have heq : j = i := (List.getElem?_inj (by rwa [List.length_map]) hnodup).1 (by
    rw [List.getElem?_map, List.getElem?_map, hb, List.getElem?_eq_getElem hjlt, Option.map_some,
      Option.map_some, hname])
  omega

theorem find?_name (hnodup : (buffers.map (·.name)).Nodup) {b : NamedBuffers} (hb : b ∈ buffers) :
    buffers.find? (·.name == b.name) = some b := by
  obtain ⟨i, hi⟩ := List.mem_iff_getElem?.1 hb
  rw [List.find?_eq_getElem?_findIdx, findIdx_name hnodup hi]
  exact hi

/-- When the buffers themselves are registered, the target of each stands at its place. -/
theorem targets_of_registration
    (h : targets a buffers (buffers.map NamedBuffers.registration) = .ok ts)
    (hnodup : (buffers.map (·.name)).Nodup) {i : Nat} {b : NamedBuffers}
    (hb : buffers[i]? = some b) : ∃ t, ts[i]? = some t ∧ t.name = b.name ∧
      a.stored? b.name = some t.field ∧ t.index = i := by
  have htargets := targets_spec h
  rw [List.forall₂_map_left_iff] at htargets
  obtain ⟨t, ht, hfor⟩ := forall₂_getElem? htargets hb
  exact ⟨t, ht, hfor.name, hfor.field, hfor.index.trans (findIdx_name hnodup hb)⟩

end

/-! ## Filling all targets -/

/-- Filling targets at places of their own fills each of them once. -/
theorem fillAll_spec {cells : List Cell} {ts : List Target} {buffers filled : List NamedBuffers}
    (h : fillAll cells ts buffers = .ok filled) (hnodup : (ts.map (·.index)).Nodup) :
    filled.length = buffers.length ∧
      (∀ t ∈ ts, ∃ b s, buffers[t.index]? = some b ∧
        fill t.name t.field cells b.buffers = .ok s ∧
          filled[t.index]? = some { b with buffers := s }) ∧
      ∀ j, j ∉ ts.map (·.index) → filled[j]? = buffers[j]? := by
  induction ts generalizing buffers with
  | nil =>
      cases h
      exact ⟨rfl, fun t ht => (nomatch ht), fun j _ => rfl⟩
  | cons t ts ih =>
      rw [List.map_cons, List.nodup_cons] at hnodup
      simp only [fillAll] at h
      split at h
      · cases h
      · next b hb =>
          split at h
          · cases h
          · next s hs =>
              obtain ⟨hlen, hall, hrest⟩ := ih h hnodup.2
              have hlt := (List.getElem?_eq_some_iff.1 hb).1
              refine ⟨by rw [hlen, List.length_set], ?_, ?_⟩
              · intro u hu
                rcases List.mem_cons.1 hu with rfl | hu
                · -- no later target stands at this place
                  refine ⟨b, s, hb, hs, ?_⟩
                  rw [hrest _ hnodup.1, List.getElem?_set_self hlt]
                · obtain ⟨b', s', hb', hs', hfilled⟩ := hall u hu
                  have hne : t.index ≠ u.index := fun heq =>
                    hnodup.1 (heq ▸ List.mem_map.2 ⟨u, hu, rfl⟩)
                  rw [List.getElem?_set_ne hne] at hb'
                  exact ⟨b', s', hb', hs', hfilled⟩
              · intro j hj
                rw [List.map_cons, List.mem_cons, not_or] at hj
                rw [hrest j hj.2, List.getElem?_set_ne (Ne.symm hj.1)]

/-- What filling one target leaves of its buffers, filling all of them leaves of all buffers. -/
theorem fillAll_map {β : Type} (g : NamedBuffers → β) {cells : List Cell} {ts : List Target}
    {buffers filled : List NamedBuffers}
    (hg : ∀ (t : Target) (b : NamedBuffers) (s : ElementBuffers),
      fill t.name t.field cells b.buffers = .ok s → g { b with buffers := s } = g b)
    (h : fillAll cells ts buffers = .ok filled) : filled.map g = buffers.map g := by
  induction ts generalizing buffers with
  | nil =>
      cases h
      rfl
  | cons t ts ih =>
      simp only [fillAll] at h
      split at h
      · cases h
      · next b hb =>
          split at h
          · cases h
          · next s hs =>
              obtain ⟨hlt, hget⟩ := List.getElem?_eq_some_iff.1 hb
              rw [ih h, List.map_set, hg t b s hs, ← hget]
              refine List.ext_getElem? fun i => ?_
              rw [List.getElem?_set]
              split
              · next hi => simp [← hi, hlt]
              · rfl

/-- A submit reports just what is registered. -/
theorem countsOfAll_names {a : TiledArray} {cells : List Cell} {buffers : List NamedBuffers}
    {registered : List (String × Capacities)} {ts : List Target}
    (hts : targets a buffers registered = .ok ts) :
    (countsOfAll cells buffers ts).map Prod.fst = registered.map Prod.fst := by
  have htargets := targets_spec hts
  clear hts
  induction htargets with
  | nil => rfl
  | @cons r t registered ts hfor _ ih =>
      obtain ⟨b, hb, -⟩ := hfor.found
      rw [countsOfAll, List.filterMap_cons, hb, Option.map_some, List.map_cons, List.map_cons,
        hfor.name]
      exact congrArg _ ih

/-- The counts of a target are found under its name. -/
theorem lookup_countsOfAll {cells : List Cell} {buffers : List NamedBuffers} {ts : List Target}
    (hnodup : (ts.map (·.name)).Nodup) {t : Target} (ht : t ∈ ts) {b : NamedBuffers}
    (hb : buffers[t.index]? = some b) :
    (countsOfAll cells buffers ts).lookup t.name = some (countsOf t.field cells b.buffers) := by
  refine lookup_of_mem ?_ (List.mem_filterMap.2 ⟨t, ht, by rw [hb, Option.map_some]⟩)
  have hsub : ((countsOfAll cells buffers ts).map Prod.fst).Sublist (ts.map (·.name)) := by
    clear hnodup ht
    induction ts with
    | nil => exact List.Sublist.refl _
    | cons u ts ih =>
        rw [countsOfAll, List.filterMap_cons]
        cases buffers[u.index]? with
        | none => exact ih.cons _
        | some b' => exact ih.cons_cons _
  exact hsub.nodup hnodup

/-- There are counts under the name of a target. -/
theorem exists_lookup_countsOfAll {cells : List Cell} {buffers : List NamedBuffers}
    {ts : List Target} {t : Target} (ht : t ∈ ts) {b : NamedBuffers}
    (hb : buffers[t.index]? = some b) :
    ∃ c, (countsOfAll cells buffers ts).lookup t.name = some c := by
  have hmem : (t.name, countsOf t.field cells b.buffers) ∈ countsOfAll cells buffers ts :=
    List.mem_filterMap.2 ⟨t, ht, by rw [hb, Option.map_some]⟩
  rcases hlookup : (countsOfAll cells buffers ts).lookup t.name with _ | c
  · have hne := List.lookup_eq_none_iff.1 hlookup _ hmem
    simp at hne
  · exact ⟨c, rfl⟩

/-- Counts found under a name are those of what is stored under it. -/
theorem countsOf_of_lookup {a : TiledArray} {cells : List Cell} {buffers : List NamedBuffers}
    {registered : List (String × Capacities)} {ts : List Target} {name : String}
    {st : TiledArray.StoredField} {c : ElementCounts}
    (hts : targets a buffers registered = .ok ts) (hst : a.stored? name = some st)
    (h : (countsOfAll cells buffers ts).lookup name = some c) : ∃ s, c = countsOf st cells s := by
  obtain ⟨l₁, l₂, hsplit, -⟩ := List.lookup_eq_some_iff.1 h
  have hmem : (name, c) ∈ countsOfAll cells buffers ts := by
    rw [hsplit]
    simp
  obtain ⟨t, ht, hpair⟩ := List.mem_filterMap.1 hmem
  obtain ⟨b, -, hcounts⟩ := Option.map_eq_some_iff.1 hpair
  rw [Prod.mk.injEq] at hcounts
  obtain ⟨hname, rfl⟩ := hcounts
  obtain ⟨r, -, hfor⟩ := isFor_of_mem hts ht
  have hfield := hfor.field
  rw [← hfor.name, hname, hst, Option.some.injEq] at hfield
  exact ⟨b.buffers, by rw [hfield]⟩

/-! ## Submitting -/

/-- What a submit has done with the buffers of one field: it filled them with the cells it took and
    reports what it wrote. -/
structure Wrote (q : TiledQuery) (cells : List Cell) (b b' : NamedBuffers) : Prop where
  filled : ∃ st s, q.array.stored? b.name = some st ∧ fill b.name st cells b.buffers = .ok s ∧
    b' = { b with buffers := s } ∧ q.counts.lookup b.name = some (countsOf st cells b.buffers)

/-- The query after a submit of `q` that took `cells`. -/
structure Took (q q' : TiledQuery) (cells : List Cell) : Prop where
  prefixed : ∃ n, cells = q.remaining.take n
  array : q'.array = q.array
  registered : q'.registered = q.registered
  closed : q'.closed = q.closed
  selected : q'.selected = q.selected
  delivered : q'.delivered = q.delivered + cells.length
  status : q'.status = if q.selected.length ≤ q'.delivered then .completed else .incomplete

theorem took_advanced (q : TiledQuery) (n : Nat) (counts : List (String × ElementCounts)) :
    q.Took (q.advanced (q.remaining.take n) counts) (q.remaining.take n) where
  prefixed := ⟨n, rfl⟩
  array := rfl
  registered := rfl
  closed := rfl
  selected := rfl
  delivered := rfl
  status := rfl

/-- The cells that a submit to `ts` takes. -/
def batch (q : TiledQuery) (ts : List Target) : List Cell :=
  q.remaining.take (batchSize q.array.tileExtent ts q.remaining)

section

variable {q q' : TiledQuery} {buffers filled : List NamedBuffers} {status : Progress}

/-- What a successful submit has done. -/
theorem submit_eq_ok (h : q.submit buffers = (.ok status, filled, q')) :
    ∃ ts, targets q.array buffers q.registered = .ok ts ∧
      fillAll (q.batch ts) ts buffers = .ok filled ∧
      q' = q.advanced (q.batch ts) (countsOfAll (q.batch ts) buffers ts) ∧ status = q'.status := by
  simp only [submit] at h
  split at h
  · next done next hattempt =>
      simp only [Prod.mk.injEq, Except.ok.injEq] at h
      obtain ⟨rfl, rfl, rfl⟩ := h
      have hsteps := whileOpen_eq_ok hattempt
      simp only [guard_eq_ok, bind_eq_ok] at hsteps
      obtain ⟨-, ts, hts, filled', hfilled, hpure⟩ := hsteps
      rw [pure_eq_ok, Prod.mk.injEq] at hpure
      obtain ⟨rfl, rfl⟩ := hpure
      exact ⟨ts, hts, hfilled, rfl, rfl⟩
  · simp at h

/-- A submit that fails changes nothing. -/
theorem submit_eq_error {e : ArrayError} (h : q.submit buffers = (.error e, filled, q')) :
    filled = buffers ∧ q' = q := by
  simp only [submit] at h
  split at h
  · simp at h
  · simp only [Prod.mk.injEq] at h
    exact ⟨h.2.1.symm, h.2.2.symm⟩

/-- A submit writes the cells that it takes into the buffers of every target and reports them. -/
theorem submit_wrote {ts : List Target} (hts : targets q.array buffers q.registered = .ok ts)
    (hfilled : fillAll (q.batch ts) ts buffers = .ok filled)
    (hnodup : (q.registered.map Prod.fst).Nodup) {t : Target} (ht : t ∈ ts) :
    ∃ b s, buffers[t.index]? = some b ∧ fill t.name t.field (q.batch ts) b.buffers = .ok s ∧
      filled[t.index]? = some { b with buffers := s } ∧
      (countsOfAll (q.batch ts) buffers ts).lookup t.name =
        some (countsOf t.field (q.batch ts) b.buffers) := by
  obtain ⟨hnames, hindices⟩ := targets_nodup hts hnodup
  obtain ⟨-, hall, -⟩ := fillAll_spec hfilled hindices
  obtain ⟨b, s, hb, hs, hfilled'⟩ := hall t ht
  exact ⟨b, s, hb, hs, hfilled', lookup_countsOfAll hnames ht hb⟩

/-- A submit takes the next cells, perhaps none, and writes them to every buffer. -/
theorem submit_spec (h : q.submit buffers = (.ok status, filled, q'))
    (hregistered : q.registered = buffers.map NamedBuffers.registration)
    (hnodup : (buffers.map (·.name)).Nodup) :
    ∃ ts, targets q.array buffers q.registered = .ok ts ∧ q.Took q' (q.batch ts) ∧
      status = q'.status ∧ List.Forall₂ (q'.Wrote (q.batch ts)) buffers filled := by
  obtain ⟨ts, hts, hfilled, rfl, hstatus⟩ := submit_eq_ok h
  have hregisteredNodup : (q.registered.map Prod.fst).Nodup := by
    rw [hregistered, List.map_map]
    exact hnodup
  refine ⟨ts, hts, took_advanced q _ _, hstatus, ?_⟩
  have hlen := (fillAll_spec hfilled (targets_nodup hts hregisteredNodup).2).1
  -- the target of each buffer stands at the place of the buffer
  refine forall₂_of_getElem? hlen.symm ?_
  intro i b hb
  obtain ⟨t, ht, hname, hstored, hindex⟩ :=
    targets_of_registration (hregistered ▸ hts) hnodup hb
  obtain ⟨b', s, hb', hs, hfilled', hcounts⟩ :=
    submit_wrote hts hfilled hregisteredNodup (List.mem_of_getElem? ht)
  rw [hindex, hb, Option.some.injEq] at hb'
  subst hb'
  rw [hindex] at hfilled'
  exact ⟨_, hfilled', t.field, s, hstored, hname ▸ hs, rfl, hname ▸ hcounts⟩

end

end TiledQuery

end SparseScan
