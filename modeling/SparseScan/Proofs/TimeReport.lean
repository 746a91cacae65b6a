import Mathlib.Data.List.Permutation
import Mathlib.Data.List.Sort
import SparseScan.Proofs.Text.ByteOrder
import SparseScan.TimeLog

set_option autoImplicit false

/-! # Time reports

What a report says depends on the recorded durations, not on the order in which they were recorded.
`TimeLog.report_of_records` says what that is: a row for each operation, in the byte order of the
names, with the number of its durations, the least and the greatest one, and the median, which half
of them do not exceed and half of them do not fall below. -/

namespace SparseScan

/-! ## Sorting -/

section

variable {α : Type}

theorem nodup_eraseDups [BEq α] [LawfulBEq α] (xs : List α) : xs.eraseDups.Nodup := by
  induction hn : xs.length using Nat.strong_induction_on generalizing xs with
  | _ n ih =>
      cases xs with
      | nil => exact List.nodup_nil
      | cons x xs =>
          rw [List.eraseDups_cons, List.nodup_cons, List.mem_eraseDups]
          have hlen : (xs.filter fun y => !y == x).length < n := by
            rw [← hn]
            exact Nat.lt_succ_of_le (List.length_filter_le _ _)
          exact ⟨by simp, ih _ hlen _ rfl⟩

variable [LinearOrder α]

theorem pairwise_le_mergeSort (xs : List α) :
    (xs.mergeSort fun a b => decide (a ≤ b)).Pairwise (· ≤ ·) :=
  List.pairwise_mergeSort' (· ≤ ·) xs

/-- Sorting forgets the order. -/
theorem mergeSort_eq_of_perm {xs ys : List α} (h : xs.Perm ys) :
    (xs.mergeSort fun a b => decide (a ≤ b)) = ys.mergeSort fun a b => decide (a ≤ b) := by
  have hperm := (List.mergeSort_perm xs fun a b => decide (a ≤ b)).trans
    (h.trans (List.mergeSort_perm ys fun a b => decide (a ≤ b)).symm)
  exact hperm.eq_of_pairwise (fun _ _ _ _ => le_antisymm) (pairwise_le_mergeSort xs)
    (pairwise_le_mergeSort ys)

end

/-! ## Durations in ascending order -/

/-- A row says of durations how many they are, which ones are the least and the greatest, and which
    one stands in the middle when they are in order. -/
structure OperationSummary.Summarizes (row : OperationSummary) (durations : List Nat) : Prop where
  count : row.count = durations.length
  least : row.least ∈ durations ∧ ∀ d ∈ durations, row.least ≤ d
  greatest : row.greatest ∈ durations ∧ ∀ d ∈ durations, d ≤ row.greatest
  recorded : row.median ∈ durations
  middle : ∀ ascending : List Nat, ascending.Perm durations → ascending.Pairwise (· ≤ ·) →
    ascending[row.count / 2]? = some row.median
  below : row.count ≤ 2 * durations.countP (· ≤ row.median)
  above : row.count ≤ 2 * durations.countP (row.median ≤ ·)

/-- As many as there are in a part of a list that has a property have it in the list. -/
theorem length_le_countP {α : Type} {p : α → Bool} {xs ys : List α} (h : xs.Sublist ys)
    (hp : ∀ x ∈ xs, p x = true) : xs.length ≤ ys.countP p := by
  rw [← List.countP_eq_length.2 hp]
  exact h.countP_le

section

variable {ascending : List Nat}

/-- In ascending order no value before a place is greater than the one there, and none after it is
    less. -/
theorem length_le_countP_le (h : ascending.Pairwise (· ≤ ·)) {k : Nat} (hk : k < ascending.length) :
    k + 1 ≤ ascending.countP (· ≤ ascending[k]) ∧
      ascending.length - k ≤ ascending.countP (ascending[k] ≤ ·) := by
  rw [List.pairwise_iff_getElem] at h
  constructor
  · have hlen : (ascending.take (k + 1)).length = k + 1 := by
      rw [List.length_take, Nat.min_eq_left hk]
    rw [← hlen]
    refine length_le_countP (List.take_sublist _ _) fun x hx => ?_
    obtain ⟨i, hi, rfl⟩ := List.mem_iff_getElem.1 hx
    rw [hlen] at hi
    rw [List.getElem_take, decide_eq_true_iff]
    rcases Nat.lt_succ_iff_lt_or_eq.1 hi with hlt | rfl
    · exact h i k _ hk hlt
    · exact le_rfl
  · rw [← List.length_drop]
    refine length_le_countP (List.drop_sublist _ _) fun x hx => ?_
    obtain ⟨i, hi, rfl⟩ := List.mem_iff_getElem.1 hx
    rw [List.getElem_drop, decide_eq_true_iff]
    rcases Nat.eq_zero_or_pos i with rfl | hpos
    · exact le_rfl
    · exact h k (k + i) hk _ (by omega)

/-- The summary of durations in ascending order summarizes them. -/
theorem OperationSummary.ofDurations_summarizes (name : String) (h : ascending.Pairwise (· ≤ ·))
    (hne : ascending ≠ []) : (ofDurations name ascending).Summarizes ascending := by
  have hpos : 0 < ascending.length := List.length_pos_iff.2 hne
  have hmiddle : ascending.length / 2 < ascending.length := by omega
  have hmedian : (ofDurations name ascending).median = ascending[ascending.length / 2] := by
    rw [ofDurations, List.getD_eq_getElem?_getD, List.getElem?_eq_getElem hmiddle,
      Option.getD_some]
  have hleast : (ofDurations name ascending).least = ascending[0] := by
    rw [ofDurations, List.headD_eq_head?_getD, List.head?_eq_getElem?,
      List.getElem?_eq_getElem hpos, Option.getD_some]
  have hgreatest : (ofDurations name ascending).greatest = ascending[ascending.length - 1] := by
    rw [ofDurations, List.getLastD_eq_getLast?, List.getLast?_eq_getElem?,
      List.getElem?_eq_getElem (by omega), Option.getD_some]
  obtain ⟨hbelow, habove⟩ := length_le_countP_le h hmiddle
  have hsorted := List.pairwise_iff_getElem.1 h
  refine ⟨rfl, ?_, ?_, ?_, ?_, ?_, ?_⟩
  · rw [hleast]
    refine ⟨List.getElem_mem _, fun d hd => ?_⟩
    obtain ⟨i, hi, rfl⟩ := List.mem_iff_getElem.1 hd
    rcases Nat.eq_zero_or_pos i with rfl | hlt
    · exact le_rfl
    · exact hsorted 0 i _ hi hlt
  · rw [hgreatest]
    refine ⟨List.getElem_mem _, fun d hd => ?_⟩
    obtain ⟨i, hi, rfl⟩ := List.mem_iff_getElem.1 hd
    rcases Nat.lt_or_eq_of_le (Nat.le_sub_one_of_lt hi) with hlt | rfl
    · exact hsorted i _ hi _ hlt
    · exact le_rfl
  · rw [hmedian]
    exact List.getElem_mem _
  · intro other hperm hother
    rw [hperm.eq_of_pairwise (fun _ _ _ _ => le_antisymm) hother h, hmedian]
    exact List.getElem?_eq_getElem hmiddle
  · rw [hmedian]
    show ascending.length ≤ _
    omega
  · rw [hmedian]
    show ascending.length ≤ _
    omega

end

/-- A summary does not depend on the order of the durations. -/
theorem OperationSummary.Summarizes.perm {row : OperationSummary} {ds ds' : List Nat}
    (h : row.Summarizes ds) (hperm : ds.Perm ds') : row.Summarizes ds' where
  count := h.count.trans hperm.length_eq
  least := ⟨hperm.mem_iff.1 h.least.1, fun d hd => h.least.2 d (hperm.mem_iff.2 hd)⟩
  greatest := ⟨hperm.mem_iff.1 h.greatest.1, fun d hd => h.greatest.2 d (hperm.mem_iff.2 hd)⟩
  recorded := hperm.mem_iff.1 h.recorded
  middle ascending hascending := h.middle ascending (hascending.trans hperm.symm)
  below := hperm.countP_eq _ ▸ h.below
  above := hperm.countP_eq _ ▸ h.above

namespace TimeLog

/-! ## Names and durations -/

variable {t t' : TimeLog} {name : String}

theorem names_pairwise (t : TimeLog) : t.names.Pairwise (· < ·) := by
  have hnodup : t.names.Nodup := (List.mergeSort_perm _ _).nodup_iff.2 (nodup_eraseDups _)
  exact (pairwise_le_mergeSort _).imp₂ (fun _ _ => lt_of_le_of_ne) hnodup

theorem mem_names : name ∈ t.names ↔ name ∈ t.records.map (·.1) := by
  rw [names, List.mem_mergeSort, List.mem_eraseDups]

theorem names_of_perm (h : t.records.Perm t'.records) : t.names = t'.names := by
  refine mergeSort_eq_of_perm ((List.perm_ext_iff_of_nodup (nodup_eraseDups _)
    (nodup_eraseDups _)).2 fun name => ?_)
  rw [List.mem_eraseDups, List.mem_eraseDups, (h.map _).mem_iff]

theorem durations_of_perm (h : t.records.Perm t'.records) (name : String) :
    t.durations name = t'.durations name :=
  mergeSort_eq_of_perm ((h.filter _).map _)

/-! ## Rows -/

/-- The row of each operation, in the order of the names. -/
def rows (t : TimeLog) : List OperationSummary :=
  t.names.map fun name => .ofDurations name (t.durations name)

theorem report?_of_enabled (h : t.enabled = true) (elapsed : Nat) :
    t.report? elapsed = some ⟨t.rows, elapsed⟩ := if_pos h

/-- Logs with the same records, in whatever order, have the same rows. -/
theorem rows_of_perm (h : t.records.Perm t'.records) : t.rows = t'.rows := by
  rw [rows, rows, names_of_perm h, funext (durations_of_perm h)]

theorem rows_names (t : TimeLog) : t.rows.map (·.name) = t.names := by
  rw [rows, List.map_map]
  exact List.map_id _

theorem utf8_rows_pairwise (t : TimeLog) :
    (t.rows.map fun row => Text.utf8 row.name).Pairwise (· < ·) := by
  have hnames : (t.rows.map (·.name)).Pairwise (· < ·) := (rows_names t).symm ▸ names_pairwise t
  rw [List.pairwise_map] at hnames ⊢
  exact hnames.imp Text.utf8_strictMono

/-- The durations of one operation among records. -/
def durationsOf (records : List (String × Nat)) (name : String) : List Nat :=
  (records.filter (·.1 == name)).map (·.2)

theorem rows_summarize {row : OperationSummary} (h : row ∈ t.rows) :
    row.Summarizes (durationsOf t.records row.name) := by
  obtain ⟨name, hname, rfl⟩ := List.mem_map.1 h
  have hperm : (t.durations name).Perm (durationsOf t.records name) := List.mergeSort_perm _ _
  refine (OperationSummary.ofDurations_summarizes name (pairwise_le_mergeSort _) ?_).perm hperm
  obtain ⟨r, hr, hrecord⟩ := List.mem_map.1 (mem_names.1 hname)
  have hmem : r.2 ∈ durationsOf t.records name :=
    List.mem_map.2 ⟨r, List.mem_filter.2 ⟨hr, beq_iff_eq.2 hrecord⟩, rfl⟩
  exact List.ne_nil_of_mem (hperm.mem_iff.2 hmem)

/-! ## Reports of records -/

/-- Record durations of operations, one after the other. -/
def recordAll (t : TimeLog) (records : List (String × Nat)) : TimeLog :=
  records.foldl (fun t r => t.record r.1 r.2) t

theorem recordAll_of_enabled (h : t.enabled = true) (records : List (String × Nat)) :
    t.recordAll records = { t with records := records.reverse ++ t.records } := by
  induction records generalizing t with
  | nil => rfl
  | cons r rest ih =>
      have hrecord : t.record r.1 r.2 = { t with records := r :: t.records } := if_pos h
      show (t.record r.1 r.2).recordAll rest = _
      rw [hrecord, ih (t := { t with records := r :: t.records }) h, List.reverse_cons,
        List.append_assoc]
      rfl

/-- A log that records reports, in whatever order they come, a row for each name that occurs in
    them, in the order of the bytes of the names, and each row summarizes the durations recorded
    under its name. -/
theorem report_of_records (records : List (String × Nat)) (elapsed : Nat) :
    ∃ report, (recordAll ⟨true, []⟩ records).report? elapsed = some report ∧
      (∀ other : List (String × Nat), other.Perm records →
        (recordAll ⟨true, []⟩ other).report? elapsed = some report) ∧
      (report.rows.map fun row => Text.utf8 row.name).Pairwise (· < ·) ∧
      (report.rows.map (·.name)).Nodup ∧
      (∀ name, name ∈ report.rows.map (·.name) ↔ name ∈ records.map (·.1)) ∧
      ∀ row ∈ report.rows, row.Summarizes (durationsOf records row.name) := by
  have hlog : ∀ rs : List (String × Nat), recordAll ⟨true, []⟩ rs = ⟨true, rs.reverse⟩ := by
    intro rs
    rw [recordAll_of_enabled rfl, List.append_nil]
  have hreport : ∀ rs : List (String × Nat), rs.Perm records →
      (recordAll ⟨true, []⟩ rs).report? elapsed = some ⟨rows ⟨true, records⟩, elapsed⟩ := by
    intro rs hrs
    have hperm : (TimeLog.mk true rs.reverse).records.Perm (TimeLog.mk true records).records :=
      (List.reverse_perm rs).trans hrs
    rw [hlog, report?_of_enabled rfl, rows_of_perm hperm]
  refine ⟨_, hreport records (.refl _), hreport, utf8_rows_pairwise _, ?_, ?_, ?_⟩
  · rw [rows_names]
    exact (names_pairwise _).imp ne_of_lt
  · intro name
    rw [rows_names, mem_names]
  · intro row hrow
    exact rows_summarize hrow

/-- Four records, three of them of one operation. -/
def fourRecords : List (String × Nat) :=
  [("submit", 30), ("decode", 7), ("submit", 10), ("submit", 20)]

/-- The two rows of the four records, also when the first ones come last. -/
theorem report_of_records_four :
    (fourRecords.drop 2 ++ fourRecords.take 2).Perm fourRecords ∧
      ∃ report,
        (recordAll ⟨true, []⟩ (fourRecords.drop 2 ++ fourRecords.take 2)).report? 1500 =
          some report ∧
        report.rows.map (fun row => (row.name, row.count, row.least, row.median, row.greatest)) =
          [("decode", 1, 7, 7, 7), ("submit", 3, 10, 20, 30)] := by
  have hperm : (fourRecords.drop 2 ++ fourRecords.take 2).Perm fourRecords := by decide
  obtain ⟨report, hreport, hother, -⟩ := report_of_records fourRecords 1500
  refine ⟨hperm, report, hother _ hperm, ?_⟩
  have hlog : (recordAll ⟨true, []⟩ fourRecords).report? 1500 =
      some ⟨rows ⟨true, fourRecords.reverse⟩, 1500⟩ := rfl
  cases hlog.symm.trans hreport
  have heach : (fourRecords.reverse.map (·.1)).eraseDups = ["submit", "decode"] := by
    decide +kernel
  have hnames : names ⟨true, fourRecords.reverse⟩ = ["decode", "submit"] := by
    rw [names, heach]
    simp [List.mergeSort, List.MergeSort.Internal.splitInTwo]
  have hdecode : durations ⟨true, fourRecords.reverse⟩ "decode" = [7] := by cbv
  have hsubmit : durations ⟨true, fourRecords.reverse⟩ "submit" = [10, 20, 30] := by cbv
  -- the total and the average, which are doubles, are left out
  show (rows ⟨true, fourRecords.reverse⟩).map _ = _
  rw [rows, hnames]
  simp only [List.map_cons, List.map_nil, hdecode, hsubmit]
  rfl

end TimeLog

end SparseScan
