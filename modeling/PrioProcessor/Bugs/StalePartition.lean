import PrioProcessor.L5Origin.Pairing
import Mathlib.Data.List.Induction

/-!
# A re-run of staging keeps the batches that are gone

`load` (prio_processor/origin/staging.py:149-152) overwrites the output, and
with `partitionOverwriteMode=dynamic` (line 185) an overwrite replaces only the
directories that occur in the written rows. A directory is a date, a server
and a batch, so a re-run of a date whose pings no longer contain a batch leaves
the rows of this batch in place, next to the new rows of the date. A re-run on
pings without payloads raises before `load` and leaves every row of the date.
The mode is `overwrite`, and tests/test_origin_staging.py:300-320 expects that a
re-run does not add to a date; it runs twice on the same pings.

Counterexample: the date is staged with the batches `x` and `y`, then with `x`
alone: the rows of `y` are still there; or it is staged with `x`, then without
entries: the rows of `x` are still there (`stale_batch`).

Exact condition (`reflects_iff`): every server and batch of a run that had
payloads to stage is one of the last run for this date, and the last run has
payloads to stage.
-/
namespace PrioProcessor.Bugs.StalePartition

open L5 L5.Pairing Table

/-- The last run for a date. -/
def lastRun (day : String) (h : List StagingRun) : Option StagingRun :=
  (h.filter fun r => r.day = day).getLast?

/-- The rows `transform` produced in the last run for a date, none when it
raised. -/
def lastRows (day : String) (h : List StagingRun) : List Stored :=
  (lastRun day h).elim [] StagingRun.rows

/-- The output reflects the latest run of each date, and a run changes only its
own date. -/
structure Reflects (h : List StagingRun) : Prop where
  latest : ∀ day, (rowsOf day (runAll h)).Perm (lastRows day h)
  others : ∀ pre r post, h = pre ++ r :: post → ∀ day, r.day ≠ day →
    rowsOf day (runAll (pre ++ [r])) = rowsOf day (runAll pre)

/-- What a sequence of runs leaves under a date: the directories of all its
runs, and of those the last run wrote exactly its rows. -/
structure Leaves (day : String) (h : List StagingRun) : Prop where
  keys : ∀ k, (∃ x ∈ rowsOf day (runAll h), x.key = k) ↔
    ∃ r ∈ h, r.day = day ∧ r.succeeds = true ∧ k ∈ r.partitions
  last : (rowsOf day (runAll h)).filter (fun x => x.key ∈ (lastRows day h).map Stored.key) =
    lastRows day h

theorem runAll_append (h : List StagingRun) (r : StagingRun) :
    runAll (h ++ [r]) = r.run (runAll h) := by
  unfold runAll
  rw [List.foldl_append]; rfl

theorem lastRun_append (day : String) (h : List StagingRun) (r : StagingRun) :
    lastRun day (h ++ [r]) = if r.day = day then some r else lastRun day h := by
  unfold lastRun
  simp only [List.filter_append, List.filter_cons, List.filter_nil, decide_eq_true_eq]
  split
  · rw [List.getLast?_concat]
  · rw [List.append_nil]

/-- A run without the property adds nothing to what the others have. -/
theorem exists_append_iff {α : Type} {p : α → Prop} {xs : List α} {x : α} (hx : ¬ p x) :
    (∃ y ∈ xs, p y) ↔ ∃ y ∈ xs ++ [x], p y := by
  simp [or_and_right, exists_or, hx]

/-- A run of the date that succeeds replaces the directories it writes. -/
theorem Leaves.append_run {h : List StagingRun} {r : StagingRun} (hl : Leaves r.day h)
    (hs : r.succeeds = true) : Leaves r.day (h ++ [r]) := by
  have hlast : lastRows r.day (h ++ [r]) = r.rows := by
    unfold lastRows
    rw [lastRun_append, if_pos rfl]
    rfl
  refine ⟨fun k => ?_, ?_⟩
  · rw [runAll_append, StagingRun.rowsOf_run hs]
    constructor
    · intro hk
      obtain ⟨x, hx, rfl⟩ := hk
      rcases List.mem_append.1 hx with hx | hx
      · obtain ⟨r', hr', hd, hs', hk⟩ := (hl.keys x.key).1 ⟨x, (List.mem_filter.1 hx).1, rfl⟩
        exact ⟨r', List.mem_append_left _ hr', hd, hs', hk⟩
      · exact ⟨r, by simp, rfl, hs, (StagingRun.mem_partitions hs).2 ⟨x, hx, rfl⟩⟩
    · intro hk
      obtain ⟨r', hr', hd, hs', hk⟩ := hk
      by_cases hnew : k ∈ r.rows.map Stored.key
      · obtain ⟨x, hx, rfl⟩ := List.mem_map.1 hnew
        exact ⟨x, List.mem_append_right _ hx, rfl⟩
      · rcases List.mem_append.1 hr' with hold | hsame
        · obtain ⟨x, hx, rfl⟩ := (hl.keys k).2 ⟨r', hold, hd, hs', hk⟩
          exact ⟨x, List.mem_append_left _ (List.mem_filter.2 ⟨hx, decide_eq_true hnew⟩), rfl⟩
        · rw [List.mem_singleton.1 hsame] at hk
          obtain ⟨x, hx, rfl⟩ := (StagingRun.mem_partitions hs).1 hk
          exact absurd (List.mem_map.2 ⟨x, hx, rfl⟩) hnew
  · rw [hlast, runAll_append, StagingRun.rowsOf_run hs, List.filter_append, List.filter_filter]
    have hold : ((rowsOf r.day (runAll h)).filter fun x =>
        decide (x.key ∈ r.rows.map Stored.key) && decide (x.key ∉ r.rows.map Stored.key)) = [] :=
      List.filter_eq_nil_iff.2 fun x _ => by simp
    have hnew : (r.rows.filter fun x => decide (x.key ∈ r.rows.map Stored.key)) = r.rows :=
      List.filter_eq_self.2 fun x hx => decide_eq_true (List.mem_map.2 ⟨x, hx, rfl⟩)
    rw [hold, hnew, List.nil_append]

/-- A run of another date changes nothing under the date. -/
theorem Leaves.append_other {day : String} {h : List StagingRun} {r : StagingRun}
    (hl : Leaves day h) (hr : r.day ≠ day) : Leaves day (h ++ [r]) := by
  have hrows : rowsOf day (runAll (h ++ [r])) = rowsOf day (runAll h) := by
    rw [runAll_append]
    exact StagingRun.rowsOf_run_ne hr _
  have hlast : lastRows day (h ++ [r]) = lastRows day h := by
    unfold lastRows
    rw [lastRun_append, if_neg hr]
  refine ⟨fun k => ?_, by rw [hrows, hlast]; exact hl.last⟩
  rw [hrows, hl.keys k]
  exact exists_append_iff fun h => hr h.1

/-- A run of the date that raises leaves the rows that are there. -/
theorem Leaves.append_failed {h : List StagingRun} {r : StagingRun} (hl : Leaves r.day h)
    (hs : r.succeeds = false) : Leaves r.day (h ++ [r]) := by
  have hlast : lastRows r.day (h ++ [r]) = [] := by
    unfold lastRows
    rw [lastRun_append, if_pos rfl]
    exact StagingRun.rows_failed hs
  refine ⟨fun k => ?_, ?_⟩
  · rw [runAll_append, StagingRun.run_failed hs, hl.keys k]
    refine exists_append_iff fun h => ?_
    rw [hs] at h
    cases h.2.1
  · rw [hlast]
    exact List.filter_eq_nil_iff.2 fun x _ => by simp

/-- The step: one more run. -/
theorem Leaves.append {day : String} {h : List StagingRun} (hl : Leaves day h) (r : StagingRun) :
    Leaves day (h ++ [r]) := by
  by_cases hd : r.day = day
  · subst hd
    cases hs : r.succeeds with
    | true => exact hl.append_run hs
    | false => exact hl.append_failed hs
  · exact hl.append_other hd

theorem leaves (day : String) (h : List StagingRun) : Leaves day h := by
  induction h using List.reverseRecOn with
  | nil => exact ⟨fun k => by simp [rowsOf, runAll], rfl⟩
  | append_singleton h r ih => exact ih.append r

/-- A run has a payload under "a" that is not empty. -/
def HasPayload (r : StagingRun) : Prop :=
  ∃ b ∈ blocks (kept r.choices r.pings), ∃ s, payloadOf "a" b.prio = some s ∧ s ≠ ""

/-- The other runs raise. -/
theorem succeeds_iff {r : StagingRun} : r.succeeds = true ↔ HasPayload r := by
  unfold HasPayload
  rw [← exists_numbered fun prio => ∃ s, payloadOf "a" prio = some s ∧ s ≠ ""]
  refine Iff.trans ?_ (estimate_pos_iff (show 0 < 250 by decide))
  unfold StagingRun.succeeds
  rw [transform_eq]
  cases hn : estimateNumPartitions (numbered r.choices r.pings) 250 with
  | error e =>
    refine iff_of_false Bool.false_ne_true fun h => ?_
    obtain ⟨n, h, -⟩ := h
    cases h
  | ok n =>
    simp only [Except.bind, Except.ok.injEq, exists_eq_left']
    by_cases hlt : n < 1
    · rw [if_pos hlt]
      exact iff_of_false Bool.false_ne_true (Nat.not_le.2 hlt)
    · rw [if_neg hlt]
      exact iff_of_true rfl (Nat.not_lt.1 hlt)

theorem HasPayload.partition {r : StagingRun} (h : HasPayload r) : ∃ k, k ∈ r.partitions := by
  obtain ⟨b, hb, s, hs, -⟩ := h
  exact ⟨_, List.mem_flatMap.2 ⟨b, hb, List.mem_map_of_mem (payloadOf_eq_some.1 hs)⟩⟩

/-- **Exact condition**: the output reflects the latest run of each date
exactly when the last run for a date, if some run had payloads to stage, has
payloads to stage and every directory of such a run. -/
theorem reflects_iff (h : List StagingRun) : Reflects h ↔
    ∀ r ∈ h, HasPayload r → ∀ last, lastRun r.day h = some last →
      HasPayload last ∧ ∀ k ∈ r.partitions, k ∈ last.partitions := by
  constructor
  · intro hreflects r hr hpay last hlast
    have hstored : ∀ k ∈ r.partitions, ∃ x ∈ last.rows, x.key = k := by
      intro k hk
      obtain ⟨x, hx, rfl⟩ :=
        ((leaves r.day h).keys k).2 ⟨r, hr, rfl, succeeds_iff.2 hpay, hk⟩
      have hmem := (hreflects.latest r.day).mem_iff.1 hx
      unfold lastRows at hmem
      rw [hlast] at hmem
      exact ⟨x, hmem, rfl⟩
    have hlasts : last.succeeds = true := by
      obtain ⟨k, hk⟩ := hpay.partition
      obtain ⟨x, hx, -⟩ := hstored k hk
      by_contra hs
      rw [StagingRun.rows_failed (Bool.not_eq_true _ ▸ hs)] at hx
      cases hx
    exact ⟨succeeds_iff.1 hlasts, fun k hk =>
      (StagingRun.mem_partitions hlasts).2 (hstored k hk)⟩
  · intro hcover
    refine ⟨fun day => ?_, fun pre r post _ day hday => ?_⟩
    · have hl := leaves day h
      have hall : (rowsOf day (runAll h)).filter
          (fun x => x.key ∈ (lastRows day h).map Stored.key) = rowsOf day (runAll h) := by
        refine List.filter_eq_self.2 fun x hx => decide_eq_true ?_
        obtain ⟨r, hr, hd, hs, hk⟩ := (hl.keys x.key).1 ⟨x, hx, rfl⟩
        cases hlast : lastRun day h with
        | none =>
          have hnil := List.getLast?_eq_none_iff.1 hlast
          have hmem : r ∈ h.filter fun r => r.day = day :=
            List.mem_filter.2 ⟨hr, by simp [hd]⟩
          rw [hnil] at hmem; cases hmem
        | some last =>
          obtain ⟨hpay, hsub⟩ := hcover r hr (succeeds_iff.1 hs) last (hd.symm ▸ hlast)
          obtain ⟨y, hy, heq⟩ :=
            (StagingRun.mem_partitions (succeeds_iff.2 hpay)).1 (hsub x.key hk)
          unfold lastRows
          rw [hlast]
          exact List.mem_map.2 ⟨y, hy, heq⟩
      rw [← hall, hl.last]
    · rw [runAll_append]
      exact StagingRun.rowsOf_run_ne hday _

/-! ## The counterexample -/

def sampleMap : PrioMap := ⟨[("a", some "Aw=="), ("b", some "BA==")], by decide⟩

def samplePing (batches : List String) : Ping :=
  ⟨some "p", some (batches.map fun batch => ⟨some batch, some sampleMap⟩)⟩

def sampleRun (batches : List String) : StagingRun :=
  ⟨"2019-06-26", [samplePing batches], ⟨.whole, .whole, .whole⟩⟩

/-- **Counterexample**: after a re-run without the batch `y` its rows are still
stored under the date, and after one without entries all of them are. -/
theorem stale_batch : ¬ Reflects [sampleRun ["x", "y"], sampleRun ["x"]] ∧
    ¬ Reflects [sampleRun ["x"], sampleRun []] := by
  constructor
  · intro h
    have hperm := (h.latest "2019-06-26").length_eq
    have hstored : (rowsOf "2019-06-26"
        (runAll [sampleRun ["x", "y"], sampleRun ["x"]])).length = 4 := by decide +kernel
    have hlast : (lastRows "2019-06-26"
        [sampleRun ["x", "y"], sampleRun ["x"]]).length = 2 := by decide +kernel
    omega
  · intro h
    have hperm := (h.latest "2019-06-26").length_eq
    have hstored : (rowsOf "2019-06-26" (runAll [sampleRun ["x"], sampleRun []])).length = 2 := by
      decide +kernel
    have hlast : (lastRows "2019-06-26" [sampleRun ["x"], sampleRun []]).length = 0 := by
      decide +kernel
    omega

end PrioProcessor.Bugs.StalePartition
