import PrioProcessor.Core.Table
import Mathlib.Algebra.GroupWithZero.Nat

/-!
# Staging of the raw shares

`prio_processor/origin/staging.py`: the extracted pings of a date become one
row for each share, numbered within its batch, and are written below
`submission_date=<date>/server_id=<server>/batch_id=<batch>`, where an
overwrite replaces the directories that occur in the written rows
(`partitionOverwriteMode=dynamic`).

Extraction (the formats of the two sources) is left out: a run starts from the
rows `extract` returns. Spark's choices are `Choices`: which ping of an id
`dropDuplicates` keeps, the order `row_number` follows, and how rows are cut
into partitions.

* `mem_transform`: the rows of a run come from the blocks of the kept pings.
* `rowsOf_run`, `rowsOf_run_ne`: what a run does to the rows of its date, and
  that it does nothing to another date.
-/
namespace PrioProcessor.L5

open Table

/-- A map from strings to strings that may be null. -/
structure PrioMap where
  entries : List (String × Option String)
  nodup : (entries.map Prod.fst).Nodup
  deriving DecidableEq

/-- An element of `prioData`; a null element has null fields.
mirrors prio_processor/origin/staging.py:27-37 -/
structure Block where
  encoding : Option String
  prio : Option PrioMap
  deriving DecidableEq

/-- mirrors prio_processor/origin/staging.py:22-41 -/
structure Ping where
  id : Option String
  prioData : Option (List Block)
  deriving DecidableEq

/-- A row after the blocks are numbered. -/
structure Numbered where
  batchId : Option String
  id : ℕ
  prio : Option PrioMap
  deriving DecidableEq

/-- A row of the transformed data. -/
structure Share where
  batchId : Option String
  serverId : String
  id : ℕ
  payload : Option String
  deriving DecidableEq, Repr

/-- `TypeError` of `None * 1.0`, and Spark's refusal of zero partitions. -/
inductive StagingExc where
  | typeError | illegalArgument
  deriving DecidableEq, Repr

structure Choices where
  distinct : Shuffle Ping
  order : Shuffle Block
  ranges : Shuffle Numbered

/-! ## transform -/

/-- `dropDuplicates(["id"])`, keeping the first row of an id. -/
def dropDuplicates (seen : List (Option String)) : List Ping → List Ping
  | [] => []
  | p :: ps =>
    if p.id ∈ seen then dropDuplicates seen ps else p :: dropDuplicates (p.id :: seen) ps

/-- `explode("prioData")` -/
def blocks (pings : List Ping) : List Block := pings.flatMap fun p => p.prioData.getD []

/-- `row_number()` over the rows of a batch, in their order. -/
def number (seen : List (Option String)) : List Block → List Numbered
  | [] => []
  | b :: bs => ⟨b.encoding, seen.count b.encoding + 1, b.prio⟩ :: number (b.encoding :: seen) bs

/-- `col("prio")["a"]` -/
def prioA (r : Numbered) : Option String :=
  (r.prio.bind fun m => lookup Prod.fst m.entries "a").bind Prod.snd

/-- `SUM` skips nulls, and is null when there is nothing else.
mirrors prio_processor/origin/staging.py:108-112 -/
def estimateNumPartitions (rows : List Numbered) (partitionSizeMb : ℕ) : Except StagingExc ℕ :=
  match rows.filterMap prioA with
  | [] => .error .typeError
  | xs => .ok (((xs.map String.length).sum + (1000000 * partitionSizeMb - 1)) /
      (1000000 * partitionSizeMb))

/-- The rows are cut into ranges; Spark refuses less than one. -/
def repartitionByRange (S : Shuffle Numbered) (n : ℕ) (rows : List Numbered) :
    Except StagingExc (List Numbered) :=
  if n < 1 then .error .illegalArgument else .ok (S.rows rows)

/-- `explode("prio")` -/
def explodePrio (r : Numbered) : List Share :=
  (r.prio.elim [] PrioMap.entries).map fun e => ⟨r.batchId, e.1, r.id, e.2⟩

/-- mirrors prio_processor/origin/staging.py:115-146 -/
def transform (C : Choices) (data : List Ping) : Except StagingExc (List Share) := do
  let df := number [] (C.order.rows (blocks (dropDuplicates [] (C.distinct.rows data))))
  let numPartitions ← estimateNumPartitions df 250
  let df ← repartitionByRange C.ranges numPartitions df
  pure (df.flatMap explodePrio)

/-- The pings `dropDuplicates` keeps. -/
def kept (C : Choices) (data : List Ping) : List Ping := dropDuplicates [] (C.distinct.rows data)

/-- The numbered rows, before they are cut into partitions. -/
def numbered (C : Choices) (data : List Ping) : List Numbered :=
  number [] (C.order.rows (blocks (kept C data)))

/-- The partitions of the transformed data. -/
def partitions (C : Choices) (data : List Ping) : List (List Share) :=
  (C.ranges.parts (numbered C data)).map fun p => p.flatMap explodePrio

theorem partitions_flatten (C : Choices) (data : List Ping) :
    (partitions C data).flatten = (C.ranges.rows (numbered C data)).flatMap explodePrio := by
  unfold partitions Shuffle.rows
  rw [← List.flatMap_def, ← List.flatMap_id (L := C.ranges.parts _), List.flatMap_assoc]
  rfl

theorem transform_eq (C : Choices) (data : List Ping) : transform C data =
    (estimateNumPartitions (numbered C data) 250).bind fun n =>
      if n < 1 then .error .illegalArgument else .ok (partitions C data).flatten := by
  unfold transform
  change (estimateNumPartitions (numbered C data) 250 >>= _) = _
  cases estimateNumPartitions (numbered C data) 250 with
  | error e => rfl
  | ok n =>
    rw [partitions_flatten]
    change (repartitionByRange C.ranges n (numbered C data) >>= _) = _
    unfold repartitionByRange
    by_cases hn : n < 1
    · simp only [hn, if_true, Except.bind, bind]
    · simp only [hn, if_false, Except.bind, bind]
      rfl

theorem transform_ok {C : Choices} {data : List Ping} {out : List Share}
    (h : transform C data = .ok out) : out = (partitions C data).flatten := by
  rw [transform_eq] at h
  cases hn : estimateNumPartitions (numbered C data) 250 with
  | error e => rw [hn] at h; cases h
  | ok n =>
    rw [hn] at h
    simp only [Except.bind] at h
    split at h
    · cases h
    · cases h; rfl

/-! ### The number of partitions -/

/-- The total length of the payloads under "a". -/
def totalLength (rows : List Numbered) : ℕ := ((rows.filterMap prioA).map String.length).sum

theorem estimate_eq_ok {rows : List Numbered} {mb n : ℕ} :
    estimateNumPartitions rows mb = .ok n ↔ rows.filterMap prioA ≠ [] ∧
      n = (totalLength rows + (1000000 * mb - 1)) / (1000000 * mb) := by
  unfold estimateNumPartitions totalLength
  cases rows.filterMap prioA with
  | nil => simp
  | cons x xs => simp [eq_comm]

/-- So many partitions hold the payloads, and no fewer do. -/
theorem estimate_le_iff {rows : List Numbered} {mb n : ℕ} (hmb : 0 < mb)
    (h : estimateNumPartitions rows mb = .ok n) (k : ℕ) :
    n ≤ k ↔ totalLength rows ≤ k * (1000000 * mb) := by
  obtain ⟨-, rfl⟩ := estimate_eq_ok.1 h
  rw [Nat.div_le_iff_le_mul_add_pred (by omega)]
  rw [Nat.mul_comm k]
  omega

theorem totalLength_pos {rows : List Numbered} :
    0 < totalLength rows ↔ ∃ r ∈ rows, ∃ s, prioA r = some s ∧ s ≠ "" := by
  unfold totalLength
  rw [List.sum_pos_iff_exists_pos_nat]
  simp only [List.mem_map, List.mem_filterMap, Nat.pos_iff_ne_zero, ne_eq]
  constructor
  · rintro ⟨k, ⟨s, ⟨r, hr, hs⟩, rfl⟩, hk⟩
    exact ⟨r, hr, s, hs, fun h => hk (String.length_eq_zero_iff.2 h)⟩
  · rintro ⟨r, hr, s, hs, hne⟩
    exact ⟨_, ⟨s, ⟨r, hr, hs⟩, rfl⟩, fun h => hne (String.length_eq_zero_iff.1 h)⟩

/-- There is at least one partition when some payload under "a" is not empty. -/
theorem estimate_pos_iff {rows : List Numbered} {mb : ℕ} (hmb : 0 < mb) :
    (∃ n, estimateNumPartitions rows mb = .ok n ∧ 1 ≤ n) ↔
      ∃ r ∈ rows, ∃ s, prioA r = some s ∧ s ≠ "" := by
  rw [← totalLength_pos]
  constructor
  · intro h
    obtain ⟨n, hn, hpos⟩ := h
    have h0 := estimate_le_iff hmb hn 0
    omega
  · intro h
    have hne : rows.filterMap prioA ≠ [] := by
      intro hnil
      unfold totalLength at h
      rw [hnil] at h
      cases h
    have hn : estimateNumPartitions rows mb = .ok _ := estimate_eq_ok.2 ⟨hne, rfl⟩
    refine ⟨_, hn, ?_⟩
    have h0 := estimate_le_iff hmb hn 0
    omega

/-! ## load -/

/-- The value of a partition column in a directory name; the escape of special
characters, which is injective, is left out. -/
def partitionValue : Option String → String
  | none => "__HIVE_DEFAULT_PARTITION__"
  | some s => if s = "" then "__HIVE_DEFAULT_PARTITION__" else s

/-- A row in its directory
`submission_date=<…>/server_id=<…>/batch_id=<…>`. -/
structure Stored where
  submissionDate : String
  serverId : String
  batchId : String
  id : ℕ
  payload : Option String
  deriving DecidableEq, Repr

/-- The directory of a row below its date. -/
def Stored.key (x : Stored) : String × String := (x.serverId, x.batchId)

def Stored.dir (x : Stored) : String × String × String := (x.submissionDate, x.key)

def Share.stored (date : String) (r : Share) : Stored :=
  ⟨partitionValue (some date), partitionValue (some r.serverId), partitionValue r.batchId, r.id,
    r.payload⟩

/-- Replace the directories that occur in the written rows.
mirrors prio_processor/origin/staging.py:149-152 -/
def load (data : List Share) (date : String) (output : List Stored) : List Stored :=
  (output.filter fun x => x.dir ∉ (data.map (Share.stored date)).map Stored.dir) ++
    data.map (Share.stored date)

/-- One `run` command: the date, the extracted pings, and what Spark chose. -/
structure StagingRun where
  date : String
  pings : List Ping
  choices : Choices

namespace StagingRun

/-- The date's directory. -/
def day (r : StagingRun) : String := partitionValue (some r.date)

/-- What the command does to the output directory; an exception in `transform`
ends it before `load`.
mirrors prio_processor/origin/staging.py:182-193 -/
def run (r : StagingRun) (output : List Stored) : List Stored :=
  match transform r.choices r.pings with
  | .ok processed => load processed r.date output
  | .error _ => output

/-- `transform` does not raise. -/
def succeeds (r : StagingRun) : Bool := (transform r.choices r.pings).toBool

/-- The rows `transform` produced, as they are stored. -/
def rows (r : StagingRun) : List Stored :=
  match transform r.choices r.pings with
  | .ok processed => processed.map (Share.stored r.date)
  | .error _ => []

/-- The server and batch directories of a run: those of the blocks of the pings
it keeps. -/
def partitions (r : StagingRun) : List (String × String) :=
  (blocks (dropDuplicates [] (r.choices.distinct.rows r.pings))).flatMap fun b =>
    (b.prio.elim [] PrioMap.entries).map fun e =>
      (partitionValue (some e.1), partitionValue b.encoding)

end StagingRun

/-- A sequence of runs into one empty output directory. -/
def runAll (h : List StagingRun) : List Stored := h.foldl (fun output r => r.run output) []

/-- The rows stored under a date. -/
def rowsOf (day : String) (output : List Stored) : List Stored :=
  output.filter fun x => x.submissionDate = day

/-! ## The rows of a run -/

theorem number_blocks (seen : List (Option String)) (bs : List Block) :
    (number seen bs).map (fun r => (⟨r.batchId, r.prio⟩ : Block)) = bs := by
  induction bs generalizing seen with
  | nil => rfl
  | cons b bs ih =>
    unfold number
    rw [List.map_cons, ih]

/-- Every block of a kept ping, and nothing else, gives the rows its map has. -/
theorem mem_transform {C : Choices} {data : List Ping} {out : List Share}
    (h : transform C data = .ok out) {batch : Option String} {server : String} :
    (∃ r ∈ out, r.batchId = batch ∧ r.serverId = server) ↔
      ∃ b ∈ blocks (dropDuplicates [] (C.distinct.rows data)), b.encoding = batch ∧
        ∃ e ∈ b.prio.elim [] PrioMap.entries, e.1 = server := by
  rw [transform_ok h, partitions_flatten]
  have hnum := number_blocks [] (C.order.rows (blocks (kept C data)))
  constructor
  · intro h
    obtain ⟨r, hr, rfl, rfl⟩ := h
    obtain ⟨x, hx, hr⟩ := List.mem_flatMap.1 hr
    unfold explodePrio at hr
    obtain ⟨e, he, rfl⟩ := List.mem_map.1 hr
    have hb : (⟨x.batchId, x.prio⟩ : Block) ∈ C.order.rows (blocks (kept C data)) := by
      rw [← hnum]
      exact List.mem_map.2 ⟨x, (C.ranges.rows_perm _).mem_iff.1 hx, rfl⟩
    exact ⟨_, (C.order.rows_perm _).mem_iff.1 hb, rfl, e, he, rfl⟩
  · intro h
    obtain ⟨b, hb, rfl, e, he, rfl⟩ := h
    change b ∈ blocks (kept C data) at hb
    rw [← (C.order.rows_perm _).mem_iff, ← hnum] at hb
    obtain ⟨x, hx, rfl⟩ := List.mem_map.1 hb
    refine ⟨⟨x.batchId, e.1, x.id, e.2⟩, ?_, rfl, rfl⟩
    exact List.mem_flatMap.2 ⟨x, (C.ranges.rows_perm _).mem_iff.2 hx,
      List.mem_map.2 ⟨e, he, rfl⟩⟩

namespace StagingRun

variable {r : StagingRun}

theorem rows_day {x : Stored} (h : x ∈ r.rows) : x.submissionDate = r.day := by
  unfold rows at h
  split at h
  · obtain ⟨y, -, rfl⟩ := List.mem_map.1 h
    rfl
  · cases h

/-- The rows of a run that succeeds are in its directories, each of which has
one. -/
theorem mem_partitions (h : r.succeeds = true) {k : String × String} :
    k ∈ r.partitions ↔ ∃ x ∈ r.rows, x.key = k := by
  unfold succeeds at h
  unfold rows partitions
  cases ht : transform r.choices r.pings with
  | error e => rw [ht] at h; cases h
  | ok out =>
    dsimp only
    simp only [List.mem_flatMap, List.mem_map]
    constructor
    · intro hk
      obtain ⟨b, hb, e, he, rfl⟩ := hk
      obtain ⟨y, hy, hbatch, hserver⟩ := (mem_transform ht).2 ⟨b, hb, rfl, e, he, rfl⟩
      refine ⟨_, ⟨y, hy, rfl⟩, ?_⟩
      unfold Stored.key Share.stored
      rw [hbatch, hserver]
    · intro hk
      obtain ⟨x, ⟨y, hy, rfl⟩, rfl⟩ := hk
      obtain ⟨b, hb, hbatch, e, he, hserver⟩ := (mem_transform ht).1 ⟨y, hy, rfl, rfl⟩
      refine ⟨b, hb, e, he, ?_⟩
      unfold Stored.key Share.stored
      rw [hbatch, hserver]

theorem run_eq (h : r.succeeds = true) (output : List Stored) :
    r.run output = (output.filter fun x => x.dir ∉ r.rows.map Stored.dir) ++ r.rows := by
  unfold succeeds at h
  unfold run rows load
  cases ht : transform r.choices r.pings with
  | error e => rw [ht] at h; cases h
  | ok out => rfl

theorem run_failed (h : r.succeeds = false) (output : List Stored) : r.run output = output := by
  unfold succeeds at h
  unfold run
  cases ht : transform r.choices r.pings with
  | error e => rfl
  | ok out => rw [ht] at h; cases h

theorem rows_failed (h : r.succeeds = false) : r.rows = [] := by
  unfold succeeds at h
  unfold rows
  cases ht : transform r.choices r.pings with
  | error e => rfl
  | ok out => rw [ht] at h; cases h

/-- A run leaves in its date the directories it does not write, and its own
rows. -/
theorem rowsOf_run (h : r.succeeds = true) (output : List Stored) : rowsOf r.day (r.run output) =
    ((rowsOf r.day output).filter fun x => x.key ∉ r.rows.map Stored.key) ++ r.rows := by
  rw [run_eq h]
  unfold rowsOf
  rw [List.filter_append, List.filter_filter, List.filter_filter]
  congr 1
  · refine List.filter_congr fun x _ => ?_
    by_cases hday : x.submissionDate = r.day
    · have hiff : x.dir ∈ r.rows.map Stored.dir ↔ x.key ∈ r.rows.map Stored.key := by
        simp only [List.mem_map]
        constructor
        · intro hx
          obtain ⟨y, hy, heq⟩ := hx
          exact ⟨y, hy, congrArg Prod.snd heq⟩
        · intro hx
          obtain ⟨y, hy, heq⟩ := hx
          exact ⟨y, hy, Prod.ext ((rows_day hy).trans hday.symm) heq⟩
      simp only [hday, decide_true, Bool.true_and, Bool.and_true, hiff]
    · simp [hday]
  · exact List.filter_eq_self.2 fun x hx => decide_eq_true (rows_day hx)

/-- A run does not change another date. -/
theorem rowsOf_run_ne {day : String} (hday : r.day ≠ day) (output : List Stored) :
    rowsOf day (r.run output) = rowsOf day output := by
  cases hs : r.succeeds with
  | false => rw [run_failed hs]
  | true =>
    rw [run_eq hs]
    unfold rowsOf
    have hnew : (r.rows.filter fun x => x.submissionDate = day) = [] :=
      List.filter_eq_nil_iff.2 fun x hx => by
        rw [rows_day hx]
        simpa using hday
    rw [List.filter_append, hnew, List.append_nil, List.filter_filter]
    refine List.filter_congr fun x _ => ?_
    by_cases hx : x.submissionDate = day
    · have hout : x.dir ∉ r.rows.map Stored.dir := by
        intro hmem
        obtain ⟨y, hy, heq⟩ := List.mem_map.1 hmem
        have hdate : y.submissionDate = x.submissionDate := congrArg Prod.fst heq
        exact hday ((rows_day hy).symm.trans (hdate.trans hx))
      simp [hx, hout]
    · simp [hx]

end StagingRun

end PrioProcessor.L5
