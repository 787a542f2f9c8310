import PrioProcessor.L2Commands.Cli
import PrioProcessor.L2Commands.Spark

/-!
# A repeated id multiplies a share in the Spark stages

Spark's verify2 and aggregate match shares and packets by an inner join on the
id (prio_processor/spark/commands.py:314-316,375-382). When an id occurs `m`
times in the internal and `n` times in the external table, its share is joined
`m * n` times: verify2 writes that many rows, aggregate adds the share that
many times, and its `total` counts every copy. The command-line commands look
packets up in dictionaries by id (prio_processor/prio/commands.py:209-210,
288-289), so a repeated line replaces the earlier one and a share is counted
once (`cli_counts_once`).

Counterexample: one share, an internal verify2 table with its row twice:
aggregate adds the share twice and reports a total of 2 (`counted_twice`).

Exact condition (`counted_once_iff`): no share has two pairs of rows that
libprio accepts, in verify2 or in aggregate, and the products of the
multiplicities add up to at most the number of shares.
-/
namespace PrioProcessor.Bugs.JoinMultiplicity

open L1 L2 L2.Spark Table

variable {L : Libprio} {V : L1.View L} {io : SparkIo}

/-- The pairs of an internal and an external row with the id of the share `r`. -/
def pairs (io : SparkIo) (internal external : List Row) (r : Row) : List Udf.Joined :=
  (internal.filter fun x => x.id = r.id).flatMap fun x =>
    (external.filter fun y => y.id = r.id).map fun y =>
      ⟨r.id, io.column r, io.column x, io.column y⟩

theorem pairs_id {vi ve : List Row} {r : Row} {p : Udf.Joined} (h : p ∈ pairs io vi ve r) :
    p.id = r.id := by
  obtain ⟨x, -, h⟩ := List.mem_flatMap.1 h
  obtain ⟨y, -, rfl⟩ := List.mem_map.1 h
  rfl

theorem length_pairs (vi ve : List Row) (r : Row) : (pairs io vi ve r).length =
    vi.countP (fun x => x.id = r.id) * ve.countP fun y => y.id = r.id := by
  unfold pairs
  rw [List.length_flatMap]
  simp only [List.length_map, List.map_const', List.sum_replicate, smul_eq_mul]
  rw [← List.countP_eq_length_filter, ← List.countP_eq_length_filter]

/-- The join, one share at a time. -/
theorem joinTables_eq (raw vi ve : List Row) :
    joinTables io raw vi ve = raw.flatMap (pairs io vi ve) := by
  unfold joinTables
  induction raw with
  | nil => rfl
  | cons r raw ih =>
    have happ : join (fun p : Row × Row => p.1.id) Row.id (join Row.id Row.id (r :: raw) vi) ve =
        join (fun p : Row × Row => p.1.id) Row.id
          ((vi.filter fun x => x.id = r.id).map fun x => (r, x)) ve ++
        join (fun p : Row × Row => p.1.id) Row.id (join Row.id Row.id raw vi) ve := by
      rw [join_cons]
      exact List.flatMap_append
    rw [happ, List.map_append, ih, List.flatMap_cons]
    congr 1
    unfold join pairs
    rw [List.flatMap_map, List.map_flatMap]
    simp only [List.map_map]
    rfl

/-- Among the joined rows, those of one share are its pairs. -/
theorem countP_joinTables {raw : List Row} (hu : (raw.map Row.id).Nodup) {r : Row} (hr : r ∈ raw)
    (vi ve : List Row) (P : Udf.Joined → Bool) :
    (joinTables io raw vi ve).countP (fun p => p.id = r.id && P p) =
      (pairs io vi ve r).countP P := by
  have hother : ∀ s : Row, s.id ≠ r.id →
      (pairs io vi ve s).countP (fun p => p.id = r.id && P p) = 0 := by
    intro s hs
    refine List.countP_eq_zero.2 fun p hp => ?_
    simp [pairs_id hp, hs]
  have hown : (pairs io vi ve r).countP (fun p => p.id = r.id && P p) =
      (pairs io vi ve r).countP P :=
    List.countP_congr fun p hp => by simp [pairs_id hp]
  rw [joinTables_eq, List.countP_flatMap]
  induction raw with
  | nil => cases hr
  | cons s raw ih =>
    obtain ⟨hs, hu⟩ := List.nodup_cons.1 hu
    rw [List.map_cons, List.sum_cons, Function.comp_apply]
    rcases List.mem_cons.1 hr with rfl | hr
    · have hrest :
          (raw.map (List.countP (fun p => p.id = r.id && P p) ∘ pairs io vi ve)).sum = 0 := by
        refine List.sum_eq_zero fun k hk => ?_
        obtain ⟨s, hm, rfl⟩ := List.mem_map.1 hk
        exact hother s fun h => hs (List.mem_map.2 ⟨s, hm, h⟩)
      rw [hown, hrest, Nat.add_zero]
    · have hne : s.id ≠ r.id := fun h => hs (List.mem_map.2 ⟨r, hr, h.symm⟩)
      rw [hother s hne, Nat.zero_add]
      exact ih hu hr

theorem length_joinTables (io : SparkIo) (raw vi ve : List Row) : (joinTables io raw vi ve).length =
    (raw.map fun r => vi.countP (fun x => x.id = r.id) * ve.countP fun y => y.id = r.id).sum := by
  rw [joinTables_eq, List.length_flatMap]
  simp only [length_pairs]

/-! ## The two stages -/

section Stages

variable {a : Args} (o : Opened L a)

/-- verify2 writes one row for each accepted pair of a share. -/
theorem count_verify2 (hS : V.SetDataLaw) (hP : V.PacketLaw) (hL : V.LiveLaw) {S : Shuffle Row}
    {raw vi ve out : List Row} (hu : (raw.map Row.id).Nodup)
    (h : verify2 L io S a raw vi ve = .ok out) {r : Row} (hr : r ∈ raw) :
    out.countP (fun y => y.id = r.id) = (pairs io vi ve r).countP (Udf.opens V o.ident) := by
  obtain ⟨hraw, hvi, hve⟩ := verify2_ok h
  rw [verify2_eq o hS hP S hraw hvi hve] at h
  have h := Except.ok.inj h
  rw [← h, (S.rows_perm _).countP_eq, ← countP_joinTables hu hr vi ve]
  rw [countP_writeValid]
  simp only [Udf.verify2Value_isSome o hS hP hL]

/-- aggregate adds a share once for each accepted pair. -/
theorem count_aggregate (hS : V.SetDataLaw) (hA : V.AggregateLaw) (hM : V.MergeLaw)
    (hT : V.TotalLaw) {S : Shuffle Udf.Joined} {T : Shuffle Udf.Partial} {raw vi ve : List Row}
    (hu : (raw.map Row.id).Nodup) {g : Aggregated} (h : aggregate L io S T a raw vi ve = .ok g)
    (hne : joinTables io raw vi ve ≠ []) {r : Row} (hr : r ∈ raw) :
    g.added.count r.id = (pairs io vi ve r).countP (Udf.accepts V o.ident) := by
  obtain ⟨w, added, -, hperm, hagg⟩ := aggregate_eq o hS hA hM hT S T hne
  rw [hagg] at h
  have h := Except.ok.inj h
  rw [← h, hperm.count_eq, List.count, List.countP_map, List.countP_filter,
    ← countP_joinTables hu hr vi ve]
  refine List.countP_congr fun p _ => ?_
  simp

/-- verify2 writes at most one row for each share. -/
theorem verify2_once_iff (hS : V.SetDataLaw) (hP : V.PacketLaw) (hL : V.LiveLaw) (S : Shuffle Row)
    {raw : List Row} (hu : (raw.map Row.id).Nodup) (vi ve : List Row) :
    (∀ out, verify2 L io S a raw vi ve = .ok out → ∀ r ∈ raw,
      out.countP (fun y => y.id = r.id) ≤ 1) ↔
    ∀ r ∈ raw, (pairs io vi ve r).countP (Udf.opens V o.ident) ≤ 1 := by
  constructor
  · intro h r hr
    by_cases hne : pairs io vi ve r = []
    · rw [hne]; exact Nat.zero_le 1
    · have hjoin : joinTables io raw vi ve ≠ [] := by
        obtain ⟨p, hp⟩ := List.exists_mem_of_ne_nil _ hne
        rw [joinTables_eq]
        exact List.ne_nil_of_mem (List.mem_flatMap.2 ⟨r, hr, hp⟩)
      obtain ⟨hraw, hvi, hve⟩ := joinTables_ne_nil hjoin
      have hok : verify2 L io S a raw vi ve = _ := verify2_eq o hS hP S hraw hvi hve
      rw [← count_verify2 o hS hP hL hu hok hr]
      exact h _ hok r hr
  · intro h out hok r hr
    rw [count_verify2 o hS hP hL hu hok hr]
    exact h r hr

/-- aggregate adds each share at most once, and its total is at most the number
of shares. -/
theorem aggregate_once_iff (hS : V.SetDataLaw) (hA : V.AggregateLaw) (hM : V.MergeLaw)
    (hT : V.TotalLaw) (S : Shuffle Udf.Joined) (T : Shuffle Udf.Partial) {raw : List Row}
    (hu : (raw.map Row.id).Nodup) (vi ve : List Row) :
    (∀ g, aggregate L io S T a raw vi ve = .ok g →
      (∀ r ∈ raw, g.added.count r.id ≤ 1) ∧ ∀ row ∈ g.rows, row.total ≤ raw.length) ↔
    (∀ r ∈ raw, (pairs io vi ve r).countP (Udf.accepts V o.ident) ≤ 1) ∧
    (raw.map fun r => vi.countP (fun x => x.id = r.id) *
      ve.countP fun y => y.id = r.id).sum ≤ raw.length := by
  by_cases hne : joinTables io raw vi ve = []
  · have hpairs : ∀ r ∈ raw, pairs io vi ve r = [] := by
      rw [joinTables_eq] at hne
      exact List.flatMap_eq_nil_iff.1 hne
    constructor
    · intro _
      refine ⟨fun r hr => ?_, ?_⟩
      · rw [hpairs r hr]; exact Nat.zero_le 1
      · rw [← length_joinTables io, hne]; exact Nat.zero_le _
    · intro _ g hg
      rw [aggregate_nil hne hg]
      exact ⟨fun r _ => Nat.zero_le 1, fun row hrow => nomatch hrow⟩
  · obtain ⟨w, added, -, -, hok⟩ := aggregate_eq o hS hA hM hT S T hne
    constructor
    · intro h
      obtain ⟨hcount, htotal⟩ := h _ hok
      refine ⟨fun r hr => ?_, ?_⟩
      · rw [← count_aggregate o hS hA hM hT hu hok hne hr]
        exact hcount r hr
      · rw [← length_joinTables io]
        exact htotal _ List.mem_cons_self
    · intro ⟨hcount, htotal⟩ g hg
      refine ⟨fun r hr => ?_, fun row hrow => ?_⟩
      · rw [count_aggregate o hS hA hM hT hu hg hne hr]
        exact hcount r hr
      · rw [hok] at hg
        rw [← Except.ok.inj hg] at hrow
        rw [List.mem_singleton.1 hrow, length_joinTables]
        exact htotal

/-- **Exact condition**: the Spark stages count every share at most once when
no share has two accepted pairs of rows, in verify2 (from `vi` and `ve`) or in
aggregate (from `wi` and `we`), and the multiplicities of the ids in `wi` and
`we`, multiplied, add up to at most the number of shares. -/
theorem counted_once_iff (hS : V.SetDataLaw) (hP : V.PacketLaw) (hL : V.LiveLaw)
    (hA : V.AggregateLaw) (hM : V.MergeLaw) (hT : V.TotalLaw) (plan : Plan) {raw : List Row}
    (hu : (raw.map Row.id).Nodup) (vi ve wi we : List Row) :
    ((∀ out, verify2 L io plan.verify2 a raw vi ve = .ok out → ∀ r ∈ raw,
        out.countP (fun y => y.id = r.id) ≤ 1) ∧
      ∀ g, aggregate L io plan.joined plan.partials a raw wi we = .ok g →
        (∀ r ∈ raw, g.added.count r.id ≤ 1) ∧ ∀ row ∈ g.rows, row.total ≤ raw.length) ↔
    (∀ r ∈ raw, (pairs io vi ve r).countP (Udf.opens V o.ident) ≤ 1) ∧
    (∀ r ∈ raw, (pairs io wi we r).countP (Udf.accepts V o.ident) ≤ 1) ∧
    (raw.map fun r => wi.countP (fun x => x.id = r.id) *
      we.countP fun y => y.id = r.id).sum ≤ raw.length :=
  and_congr (verify2_once_iff o hS hP hL plan.verify2 hu vi ve)
    (aggregate_once_iff o hS hA hM hT plan.joined plan.partials hu wi we)

end Stages

/-- The sibling path: whatever ids its packet files repeat, the command-line
aggregate adds a share at most once and counts each raw row once. -/
theorem cli_counts_once {a : Args} (o : Opened L a) (hS : V.SetDataLaw) (hA : V.AggregateLaw)
    (hT : V.TotalLaw) {raw vi ve : List Cli.Datum} (hu : (raw.map Cli.Datum.id).Nodup)
    (hraw : ∀ d ∈ raw, d.Decodes) (hint : ∀ d ∈ vi, d.Decodes) (hext : ∀ d ∈ ve, d.Decodes) :
    ∃ g, Cli.aggregate L a raw vi ve = .ok g ∧ g.added.Nodup ∧ g.share.total = raw.length := by
  obtain ⟨w, -, hagg⟩ := Cli.aggregate_eq o hS hA hT hraw hint hext
  exact ⟨_, hagg, hu.sublist (List.filter_sublist.map _), rfl⟩

/-! ## The counterexample -/

section Sample

/-- One share, its internal verify1 and verify2 rows mirrored twice. -/
def share : Row := ⟨"u", some (b64encode [3, 4])⟩

def internal1 : List Row := [⟨"u", some (b64encode [7, 3, 4])⟩, ⟨"u", some (b64encode [7, 3, 4])⟩]

def external1 : List Row := [⟨"u", some (b64encode [7, 254, 252])⟩]

def internal2 : List Row :=
  [⟨"u", some (b64encode [1, 7, 3, 4])⟩, ⟨"u", some (b64encode [1, 7, 3, 4])⟩]

def external2 : List Row := [⟨"u", some (b64encode [1, 7, 254, 252])⟩]

def plan : Plan := ⟨.whole, .whole, .whole, .whole⟩

/-- **Counterexample**: verify2 writes two rows for the share, and aggregate
adds it twice and reports a total of 2. -/
theorem counted_twice :
    (¬ ∀ out, verify2 plain Sample.io plan.verify2 Sample.argsA [share] internal1 external1 =
        .ok out → ∀ r ∈ [share], out.countP (fun y => y.id = r.id) ≤ 1) ∧
      ∃ g, aggregate plain Sample.io plan.joined plan.partials Sample.argsA [share] internal2
          external2 = .ok g ∧
        (¬ ∀ r ∈ [share], g.added.count r.id ≤ 1) ∧
        ¬ ∀ row ∈ g.rows, row.total ≤ [share].length := by
  constructor
  · intro h
    have hout : verify2 plain Sample.io plan.verify2 Sample.argsA [share] internal1 external1 =
        .ok [⟨"u", some "AQcDBA=="⟩, ⟨"u", some "AQcDBA=="⟩] := by decide +kernel
    exact absurd (h _ hout share List.mem_cons_self) (by decide)
  · have hagg : aggregate plain Sample.io plan.joined plan.partials Sample.argsA [share] internal2
        external2 = .ok ⟨["u", "u"], [⟨"AAYI", 0, 2⟩]⟩ := by decide +kernel
    exact ⟨_, hagg, by decide, by decide⟩

/-- Two shares. The internal rows of "u" are repeated, in verify1 and in verify2
with one packet that is not readable; "v" has no external row. -/
theorem counted_once_sample :
    let raw : List Row := [share, ⟨"v", some (b64encode [5, 5])⟩]
    let vi : List Row := [⟨"u", some (b64encode [])⟩, ⟨"v", some (b64encode [7, 5, 5])⟩,
      ⟨"u", some (b64encode [7, 3, 4])⟩]
    let wi : List Row := [⟨"u", some (b64encode [1, 7, 3, 4])⟩, ⟨"u", some (b64encode [])⟩]
    (∀ out, verify2 plain Sample.io plan.verify2 Sample.argsA raw vi external1 =
        .ok out → ∀ r ∈ raw, out.countP (fun y => y.id = r.id) ≤ 1) ∧
      ∀ g, aggregate plain Sample.io plan.joined plan.partials Sample.argsA raw wi external2 =
          .ok g →
        (∀ r ∈ raw, g.added.count r.id ≤ 1) ∧ ∀ row ∈ g.rows, row.total ≤ raw.length := by
  intro raw vi wi
  exact (counted_once_iff Sample.openedA Plain.plain_setData Plain.plain_packet Plain.plain_live
    Plain.plain_aggregate Plain.plain_merge Plain.plain_total plan (by decide) vi external1 wi
    external2).2 ⟨by decide +kernel, by decide +kernel, by decide +kernel⟩

end Sample

end PrioProcessor.Bugs.JoinMultiplicity
