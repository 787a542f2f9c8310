import PrioProcessor.L2Commands.Cli
import PrioProcessor.L2Commands.Spark

/-!
# The two implementations of aggregate

`prio aggregate` keeps one server object for a file and looks packets up by id
in dictionaries; the Spark command joins three tables, sums each partition in
a server of its own, and merges the serialized servers. On the same tables
both accept the ids that `Cli.mem_added_iff` and `Spark.mem_added_iff`
describe alike, so they write the same total share (`aggregate_equiv`).
-/
namespace PrioProcessor.L3.AggregateEquiv

open L1 L2

variable {L : Libprio} {V : L1.View L} {io : Spark.SparkIo}

/-- Spark's `unbase64` and `base64` on valid base64 are Python's. -/
structure SameBase64 (io : Spark.SparkIo) : Prop where
  unbase64 : ∀ s, ValidBase64 s → b64decode s = some (io.unbase64 s)
  base64 : ∀ b, io.base64 b = b64encode b

/-- A line of a file, read by Spark. -/
def toRow (d : Cli.Datum) : Spark.Row := ⟨d.id, some d.payload⟩

theorem map_toRow_id (ds : List Cli.Datum) :
    (ds.map toRow).map Spark.Row.id = ds.map Cli.Datum.id := by
  rw [List.map_map]; rfl

/-- The files and the tables hold the same payloads. -/
theorem carries_iff_holds (h64 : SameBase64 io) {ds : List Cli.Datum}
    (hds : ∀ d ∈ ds, ValidBase64 d.payload) {id : String} {p : Bytes} :
    Spark.Carries io (ds.map toRow) id p ↔ Cli.Holds ds id p := by
  have hbytes : ∀ d ∈ ds, d.bytes = io.unbase64 d.payload := fun d hd => by
    unfold Cli.Datum.bytes
    rw [h64.unbase64 _ (hds d hd)]; rfl
  constructor
  · rintro ⟨r, hr, rfl, hp⟩
    obtain ⟨d, hd, rfl⟩ := List.mem_map.1 hr
    exact ⟨d, hd, rfl, (hds d hd).b64decode_isSome, (hbytes d hd).trans (Option.some.inj hp)⟩
  · rintro ⟨d, hd, rfl, -, rfl⟩
    exact ⟨toRow d, List.mem_map_of_mem hd, rfl, congrArg some (hbytes d hd).symm⟩

/-- The command-line tool and the Spark command accept the same ids, each once,
and write the same total share, for every order and every partitioning. -/
theorem aggregate_equiv (hS : V.SetDataLaw) (hA : V.AggregateLaw) (hM : V.MergeLaw)
    (hT : V.TotalLaw) (h64 : SameBase64 io) {a : Args} (o : Opened L a)
    (S : Table.Shuffle Udf.Joined) (T : Table.Shuffle Udf.Partial) {raw vi ve : List Cli.Datum}
    (hu : (raw.map Cli.Datum.id).Nodup) (hi : (vi.map Cli.Datum.id).Nodup)
    (he : (ve.map Cli.Datum.id).Nodup) (hraw : ∀ d ∈ raw, ValidBase64 d.payload)
    (hvi : ∀ d ∈ vi, ValidBase64 d.payload) (hve : ∀ d ∈ ve, ValidBase64 d.payload)
    (hcommon : ∃ id ∈ raw.map Cli.Datum.id, id ∈ vi.map Cli.Datum.id ∧ id ∈ ve.map Cli.Datum.id) :
    ∃ g added row, Cli.aggregate L a raw vi ve = .ok g ∧
      Spark.aggregate L io S T a (raw.map toRow) (vi.map toRow) (ve.map toRow) =
        .ok ⟨added, [row]⟩ ∧
      added.Perm g.added ∧ g.added.Nodup ∧ row.payload = g.share.payload := by
  have hne : Spark.joinTables io (raw.map toRow) (vi.map toRow) (ve.map toRow) ≠ [] := by
    obtain ⟨id, hr, hx, hy⟩ := hcommon
    obtain ⟨d, hd, rfl⟩ := List.mem_map.1 hr
    obtain ⟨x, hx, hxd⟩ := List.mem_map.1 hx
    obtain ⟨y, hy, hyd⟩ := List.mem_map.1 hy
    exact List.ne_nil_of_mem (Spark.mem_joinTables.2 ⟨toRow d, List.mem_map_of_mem hd, toRow x,
      List.mem_map_of_mem hx, toRow y, List.mem_map_of_mem hy, hxd, hyd, rfl⟩)
  obtain ⟨w, hw, hcli⟩ := Cli.aggregate_eq o hS hA hT
    (fun d hd => (hraw d hd).b64decode_isSome) (fun d hd => (hvi d hd).b64decode_isSome)
    (fun d hd => (hve d hd).b64decode_isSome)
  obtain ⟨w', added, hw', hadded, hspark⟩ := Spark.aggregate_eq o hS hA hM hT S T hne
  -- the same ids, once each
  have hnd := hu.sublist
    (List.filter_sublist (p := Cli.accepts V o.ident vi ve).map Cli.Datum.id)
  have hjoined : ((Spark.joinTables io (raw.map toRow) (vi.map toRow) (ve.map toRow)).map
      Udf.Joined.id).Nodup := by
    rw [← map_toRow_id] at hu hi he
    exact hu.sublist (Spark.joinTables_ids io hi he)
  have hnd' := hjoined.sublist (List.filter_sublist (p := Udf.accepts V o.ident).map Udf.Joined.id)
  have hperm := (List.perm_ext_iff_of_nodup hnd' hnd).2 fun id => by
    rw [Spark.mem_added_iff, Cli.mem_added_iff hi he]
    simp only [carries_iff_holds h64 hraw, carries_iff_holds h64 hvi, carries_iff_holds h64 hve]
  -- the same sum
  have hsum : Udf.shareSum V o.ident
      (Spark.joinTables io (raw.map toRow) (vi.map toRow) (ve.map toRow)) =
      Cli.shareSum V o.ident vi ve raw := by
    rw [Cli.shareSum_eq hu, ← (hperm.map _).sum_eq]
    refine Udf.shareSum_eq fun row hrow _ => ?_
    obtain ⟨r, hr, y, -, z, -, -, -, rfl⟩ := Spark.mem_joinTables.1 hrow
    obtain ⟨d, hd, rfl⟩ := List.mem_map.1 hr
    obtain ⟨e, hem, hed, -, hbytes⟩ :=
      (carries_iff_holds h64 hraw).1 ⟨toRow d, hr, rfl, rfl⟩
    have heq : e = d := List.inj_on_of_nodup_map hu hem hd hed
    change some (io.unbase64 d.payload) = some (Cli.shareOf raw d.id)
    rw [Cli.shareOf_eq hu hd, ← hbytes, heq]
  refine ⟨_, added, _, hcli, hspark, hadded.trans hperm, hnd, ?_⟩
  rw [hsum] at hw'
  rw [h64.base64, hw'.1, ← hw.1]

/-- The row `v` has no internal packet, the packets of `w` do not verify. -/
theorem aggregate_equiv_sample :
    let raw : List Cli.Datum :=
      [⟨"u", b64encode [3, 4]⟩, ⟨"v", b64encode [9, 9]⟩, ⟨"w", b64encode [5, 5]⟩]
    let vi : List Cli.Datum := [⟨"w", b64encode [1, 8, 5, 5]⟩, ⟨"u", b64encode [1, 7, 3, 4]⟩]
    let ve : List Cli.Datum := [⟨"u", b64encode [1, 7, 254, 252]⟩, ⟨"w", b64encode [0]⟩,
      ⟨"v", b64encode []⟩]
    ∃ g added row, Cli.aggregate plain Sample.argsA raw vi ve = .ok g ∧
      Spark.aggregate plain Sample.io .halves .whole Sample.argsA (raw.map toRow) (vi.map toRow)
        (ve.map toRow) = .ok ⟨added, [row]⟩ ∧
      added.Perm g.added ∧ g.added.Nodup ∧ row.payload = g.share.payload := by
  intro raw vi ve
  have h64 : SameBase64 Sample.io := by
    refine ⟨fun s hs => ?_, fun b => rfl⟩
    obtain ⟨b, hb⟩ := Option.isSome_iff_exists.1 hs.b64decode_isSome
    change b64decode s = some ((b64decode s).getD [])
    rw [hb]; rfl
  exact aggregate_equiv Plain.plain_setData Plain.plain_aggregate Plain.plain_merge
    Plain.plain_total h64 Sample.openedA _ _ (by decide) (by decide) (by decide) (by decide)
    (by decide) (by decide) (by decide)

end PrioProcessor.L3.AggregateEquiv
