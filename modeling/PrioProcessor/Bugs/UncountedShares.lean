import PrioProcessor.L2Commands.Spark

/-!
# Shares that are dropped before the join are not counted

The Spark aggregate counts `total` and `error` over the rows of the join of the
raw shares with the two verify2 tables (prio_processor/spark/udf.py:183-199). A
share without a row in one of these tables was dropped before: its payload does
not decode, its external verify1 packet is missing or not readable
(the null filters and the joins of prio_processor/spark/commands.py:282-335),
or the peer wrote no verify2 row for it. The published record then misses it in
both counters, where the command-line aggregate counts every line of the raw
file (`L2.Cli.aggregate_eq`).

Counterexample: two shares, one of which does not decode; the record has total
1 and error 0 (`dropped_share`).

Exact condition on the tables (`accounted_iff`): every raw share decodes, has a
readable external verify1 packet and an external verify2 row.
-/
namespace PrioProcessor.Bugs.UncountedShares

open L1 L2 L2.Spark

variable {L : Libprio} {V : L1.View L} {io : SparkIo} {a : Args}

/-- The outputs of one server. -/
structure Outputs where
  verify1 : List Row
  verify2 : List Row
  aggregate : Aggregated
  publish : Published
  deriving DecidableEq, Repr

/-- The four commands at one server, on the verify1, verify2 and aggregate
tables of its peer. -/
def serverStages (L : Libprio) (io : SparkIo) (P : Plan) (a : Args)
    (raw peer1 peer2 : List Row) (peerAggregate : List TotalRow) : Except PyExc Outputs := do
  let v1 ← verify1 L io P.verify1 a raw
  let v2 ← verify2 L io P.verify2 a raw v1 peer1
  let g ← aggregate L io P.joined P.partials a raw v2 peer2
  let p ← publish L io a g.rows peerAggregate
  pure ⟨v1, v2, g, p⟩

theorem serverStages_ok {P : Plan} {raw peer1 peer2 : List Row} {peerAggregate : List TotalRow}
    {s : Outputs} (h : serverStages L io P a raw peer1 peer2 peerAggregate = .ok s) :
    verify1 L io P.verify1 a raw = .ok s.verify1 ∧
    verify2 L io P.verify2 a raw s.verify1 peer1 = .ok s.verify2 ∧
    aggregate L io P.joined P.partials a raw s.verify2 peer2 = .ok s.aggregate ∧
    publish L io a s.aggregate.rows peerAggregate = .ok s.publish := by
  obtain ⟨v1, h₁, h⟩ := bind_ok h
  obtain ⟨v2, h₂, h⟩ := bind_ok h
  obtain ⟨g, h₃, h⟩ := bind_ok h
  obtain ⟨p, h₄, h⟩ := bind_ok h
  cases h
  exact ⟨h₁, h₂, h₃, h₄⟩

/-- The record counts every raw share, and as errors those that are not in the
sum. -/
def Accounted (raw : List Row) (s : Outputs) : Prop :=
  s.publish.total = some raw.length ∧
    s.publish.error = some (raw.countP fun r => r.id ∉ s.aggregate.added)

/-- The share decodes, has a readable external verify1 packet, and an external
verify2 row. -/
def Survives (V : L1.View L) (io : SparkIo) (i : Ident L) (peer1 peer2 : List Row) (r : Row) :
    Prop :=
  (∃ b, io.column r = some b ∧ V.decodes i b = true) ∧
    (∃ y ∈ peer1, y.id = r.id ∧ ∃ q, io.column y = some q ∧ V.reads1 q = true) ∧
    ∃ z ∈ peer2, z.id = r.id

/-- A record has the counters of the one aggregate row. -/
theorem publish_counters {row : TotalRow} {external : List TotalRow} {p : Published}
    (h : publish L io a [row] external = .ok p) : p.error = some row.error ∧
      p.total = some row.total := by
  obtain ⟨internal, hi, h⟩ := bind_ok h
  obtain ⟨ext, -, h⟩ := bind_ok h
  obtain ⟨secret, -, h⟩ := bind_ok h
  obtain ⟨payload, -, h⟩ := bind_ok h
  rw [(selectFrom_eq_ok hi).1] at h
  cases h
  exact ⟨rfl, rfl⟩

section Tables

variable {o : Opened L a} {S T : Table.Shuffle Row} {raw peer1 v1 v2 : List Row}

/-- The ids verify2 writes a packet for. -/
theorem mem_verify2_ids (hio : io.Law) (hS : V.SetDataLaw) (hP : V.PacketLaw) (hR : V.StreamLaw)
    (hL : V.LiveLaw) (hu : (raw.map Row.id).Nodup) (h1 : verify1 L io S a raw = .ok v1)
    (h2 : verify2 L io T a raw v1 peer1 = .ok v2) {r : Row} (hr : r ∈ raw) :
    r.id ∈ v2.map Row.id ↔ (∃ b, io.column r = some b ∧ V.decodes o.ident b = true) ∧
      ∃ y ∈ peer1, y.id = r.id ∧ ∃ q, io.column y = some q ∧ V.reads1 q = true := by
  have s1 := verify1_spec o hio hS hP hR hu h1
  obtain ⟨hraw, hv1, hpeer⟩ := verify2_ok h2
  rw [verify2_eq o hS hP T hraw hv1 hpeer] at h2
  have h2 := Except.ok.inj h2
  subst h2
  constructor
  · intro h
    obtain ⟨w, hw, hid⟩ := List.mem_map.1 h
    obtain ⟨row, hrow, q, hq, rfl⟩ := mem_writeValid.1 ((T.rows_perm _).mem_iff.1 hw)
    obtain ⟨x, hx, y, hy, z, hz, hyx, hzx, rfl⟩ := mem_joinTables.1 hrow
    have hxr : x = r := List.inj_on_of_nodup_map hu hx hr hid
    subst hxr
    have hopens := Udf.verify2Value_isSome o hS hP hL ⟨x.id, io.column x, io.column y, io.column z⟩
    rw [hq, Option.isSome_some] at hopens
    replace hopens := hopens.symm
    unfold Udf.opens at hopens
    split at hopens
    · rename_i b p₁ p₂ hb hp₁ hp₂
      simp only [Bool.and_eq_true] at hopens
      exact ⟨⟨b, hb, hopens.1.1⟩, z, hz, hzx, p₂, hp₂, hopens.2⟩
    · cases hopens
  · rintro ⟨⟨b, hb, hd⟩, z, hz, hzr, p₂, hp₂, hread⟩
    -- verify1 has a packet of the share, which is readable
    obtain ⟨p₁, y, hy, hyr, hp₁⟩ := s1.live hL r.id b ⟨r, hr, rfl, hb⟩ hd
    obtain ⟨b', -, -, hmade⟩ := s1.made r.id p₁ ⟨y, hy, hyr, hp₁⟩
    have hopens : Udf.opens V o.ident ⟨r.id, io.column r, io.column y, io.column z⟩ = true := by
      unfold Udf.opens
      rw [hb, hp₁, hp₂]
      simp only [hd, hL.made1 _ _ hmade, hread, Bool.and_self]
    obtain ⟨q, hq⟩ := Udf.verify2Value_live o hS hP hL hopens
    refine List.mem_map.2 ⟨⟨r.id, some (io.binaryJson q)⟩, ?_, rfl⟩
    exact (T.rows_perm _).mem_iff.2 (mem_writeValid.2
      ⟨_, mem_joinTables.2 ⟨r, hr, y, hy, z, hz, hyr, hzr, rfl⟩, q, hq, rfl⟩)

end Tables

/-- The join has as many rows as the raw table exactly when every raw id is in
both packet tables. -/
theorem length_joinTables {raw vi ve : List Row} (hu : (raw.map Row.id).Nodup)
    (hi : (vi.map Row.id).Nodup) (he : (ve.map Row.id).Nodup) :
    (joinTables io raw vi ve).length = raw.length ↔
      ∀ r ∈ raw, r.id ∈ vi.map Row.id ∧ r.id ∈ ve.map Row.id := by
  have hsub : ((joinTables io raw vi ve).map Udf.Joined.id).Sublist (raw.map Row.id) :=
    joinTables_ids io hi he
  have hmem : ∀ r ∈ raw, r.id ∈ (joinTables io raw vi ve).map Udf.Joined.id ↔
      r.id ∈ vi.map Row.id ∧ r.id ∈ ve.map Row.id := by
    intro r hr
    constructor
    · intro h
      obtain ⟨row, hrow, hid⟩ := List.mem_map.1 h
      obtain ⟨x, -, y, hy, z, hz, hyx, hzx, rfl⟩ := mem_joinTables.1 hrow
      exact ⟨List.mem_map.2 ⟨y, hy, hyx.trans hid⟩, List.mem_map.2 ⟨z, hz, hzx.trans hid⟩⟩
    · intro h
      obtain ⟨y, hy, hyr⟩ := List.mem_map.1 h.1
      obtain ⟨z, hz, hzr⟩ := List.mem_map.1 h.2
      exact List.mem_map.2 ⟨_, mem_joinTables.2 ⟨r, hr, y, hy, z, hz, hyr, hzr, rfl⟩, rfl⟩
  constructor
  · intro h r hr
    have heq := hsub.eq_of_length (by simpa using h)
    rw [← hmem r hr, heq]
    exact List.mem_map_of_mem hr
  · intro h
    have hperm := (List.perm_ext_iff_of_nodup (hu.sublist hsub) hu).2 fun id => by
      refine ⟨fun hid => hsub.subset hid, fun hid => ?_⟩
      obtain ⟨r, hr, rfl⟩ := List.mem_map.1 hid
      exact (hmem r hr).2 (h r hr)
    simpa using hperm.length_eq

/-- The raw shares that are not in the sum, when the ids added are ids of the
table. -/
theorem countP_not_added {raw : List Row} (hu : (raw.map Row.id).Nodup) {added : List String}
    (hn : added.Nodup) (hsub : ∀ id ∈ added, id ∈ raw.map Row.id) :
    (raw.countP fun r => r.id ∉ added) + added.length = raw.length := by
  have hperm : ((raw.map Row.id).filter fun id => id ∈ added).Perm added := by
    refine (List.perm_ext_iff_of_nodup (hu.filter _) hn).2 fun id => ?_
    simp only [List.mem_filter, decide_eq_true_eq]
    exact ⟨fun h => h.2, fun h => ⟨hsub id h, h⟩⟩
  have hin : (raw.countP fun r => r.id ∈ added) = added.length := by
    rw [← hperm.length_eq, ← List.countP_eq_length_filter, List.countP_map]
    rfl
  have hsplit := List.length_eq_countP_add_countP (fun r => decide (r.id ∈ added)) (l := raw)
  simp only [decide_eq_true_eq] at hsplit
  omega

/-- **Exact condition**: the record accounts for the raw table exactly when
every share of it survives to the join. -/
theorem accounted_iff (hio : io.Law) (hS : V.SetDataLaw) (hP : V.PacketLaw) (hR : V.StreamLaw)
    (hL : V.LiveLaw) (hA : V.AggregateLaw) (hM : V.MergeLaw) (hT : V.TotalLaw) (o : Opened L a)
    (P : Plan) {raw peer1 peer2 : List Row} {peerAggregate : List TotalRow}
    (hu : (raw.map Row.id).Nodup) (hu1 : (peer1.map Row.id).Nodup)
    (hu2 : (peer2.map Row.id).Nodup) {s : Outputs}
    (h : serverStages L io P a raw peer1 peer2 peerAggregate = .ok s)
    (hne : joinTables io raw s.verify2 peer2 ≠ []) :
    Accounted raw s ↔ ∀ r ∈ raw, Survives V io o.ident peer1 peer2 r := by
  obtain ⟨h1, h2, h3, h4⟩ := serverStages_ok h
  have hu1' := (verify1_spec o hio hS hP hR hu h1).ids
  have hu2' := (verify2_spec o hio hS hP hR hu hu1' hu1 h2).ids
  obtain ⟨w, added, -, hadded, hagg⟩ := aggregate_eq o hS hA hM hT P.joined P.partials hne
  rw [hagg] at h3
  have h3 := Except.ok.inj h3
  rw [← h3] at h4
  obtain ⟨herror, htotal⟩ := publish_counters h4
  -- the added shares and the errors are the rows of the join
  have hcount : (joinTables io raw s.verify2 peer2).length = added.length +
      (joinTables io raw s.verify2 peer2).countP fun row => !Udf.accepts V o.ident row := by
    have hlen := hadded.length_eq
    rw [List.length_map, ← List.countP_eq_length_filter] at hlen
    rw [hlen, List.length_eq_countP_add_countP (Udf.accepts V o.ident)]
    simp
  have hids : (((joinTables io raw s.verify2 peer2).filter (Udf.accepts V o.ident)).map
      Udf.Joined.id).Sublist (raw.map Row.id) :=
    (List.filter_sublist.map _).trans (joinTables_ids io hu2' hu2)
  have hnot := countP_not_added hu (hadded.nodup_iff.2 (hu.sublist hids)) fun id hid =>
    hids.subset (hadded.mem_iff.1 hid)
  have hiff : Accounted raw s ↔ (joinTables io raw s.verify2 peer2).length = raw.length := by
    unfold Accounted
    rw [herror, htotal, ← h3]
    simp only [Option.some.injEq]
    omega
  rw [hiff, length_joinTables hu hu2' hu2]
  refine forall₂_congr fun r hr => ?_
  rw [mem_verify2_ids hio hS hP hR hL hu h1 h2 hr, and_assoc, List.mem_map]
  rfl

/-! ## Two shares -/

/-- The verify1, verify2 and aggregate tables of server B for the share "u". -/
def peer1 : List Row := [⟨"u", some (b64encode [7, 254, 252])⟩]

def peer2 : List Row := [⟨"u", some (b64encode [1, 7, 254, 252])⟩]

def peerAggregate : List TotalRow := [⟨b64encode [1, 254, 252], 0, 1⟩]

/-- The share "v" is joined and not added; the record has total 2 and error
1. -/
theorem accounted_iff_sample :
    let P : Plan := ⟨.whole, .halves, .halves, .whole⟩
    let raw : List Row := [⟨"u", some (b64encode [3, 4])⟩, ⟨"v", some (b64encode [5, 5])⟩]
    let peer1 : List Row := ⟨"v", some (b64encode [7, 5, 5])⟩ :: peer1
    let peer2 : List Row := ⟨"v", some (b64encode [1, 7, 5, 5])⟩ :: peer2
    ∃ s, serverStages plain Sample.io P Sample.argsA raw peer1 peer2 peerAggregate = .ok s ∧
      s.aggregate.added = ["u"] ∧ s.publish.total = some 2 ∧ s.publish.error = some 1 ∧
      Accounted raw s := by
  intro P raw peer1 peer2
  have hrun : serverStages plain Sample.io P Sample.argsA raw peer1 peer2 peerAggregate =
      .ok ⟨[⟨"u", some "BwME"⟩, ⟨"v", some "BwUF"⟩],
        [⟨"v", some "AQcFBQ=="⟩, ⟨"u", some "AQcDBA=="⟩], ⟨["u"], [⟨"AAME", 1, 2⟩]⟩,
        ⟨[1, 0], some 1, some 2⟩⟩ := by decide +kernel
  refine ⟨_, hrun, rfl, rfl, rfl, (accounted_iff Sample.io_law Plain.plain_setData
    Plain.plain_packet Plain.plain_stream Plain.plain_live Plain.plain_aggregate Plain.plain_merge
    Plain.plain_total Sample.openedA P (by decide) (by decide) (by decide) hrun
    (by decide)).2 fun r hr => ?_⟩
  simp only [raw, List.mem_cons, List.not_mem_nil, or_false] at hr
  rcases hr with rfl | rfl
  · exact ⟨⟨[3, 4], by decide, rfl⟩, ⟨_, .tail _ (List.mem_singleton_self _), rfl,
      [7, 254, 252], by decide, rfl⟩, _, .tail _ (List.mem_singleton_self _), rfl⟩
  · exact ⟨⟨[5, 5], by decide, rfl⟩, ⟨_, List.mem_cons_self, rfl, [7, 5, 5], by decide, rfl⟩,
      _, List.mem_cons_self, rfl⟩

/-- **Counterexample**: the share "v" does not decode, and the record has total
1 and error 0. -/
theorem dropped_share :
    let P : Plan := ⟨.whole, .whole, .whole, .whole⟩
    let raw : List Row := [⟨"u", some (b64encode [3, 4])⟩, ⟨"v", some (b64encode [9])⟩]
    ∃ s, serverStages plain Sample.io P Sample.argsA raw peer1 peer2 peerAggregate = .ok s ∧
      s.publish.total = some 1 ∧ s.publish.error = some 0 ∧ ¬ Accounted raw s := by
  intro P raw
  refine ⟨⟨[⟨"u", some "BwME"⟩], [⟨"u", some "AQcDBA=="⟩], ⟨["u"], [⟨"AAME", 0, 1⟩]⟩,
    ⟨[1, 0], some 0, some 1⟩⟩, by decide +kernel, rfl, rfl, ?_⟩
  rintro ⟨htotal, -⟩
  cases htotal

end PrioProcessor.Bugs.UncountedShares
