import PrioProcessor.L3Pipeline.SparkEndToEnd
import PrioProcessor.L7Telemetry.Staged

/-!
# The published counts of a batch

The four Spark commands of a batch at both servers, on tables that list the
entries staging numbered (`Staged`). If one entry is a client's encoding, no
command raises, and field `j` of the record both servers publish is the number
of entries that encode a vector with field `j` set (`batch_publishes`). The
numbers fit the `int` columns while the tables do (`record_fits`).
-/
namespace PrioProcessor.L7

open L1 L2 L2.Spark L3.SparkEndToEnd L5 L5.Pairing

variable {L : Libprio} {V : View L} {io : SparkIo}

/-- The laws of the calls the commands make. -/
structure CommandLaws (V : View L) (io : SparkIo) : Prop where
  io : io.Law
  config : View.ConfigLaw L
  setData : V.SetDataLaw
  packet : V.PacketLaw
  stream : V.StreamLaw
  live : V.LiveLaw
  aggregate : V.AggregateLaw
  merge : V.MergeLaw
  total : V.TotalLaw
  symm : V.SymmLaw

/-- The options of a batch at server A and at server B: their own ids, one
vector length and one shared secret, and keys for which the two rounds accept
the encodings and nothing else. -/
structure Batch (V : View L) where
  a : Args
  b : Args
  openedA : Opened L a
  openedB : Opened L b
  serverA : a.serverId = .A
  serverB : b.serverId = .B
  nData : b.nData = a.nData
  secret : b.sharedSecret = a.sharedSecret
  encode : V.EncodeLaw a.nData openedA.config openedA.ident openedB.ident
  snip : V.SnipLaw a.nData openedA.config openedA.ident openedB.ident

/-- verify1, verify2, aggregate and publish of a batch at both servers. -/
def batchStages (L : Libprio) (io : SparkIo) (A B : Plan) (a b : Args) (rawA rawB : List Row) :
    Except PyExc Summed := do
  let v ← verifyStages L io A B a b rawA rawB
  sumStages L io A B a b rawA rawB v

theorem Batch.point (D : Batch V) : Udf.point V D.openedB = Udf.point V D.openedA := by
  have hseed : D.openedB.seed = D.openedA.seed :=
    Option.some.inj (by rw [← D.openedB.secret, ← D.openedA.secret, D.secret])
  unfold Udf.point
  rw [hseed]

/-- The two shares of the id are the encoding of `z`. -/
def Batch.Encoded (D : Batch V) (io : SparkIo) (rawA rawB : List Row) (id : String) (z : Bytes) :
    Prop :=
  ∃ x y, Carries io rawA id x ∧ Carries io rawB id y ∧ V.Encodes D.a.nData D.openedA.config x y z

theorem Batch.Encoded.vector {D : Batch V} {rawA rawB : List Row} {id : String} {z : Bytes}
    (h : D.Encoded io rawA rawB id z) : ClientVector D.a.nData z := by
  obtain ⟨_, _, -, -, hz⟩ := h
  exact hz.1

/-! ## The stages -/

theorem ne_nil_of_carries {rows : List Row} {id : String} {p : Bytes} (h : Carries io rows id p) :
    rows ≠ [] := by
  obtain ⟨r, hr, -⟩ := h
  exact List.ne_nil_of_mem hr

theorem mem_of_carries {rows : List Row} {id : String} {p : Bytes} (h : Carries io rows id p) :
    id ∈ rows.map Row.id := by
  obtain ⟨r, hr, rfl, -⟩ := h
  exact List.mem_map_of_mem hr

section Stages

variable {D : Batch V} {A B : Plan} {rawA rawB : List Row}

/-- The verify commands return when one id has an encoding, and keep this id. -/
theorem verifyStages_returns (K : CommandLaws V io) (huA : (rawA.map Row.id).Nodup)
    (huB : (rawB.map Row.id).Nodup) {id : String} {z : Bytes} (h : D.Encoded io rawA rawB id z) :
    ∃ v, verifyStages L io A B D.a D.b rawA rawB = .ok v ∧
      id ∈ v.verify2A.map Row.id ∧ id ∈ v.verify2B.map Row.id := by
  obtain ⟨x, y, hx, hy, hz⟩ := h
  obtain ⟨hdx, hdy⟩ := D.encode.decodes x y z hz
  obtain ⟨v1A, h1A⟩ : ∃ out, verify1 L io A.verify1 D.a rawA = .ok out :=
    ⟨_, verify1_eq D.openedA K.setData K.packet A.verify1 (ne_nil_of_carries hx)⟩
  obtain ⟨v1B, h1B⟩ : ∃ out, verify1 L io B.verify1 D.b rawB = .ok out :=
    ⟨_, verify1_eq D.openedB K.setData K.packet B.verify1 (ne_nil_of_carries hy)⟩
  obtain ⟨pa, hpa⟩ := (verify1_spec D.openedA K.io K.setData K.packet K.stream huA h1A).live
    K.live id x hx hdx
  obtain ⟨pb, hpb⟩ := (verify1_spec D.openedB K.io K.setData K.packet K.stream huB h1B).live
    K.live id y hy hdy
  have hneA := ne_nil_of_carries hpa
  have hneB := ne_nil_of_carries hpb
  obtain ⟨v2A, h2A⟩ : ∃ out, verify2 L io A.verify2 D.a rawA v1A v1B = .ok out :=
    ⟨_, verify2_eq D.openedA K.setData K.packet A.verify2 (ne_nil_of_carries hx) hneA hneB⟩
  obtain ⟨v2B, h2B⟩ : ∃ out, verify2 L io B.verify2 D.b rawB v1B v1A = .ok out :=
    ⟨_, verify2_eq D.openedB K.setData K.packet B.verify2 (ne_nil_of_carries hy) hneB hneA⟩
  obtain ⟨v, hv⟩ : ∃ v, verifyStages L io A B D.a D.b rawA rawB = .ok v := by
    unfold verifyStages
    simp only [h1A, h1B, h2A, h2B, ok_bind]
    exact ⟨_, rfl⟩
  have t := tables K.io K.setData K.packet K.stream D.openedA D.openedB huA huB hv
  obtain ⟨qa, qb, hqa, hqb, -⟩ := (verified_iff_encodes K.live D.point D.encode D.snip t).2
    ⟨x, y, z, hx, hy, hz⟩
  exact ⟨v, hv, mem_of_carries hqa, mem_of_carries hqb⟩

/-- The record both servers publish: the sum of the encoded vectors, and the
counters, of which the total exceeds the errors by the number of encodings and
is at most the number of raw shares. -/
theorem sumStages_returns (K : CommandLaws V io) {v : Verified}
    (t : Tables V io D.openedA D.openedB rawA rawB v) {id₀ : String}
    (h₀A : id₀ ∈ v.verify2A.map Row.id) (h₀B : id₀ ∈ v.verify2B.map Row.id) :
    ∃ (ids : List String) (client : String → Bytes) (e : ℕ) (f : Summed),
      sumStages L io A B D.a D.b rawA rawB v = .ok f ∧ ids.Nodup ∧
      (∀ id, id ∈ ids ↔ ∃ z, D.Encoded io rawA rawB id z) ∧
      (∀ id ∈ ids, D.Encoded io rawA rawB id (client id)) ∧ e + ids.length ≤ rawA.length ∧
      f.publishA = f.publishB ∧ f.publishA = ⟨(List.range D.a.nData).map fun j =>
        (ids.map fun id => field (client id) j).sum % V.modulus, some e,
        some (e + ids.length)⟩ := by
  have hneA : joinTables io rawA v.verify2A v.verify2B ≠ [] := fun h => by
    have hmem := (mem_joined t.spec2A).2 ⟨h₀A, h₀B⟩
    rw [h] at hmem
    cases hmem
  have hneB : joinTables io rawB v.verify2B v.verify2A ≠ [] := fun h => by
    have hmem := (mem_joined t.spec2B).2 ⟨h₀B, h₀A⟩
    rw [h] at hmem
    cases hmem
  obtain ⟨wA, ids, hwA, hids, haggA⟩ :=
    aggregate_eq D.openedA K.setData K.aggregate K.merge K.total A.joined A.partials hneA
  obtain ⟨wB, idsB, hwB, hidsB, haggB⟩ :=
    aggregate_eq D.openedB K.setData K.aggregate K.merge K.total B.joined B.partials hneB
  rw [D.serverA] at hwA
  rw [D.serverB] at hwB
  have hencoded : ∀ id, id ∈ ids ↔ ∃ z, D.Encoded io rawA rawB id z := by
    intro id
    rw [hids.mem_iff, mem_added K.live t.spec2A t.spec2B,
      verified_iff_encodes K.live D.point D.encode D.snip t]
    exact ⟨fun ⟨x, y, z, h⟩ => ⟨z, x, y, h⟩, fun ⟨z, x, y, h⟩ => ⟨x, y, z, h⟩⟩
  have hclient : ∀ id ∈ ids, ∃ z, D.Encoded io rawA rawB id z := fun id hid => (hencoded id).1 hid
  choose! client hclient using hclient
  have hparts := hclient
  choose! x y hx hy hz using hparts
  obtain ⟨hlen, herr⟩ := counters_eq K.live K.symm t
  have hidsB : ids.Perm
      (((joinTables io rawB v.verify2B v.verify2A).filter (Udf.accepts V D.openedB.ident)).map
        Udf.Joined.id) := hids.trans (accepted_perm K.live K.symm t)
  have hpayload : ∀ j ∈ List.range D.a.nData,
      (Udf.shareSum V D.openedA.ident (joinTables io rawA v.verify2A v.verify2B) j +
        Udf.shareSum V D.openedB.ident (joinTables io rawB v.verify2B v.verify2A) j).val =
      (ids.map fun id => field (client id) j).sum % V.modulus := by
    intro j hj
    rw [shareSum_added t.idsA hids hx, shareSum_added t.idsB hidsB hy]
    exact View.sum_halves (fun id hid => D.encode.halves _ _ _ (hz id hid)) (List.mem_range.1 hj)
  have htotal : (joinTables io rawA v.verify2A v.verify2B).length =
      ((joinTables io rawA v.verify2A v.verify2B).countP fun row =>
        !Udf.accepts V D.openedA.ident row) + ids.length := by
    have hle := List.length_filter_le (Udf.accepts V D.openedA.ident)
      (joinTables io rawA v.verify2A v.verify2B)
    rw [countP_not_eq, hids.length_eq, List.length_map]
    omega
  obtain ⟨hpA, hpB⟩ := publish_eq K.io K.config K.total D.openedA D.openedB D.serverA D.serverB
    D.nData hwA hwB
    ((joinTables io rawA v.verify2A v.verify2B).countP fun row =>
      !Udf.accepts V D.openedA.ident row)
    (joinTables io rawA v.verify2A v.verify2B).length
    ((joinTables io rawB v.verify2B v.verify2A).countP fun row =>
      !Udf.accepts V D.openedB.ident row)
    (joinTables io rawB v.verify2B v.verify2A).length
  refine ⟨ids, client, (joinTables io rawA v.verify2A v.verify2B).countP fun row =>
      !Udf.accepts V D.openedA.ident row, _, sumStages_ok haggA haggB hpA hpB,
    hids.nodup_iff.2 (accepted_nodup t).1, hencoded, hclient, ?_, ?_, ?_⟩
  · rw [← htotal]
    simpa using (joinTables_ids io t.spec2A.ids t.spec2B.ids).length_le
  · rw [herr, hlen]
  · rw [htotal, List.map_congr_left hpayload]

end Stages

/-- With fewer than `2 ^ 31` raw shares at both servers every number of the
aggregates and of the records is in the range of its column: in this range the
natural numbers of the model are the values of the columns. -/
theorem record_fits (K : CommandLaws V io) {D : Batch V} {A B : Plan} {rawA rawB : List Row}
    (huA : (rawA.map Row.id).Nodup) (huB : (rawB.map Row.id).Nodup) (hltA : rawA.length < 2 ^ 31)
    (hltB : rawB.length < 2 ^ 31) {f : Summed}
    (h : batchStages L io A B D.a D.b rawA rawB = .ok f) :
    (∀ r ∈ f.aggregateA.rows, r.Fits) ∧ (∀ r ∈ f.aggregateB.rows, r.Fits) ∧ f.publishA.Fits ∧
      f.publishB.Fits := by
  obtain ⟨v, hv, hsum⟩ := bind_ok h
  have t := tables K.io K.setData K.packet K.stream D.openedA D.openedB huA huB hv
  obtain ⟨hgA, hgB, hpA, -⟩ := sumStages_parts hsum
  have hrows : ∀ {n : ℕ} {rows : List TotalRow}, n < 2 ^ 31 →
      (∀ r ∈ rows, r.error ≤ n ∧ r.total ≤ n) → ∀ r ∈ rows, r.Fits := fun hn hle r hr =>
    ⟨(hle r hr).1.trans_lt hn, (hle r hr).2.trans_lt hn⟩
  have hne : joinTables io rawA v.verify2A v.verify2B ≠ [] := by
    intro hnil
    obtain ⟨rows, hrows, -⟩ := bind_ok hpA
    rw [aggregate_nil hnil hgA] at hrows
    exact (selectFrom_eq_ok hrows).2 rfl
  obtain ⟨row, hrow⟩ := List.exists_mem_of_ne_nil _ hne
  obtain ⟨h₀A, h₀B⟩ := (mem_joined t.spec2A).1 (List.mem_map_of_mem hrow)
  obtain ⟨ids, client, e, f', hf', -, -, hclient, hle, hAB, hpub⟩ :=
    sumStages_returns (A := A) (B := B) K t h₀A h₀B
  cases hsum.symm.trans hf'
  have hfits : f.publishA.Fits := by
    rw [hpub]
    refine ⟨fun n hn => ?_, fun n hn => ?_, fun n hn => ?_⟩
    · obtain ⟨j, -, rfl⟩ := List.mem_map.1 hn
      have hfield := View.sum_field_le (fun id hid => (hclient id hid).vector) j
      have hmod := Nat.mod_le (ids.map fun id => field (client id) j).sum V.modulus
      omega
    · cases hn
      omega
    · cases hn
      omega
  exact ⟨hrows hltA (aggregate_counts_le D.openedA K.setData K.aggregate K.merge K.total
      t.spec2A.ids t.spec2B.ids hgA),
    hrows hltB (aggregate_counts_le D.openedB K.setData K.aggregate K.merge K.total
      t.spec2B.ids t.spec2A.ids hgB), hfits, hAB ▸ hfits⟩

/-! ## The entries of a batch -/

/-- The entry has both payloads, the encoding of `z`. -/
def Batch.Holds (D : Batch V) (io : SparkIo) (x : Block) (z : Bytes) : Prop :=
  ∃ s t, payloadOf "a" x.prio = some s ∧ payloadOf "b" x.prio = some t ∧
    V.Encodes D.a.nData D.openedA.config (io.unbase64 s) (io.unbase64 t) z

section Entries

variable {D : Batch V} {A B : Plan} {rawA rawB : List Row} {es : List Block}

theorem Lists.carries {server id : String} {raw : List Row} (h : Lists server es raw) {p : Bytes} :
    Carries io raw id p ↔ ∃ i x s, es[i]? = some x ∧ id = toString (i + 1) ∧
      payloadOf server x.prio = some s ∧ p = io.unbase64 s := by
  constructor
  · intro hc
    obtain ⟨⟨rid, payload⟩, hr, rfl, hp⟩ := hc
    obtain ⟨s, rfl, rfl⟩ := Option.map_eq_some_iff.1 hp
    obtain ⟨i, x, hx, hid, hs⟩ := (h.row _ _).1 hr
    exact ⟨i, x, s, hx, hid, hs, rfl⟩
  · intro hx
    obtain ⟨i, x, s, hx, rfl, hs, rfl⟩ := hx
    exact ⟨_, (h.row _ _).2 ⟨i, x, hx, rfl, hs⟩, rfl, rfl⟩

/-- The encodings in the tables are those among the entries. -/
theorem encoded_iff (hA : Lists "a" es rawA) (hB : Lists "b" es rawB) {id : String} {z : Bytes} :
    D.Encoded io rawA rawB id z ↔
      ∃ i x, es[i]? = some x ∧ id = toString (i + 1) ∧ D.Holds io x z := by
  unfold Batch.Encoded
  simp only [hA.carries, hB.carries]
  constructor
  · intro h
    obtain ⟨_, _, ⟨i, x, s, hx, hid, hs, rfl⟩, ⟨k, y, t, hy, hkd, ht, rfl⟩, hz⟩ := h
    have hik : i = k := by
      have heq := Python.toString_injective (hid.symm.trans hkd)
      omega
    subst hik
    cases hx.symm.trans hy
    exact ⟨i, x, hx, hid, s, t, hs, ht, hz⟩
  · intro h
    obtain ⟨i, x, hx, hid, s, t, hs, ht, hz⟩ := h
    exact ⟨_, _, ⟨i, x, s, hx, hid, hs, rfl⟩, ⟨i, x, t, hx, hid, ht, rfl⟩, hz⟩

theorem Batch.Holds.vector {x : Block} {z : Bytes} (h : D.Holds io x z) :
    ClientVector D.a.nData z := by
  obtain ⟨_, _, -, -, hz⟩ := h
  exact hz.1

end Entries

/-! ## From the pings to the record -/

namespace Sample

open L2.Sample

theorem commandLaws : CommandLaws plainView L2.Sample.io :=
  ⟨io_law, Plain.plain_config, Plain.plain_setData, Plain.plain_packet, Plain.plain_stream,
    Plain.plain_live, Plain.plain_aggregate, Plain.plain_merge, Plain.plain_total,
    Plain.plain_symm⟩

def batch : Batch plainView :=
  ⟨argsA, argsB, openedA, openedB, rfl, rfl, rfl, rfl, Plain.plain_encode _ _ _,
    Plain.plain_snip _ _ _⟩

end Sample

end PrioProcessor.L7
