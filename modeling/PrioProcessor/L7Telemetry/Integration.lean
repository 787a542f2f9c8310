import PrioProcessor.L3Pipeline.CliEndToEnd
import PrioProcessor.L7Telemetry.Batch
import Mathlib.Data.List.Sort

/-!
# The data of the integration tests

`generate-integration` (prio_processor/spark/commands.py:128-194) writes the
shares that bin/generate uploads: for every batch of the configuration but the
dropped ones `n_rows - 1` encodings of one pattern and one encoding with a field
too many, and `n_rows` encodings of a batch that no configuration has. Spark
reads the rows back in any order.

Every kept batch has a directory at both servers, the dropped ones have none;
the commands of the batch publish `n_rows - 1` times the pattern
(`integration_publishes`).
-/
namespace PrioProcessor.L7.Integration

open L1 L2 L2.Spark L3.SparkEndToEnd Table

/-- A batch of the configuration. -/
structure Conf where
  batchId : String
  nData : ℕ
  deriving DecidableEq, Repr

/-- A row of the test data. -/
structure TestRow where
  batchId : String
  nData : ℕ
  payload : List ℤ
  deriving DecidableEq, Repr

/-- A row with its shares, before they are split by server. -/
structure SharedRow where
  batchId : String
  id : String
  shares : Udf.Shares

/-- A row of the output. -/
structure Generated where
  batchId : String
  serverId : String
  id : String
  payload : Option Bytes

/-- Field `x` of the test data. -/
def pattern (x : ℕ) : ℤ := if x % 3 = 0 ∨ x % 5 = 0 then 1 else 0

/-- mirrors prio_processor/spark/commands.py:145-150 -/
def generateData (batchId : String) (nData : ℕ) : TestRow :=
  ⟨batchId, nData, (List.range nData).map pattern⟩

/-- The batches that are not dropped, sorted by their id, the last one first.
mirrors prio_processor/spark/commands.py:155-158 -/
def kept (config : List Conf) (nDropBatch : ℤ) : List Conf :=
  let collectedRows := config.insertionSort fun x y => y.batchId ≤ x.batchId
  collectedRows.drop (Python.sliceStart collectedRows.length (some nDropBatch))

/-- The rows of a kept batch.
mirrors prio_processor/spark/commands.py:158-163 -/
def batchData (nRows : ℤ) (conf : Conf) : List TestRow :=
  List.replicate (nRows - 1).toNat (generateData conf.batchId conf.nData) ++
    [generateData conf.batchId (conf.nData + 1)]

/-- mirrors prio_processor/spark/commands.py:152-165 -/
def testData (config : List Conf) (nRows nDropBatch : ℤ) : List TestRow :=
  (kept config nDropBatch).flatMap (batchData nRows) ++
    List.replicate nRows.toNat (generateData "bad-id" 10)

/-- What Spark and the random sources choose: the order of the output, and the
coins and the id of each row. -/
structure GeneratePlan (L : Libprio) where
  output : Shuffle SharedRow
  coins : ℕ → L.Coins
  uuid : ℕ → String

variable {L : Libprio}

/-- mirrors prio_processor/spark/commands.py:167-180 -/
def sharesOf (P : GeneratePlan L) (internal external : Bytes) (p : TestRow × ℕ) :
    Except PyExc SharedRow := do
  let shares ← Udf.encodeSingle L p.1.batchId p.1.nData internal external (P.coins p.2) p.1.payload
  pure ⟨p.1.batchId, P.uuid p.2, shares⟩

/-- `explode("shares")` -/
def explode (r : SharedRow) : List Generated :=
  [⟨r.batchId, "a", r.id, r.shares.a⟩, ⟨r.batchId, "b", r.id, r.shares.b⟩]

/-- mirrors prio_processor/spark/commands.py:128-194 -/
def generateIntegration (P : GeneratePlan L) (internal external : Bytes) (config : List Conf)
    (nRows nPartitions nDropBatch : ℤ) : Except EncodeExc (List Generated) :=
  if ¬ 0 < nRows then .error (.driver .assertionError)
  else if nPartitions < 1 then .error .illegalArgument
  else do
    let shares ← onWorker
      ((testData config nRows nDropBatch).zipIdx.mapM (sharesOf P internal external))
    pure ((P.output.rows shares).flatMap explode)

/-- The raw shares of a batch at a server, `server_id=<server>/batch_id=<batch>`. -/
def rawOf (io : SparkIo) (out : List Generated) (server batch : String) : List Row :=
  (out.filter fun r => r.serverId = server ∧ r.batchId = batch).map fun r =>
    ⟨r.id, r.payload.map io.base64⟩

/-! ## The rows of a batch -/

theorem generateData_zeroOne (batchId : String) (n : ℕ) :
    ZeroOne n (generateData batchId n).payload where
  length := by simp [generateData]
  bit z hz := by
    obtain ⟨x, -, rfl⟩ := List.mem_map.1 hz
    unfold pattern
    split
    · exact .inr rfl
    · exact .inl rfl

theorem generateData_getD (batchId : String) {n j : ℕ} (hj : j < n) :
    (generateData batchId n).payload.getD j 0 = pattern j := by
  simp [generateData, hj]

section Rows

variable {config : List Conf} {nRows nDropBatch : ℤ}

theorem batchData_batchId {d : Conf} {r : TestRow} (hr : r ∈ batchData nRows d) :
    r.batchId = d.batchId := by
  unfold batchData at hr
  rcases List.mem_append.1 hr with hr | hr
  · rw [List.eq_of_mem_replicate hr]; rfl
  · rw [List.mem_singleton.1 hr]; rfl

/-- A row of a kept batch is the pattern, or has a field too many. -/
theorem row_cases (hids : ((kept config nDropBatch).map Conf.batchId).Nodup)
    {c : Conf} (hc : c ∈ kept config nDropBatch) (hbad : c.batchId ≠ "bad-id") {r : TestRow}
    (hr : r ∈ testData config nRows nDropBatch) (hbatch : r.batchId = c.batchId) :
    r = generateData c.batchId c.nData ∨ r = generateData c.batchId (c.nData + 1) := by
  unfold testData at hr
  rcases List.mem_append.1 hr with hr | hr
  · obtain ⟨d, hd, hr⟩ := List.mem_flatMap.1 hr
    obtain rfl : d = c :=
      List.inj_on_of_nodup_map hids hd hc ((batchData_batchId hr).symm.trans hbatch)
    rcases List.mem_append.1 hr with hr | hr
    · exact .inl (List.eq_of_mem_replicate hr)
    · exact .inr (List.mem_singleton.1 hr)
  · rw [List.eq_of_mem_replicate hr] at hbatch
    exact absurd hbatch.symm hbad

theorem generateData_ne (batchId : String) (n : ℕ) :
    generateData batchId n ≠ generateData batchId (n + 1) := fun heq => by
  have hn : n = n + 1 := congrArg TestRow.nData heq
  omega

/-- The pattern of a kept batch stands in `n_rows - 1` rows. -/
theorem count_pattern (hids : ((kept config nDropBatch).map Conf.batchId).Nodup)
    {c : Conf} (hc : c ∈ kept config nDropBatch) (hbad : c.batchId ≠ "bad-id") :
    (testData config nRows nDropBatch).count (generateData c.batchId c.nData) =
      (nRows - 1).toNat := by
  have hown : (batchData nRows c).count (generateData c.batchId c.nData) = (nRows - 1).toNat := by
    unfold batchData
    rw [List.count_append, List.count_replicate_self, List.count_singleton, if_neg, Nat.add_zero]
    simpa using (generateData_ne c.batchId c.nData).symm
  have hother : ∀ ds : List Conf, (∀ d ∈ ds, d.batchId ≠ c.batchId) →
      (ds.flatMap (batchData nRows)).count (generateData c.batchId c.nData) = 0 := by
    intro ds hds
    refine List.count_eq_zero.2 fun hmem => ?_
    obtain ⟨d, hd, hr⟩ := List.mem_flatMap.1 hmem
    exact hds d hd (batchData_batchId hr).symm
  have hunknown : (List.replicate nRows.toNat (generateData "bad-id" 10)).count
      (generateData c.batchId c.nData) = 0 := by
    refine List.count_eq_zero.2 fun hmem => hbad ?_
    exact congrArg TestRow.batchId (List.eq_of_mem_replicate hmem)
  obtain ⟨pre, post, heq⟩ := List.append_of_mem hc
  rw [heq, List.map_append, List.map_cons] at hids
  have hdisjoint := List.nodup_append.1 hids
  have hpre : ∀ d ∈ pre, d.batchId ≠ c.batchId := fun d hd =>
    hdisjoint.2.2 _ (List.mem_map_of_mem hd) _ List.mem_cons_self
  have hpost : ∀ d ∈ post, d.batchId ≠ c.batchId := fun d hd h =>
    (List.nodup_cons.1 hdisjoint.2.1).1 (h ▸ List.mem_map_of_mem hd)
  unfold testData
  rw [heq, List.flatMap_append, List.flatMap_cons, List.count_append, List.count_append,
    List.count_append, hother pre hpre, hown, hother post hpost, hunknown]
  omega

end Rows

/-! ## The output -/

/-- The share of a server. -/
def half (server : String) (s : Udf.Shares) : Option Bytes := if server = "a" then s.a else s.b

/-- The raw shares, row by row. -/
theorem rawOf_explode (io : SparkIo) {server : String} (hserver : server = "a" ∨ server = "b")
    (batch : String) (rs : List SharedRow) : rawOf io (rs.flatMap explode) server batch =
      (rs.filter fun r => r.batchId = batch).map fun r =>
        ⟨r.id, (half server r.shares).map io.base64⟩ := by
  have hrow : ∀ r : SharedRow, rawOf io (explode r) server batch =
      if r.batchId = batch then [⟨r.id, (half server r.shares).map io.base64⟩] else [] := by
    intro r
    unfold rawOf explode half
    rcases hserver with rfl | rfl
    · by_cases h : r.batchId = batch <;> simp [h]
    · by_cases h : r.batchId = batch <;> simp [h]
  have happend : ∀ xs ys, rawOf io (xs ++ ys) server batch =
      rawOf io xs server batch ++ rawOf io ys server batch := fun xs ys => by
    unfold rawOf
    rw [List.filter_append, List.map_append]
  induction rs with
  | nil => rfl
  | cons r rs ih =>
    rw [List.flatMap_cons, happend, hrow, ih]
    by_cases h : r.batchId = batch
    · rw [if_pos h, List.filter_cons_of_pos (by simpa using h)]; rfl
    · rw [if_neg h, List.filter_cons_of_neg (by simpa using h)]; rfl

/-- The keys are accepted, and `PrioClient_encode` raises nothing that
`encode_single` does not catch. -/
structure Encodable (L : Libprio) (internal external : Bytes) : Prop where
  keys : ∃ k, importPublicKeys L internal external = .ok k
  raises : ∀ config x coins e, L.prioClientEncode config x coins = .error e → Udf.catches e = true

section Output

variable {P : GeneratePlan L} {internal external : Bytes}

theorem bytesOf_error {xs : List ℤ} {e : PyExc} (h : bytesOf xs = .error e) : e = .valueError := by
  obtain ⟨z, -, hz⟩ := mapM_error h
  split at hz
  · cases hz
  · cases hz; rfl

/-- A list is encoded, or has no shares. -/
theorem encodeItem_returns (h : Encodable L internal external) (config : L.Config) (c : L.Coins)
    (xs : List ℤ) : ∃ s, Udf.encodeItem L config c (.ints xs) = .ok s ∧
      ∀ x y, s.a = some x → s.b = some y →
        ∃ data, bytesOf xs = .ok data ∧ L.prioClientEncode config data c = .ok (x, y) := by
  unfold Udf.encodeItem Udf.Item.mapInt
  rw [ok_bind]
  cases hb : bytesOf xs with
  | error e =>
    rw [bytesOf_error hb]
    exact ⟨⟨none, none⟩, rfl, by simp⟩
  | ok data =>
    rw [ok_bind]
    cases hc : L.prioClientEncode config data c with
    | error e =>
      dsimp only
      rw [if_pos (h.raises _ _ _ _ hc)]
      exact ⟨⟨none, none⟩, rfl, by simp⟩
    | ok s =>
      refine ⟨⟨some s.1, some s.2⟩, rfl, fun x y hx hy => ⟨data, rfl, ?_⟩⟩
      cases hx
      cases hy
      rw [hc]

/-- The configuration of a batch. -/
theorem encodeConfig_ok (h : Encodable L internal external) (batchId : String) (n : ℕ) :
    ∃ config, encodeConfig L ⟨Udf.utf8 batchId, n, internal, external⟩ = .ok config := by
  obtain ⟨k, hk⟩ := h.keys
  unfold encodeConfig
  rw [hk, ok_bind]
  exact ⟨_, rfl⟩

/-- What row `p` of the test data is encoded as. -/
structure SharedAs (L : Libprio) (P : GeneratePlan L) (internal external : Bytes)
    (p : TestRow × ℕ) (s : Udf.Shares) : Prop where
  result : Udf.encodeSingle L p.1.batchId p.1.nData internal external (P.coins p.2) p.1.payload =
    .ok s
  encoded : ∀ x y, s.a = some x → s.b = some y → ∃ config data,
    encodeConfig L ⟨Udf.utf8 p.1.batchId, p.1.nData, internal, external⟩ = .ok config ∧
    bytesOf p.1.payload = .ok data ∧ L.prioClientEncode config data (P.coins p.2) = .ok (x, y)

theorem exists_sharedAs (h : Encodable L internal external) (P : GeneratePlan L)
    (p : TestRow × ℕ) : ∃ s, SharedAs L P internal external p s := by
  obtain ⟨config, hconfig⟩ := encodeConfig_ok h p.1.batchId p.1.nData
  obtain ⟨s, hs, hencoded⟩ := encodeItem_returns h config (P.coins p.2) p.1.payload
  refine ⟨s, ?_, fun x y hx hy => ?_⟩
  · unfold Udf.encodeSingle
    rw [hconfig, ok_bind, hs]
  · obtain ⟨data, hdata, hc⟩ := hencoded x y hx hy
    exact ⟨config, data, hconfig, hdata, hc⟩

/-- The rows of the test data, with their shares. -/
def sharedRows (P : GeneratePlan L) (rows : List TestRow) (s : TestRow × ℕ → Udf.Shares) :
    List SharedRow := rows.zipIdx.map fun p => ⟨p.1.batchId, P.uuid p.2, s p⟩

theorem generateIntegration_ok (h : Encodable L internal external) (P : GeneratePlan L)
    (config : List Conf) {nRows nPartitions : ℤ} (nDropBatch : ℤ) (hrows : 0 < nRows)
    (hparts : 1 ≤ nPartitions) : ∃ s, (∀ p, SharedAs L P internal external p (s p)) ∧
      generateIntegration P internal external config nRows nPartitions nDropBatch =
        .ok ((P.output.rows (sharedRows P (testData config nRows nDropBatch) s)).flatMap
          explode) := by
  choose s hs using exists_sharedAs h P
  have hmap : (testData config nRows nDropBatch).zipIdx.mapM (sharesOf P internal external) =
      .ok (sharedRows P (testData config nRows nDropBatch) s) := by
    refine mapM_ok fun p _ => ?_
    unfold sharesOf
    rw [(hs p).result, ok_bind]
    rfl
  refine ⟨s, hs, ?_⟩
  unfold generateIntegration
  rw [if_neg (not_not.2 hrows), if_neg (by omega), hmap]
  rfl

end Output

/-! ## The raw tables of a batch -/

/-- A table read from the raw shares of a batch at a server. -/
def Reads (io : SparkIo) (P : GeneratePlan L) (rows : List TestRow) (s : TestRow × ℕ → Udf.Shares)
    (server batch : String) (raw : List Row) : Prop :=
  raw.Perm (rawOf io ((P.output.rows (sharedRows P rows s)).flatMap explode) server batch)

section Tables

variable {io : SparkIo} {P : GeneratePlan L} {rows : List TestRow} {s : TestRow × ℕ → Udf.Shares}
  {server batch : String} {raw : List Row}

theorem Reads.perm (h : Reads io P rows s server batch raw)
    (hserver : server = "a" ∨ server = "b") :
    raw.Perm ((rows.zipIdx.filter fun p => p.1.batchId = batch).map fun p =>
      ⟨P.uuid p.2, (half server (s p)).map io.base64⟩) := by
  unfold Reads at h
  rw [rawOf_explode io hserver] at h
  refine h.trans ((((P.output.rows_perm _).filter _).map _).trans (.of_eq ?_))
  unfold sharedRows
  rw [List.filter_map, List.map_map]
  rfl

/-- The ids of selected rows. -/
theorem uuid_nodup (huuid : P.uuid.Injective) (rows : List TestRow) (q : TestRow × ℕ → Bool) :
    ((rows.zipIdx.filter q).map fun p => P.uuid p.2).Nodup := by
  have hnum : (rows.zipIdx.map Prod.snd).Nodup := by
    rw [List.zipIdx_map_snd]
    exact List.nodup_range'
  change (List.map (P.uuid ∘ Prod.snd) _).Nodup
  rw [← List.map_map]
  exact (hnum.sublist (List.filter_sublist.map Prod.snd)).map huuid

theorem Reads.ids (h : Reads io P rows s server batch raw) (hserver : server = "a" ∨ server = "b")
    (huuid : P.uuid.Injective) : (raw.map Row.id).Nodup := by
  refine ((h.perm hserver).map Row.id).nodup_iff.2 ?_
  rw [List.map_map]
  exact uuid_nodup huuid rows _

theorem Reads.carries (h : Reads io P rows s server batch raw)
    (hserver : server = "a" ∨ server = "b") (hio : io.Law) {id : String} {x : Bytes} :
    Carries io raw id x ↔ ∃ p ∈ rows.zipIdx, p.1.batchId = batch ∧ id = P.uuid p.2 ∧
      half server (s p) = some x := by
  have hmem := fun r => (h.perm hserver).mem_iff (a := r)
  constructor
  · intro hc
    obtain ⟨r, hr, rfl, hx⟩ := hc
    obtain ⟨p, hp, rfl⟩ := List.mem_map.1 ((hmem r).1 hr)
    obtain ⟨hp, hbatch⟩ := List.mem_filter.1 hp
    refine ⟨p, hp, by simpa using hbatch, rfl, ?_⟩
    cases hs : half server (s p) with
    | none => simp [SparkIo.column, hs] at hx
    | some y => simpa [SparkIo.column, hs, hio.unbase64_base64] using hx
  · intro hp
    obtain ⟨p, hp, hbatch, rfl, hx⟩ := hp
    refine ⟨_, (hmem _).2 (List.mem_map_of_mem
      (List.mem_filter.2 ⟨hp, by simpa using hbatch⟩)), rfl, ?_⟩
    simp [SparkIo.column, hx, hio.unbase64_base64]

/-- The encodings in the tables are those of the rows. -/
theorem encoded_iff {V : View L} {D : Batch V} {rawA rawB : List Row}
    (hA : Reads io P rows s "a" batch rawA) (hB : Reads io P rows s "b" batch rawB) (hio : io.Law)
    (huuid : P.uuid.Injective) {id : String} {z : Bytes} :
    D.Encoded io rawA rawB id z ↔ ∃ p ∈ rows.zipIdx, p.1.batchId = batch ∧ id = P.uuid p.2 ∧
      ∃ x y, (s p).a = some x ∧ (s p).b = some y ∧ V.Encodes D.a.nData D.openedA.config x y z := by
  unfold Batch.Encoded
  simp only [hA.carries (.inl rfl) hio, hB.carries (.inr rfl) hio]
  constructor
  · intro h
    obtain ⟨x, y, ⟨p, hp, hbatch, rfl, hx⟩, ⟨q, hq, -, hid, hy⟩, hz⟩ := h
    have hindex : p.2 = q.2 := huuid hid
    have hpq : p = q := by
      obtain ⟨r, k⟩ := p
      obtain ⟨r', k'⟩ := q
      cases hindex
      obtain ⟨-, hr⟩ := List.mk_mem_zipIdx_iff_le_and_getElem?_sub.1 hp
      obtain ⟨-, hr'⟩ := List.mk_mem_zipIdx_iff_le_and_getElem?_sub.1 hq
      rw [Option.some.inj (hr.symm.trans hr')]
    subst hpq
    exact ⟨p, hp, hbatch, rfl, x, y, hx, hy, hz⟩
  · intro h
    obtain ⟨p, hp, hbatch, rfl, x, y, hx, hy, hz⟩ := h
    exact ⟨x, y, ⟨p, hp, hbatch, rfl, hx⟩, ⟨p, hp, hbatch, rfl, hy⟩, hz⟩

end Tables

/-! ## What a batch publishes -/

variable {V : View L} {io : SparkIo} {internal external : Bytes} {c : Conf}

/-- The options of the commands for a batch of the configuration, with the keys
that encoded the data: clients can encode, and what they encode with a field
too many is no encoding of the batch. -/
structure Fits (D : Batch V) (internal external : Bytes) (c : Conf) : Prop where
  batchId : D.a.batchId = Udf.utf8 c.batchId
  nData : D.a.nData = c.nData
  keyInternal : D.a.publicKeyHexInternal = internal
  keyExternal : D.a.publicKeyHexExternal = external
  client : ∀ x coins, ClientVector D.a.nData x →
    ∃ s, L.prioClientEncode D.openedA.config x coins = .ok s
  foreign : ∀ config, encodeConfig L ⟨D.a.batchId, D.a.nData + 1, internal, external⟩ = .ok config →
    ∀ x y z z', V.Encodes (D.a.nData + 1) config x y z →
      ¬ V.Encodes D.a.nData D.openedA.config x y z'

theorem Fits.config {D : Batch V} (h : Fits D internal external c) :
    encodeConfig L ⟨Udf.utf8 c.batchId, c.nData, internal, external⟩ = .ok D.openedA.config :=
  encodeConfig_opened D.openedA h.batchId.symm h.nData.symm h.keyInternal.symm
    h.keyExternal.symm

section Batch

variable {D : Batch V} {P : GeneratePlan L} {p : TestRow × ℕ} {s : Udf.Shares}

/-- The shares of a pattern are an encoding of it. -/
theorem pattern_encoded (h : Fits D internal external c) (hs : SharedAs L P internal external p s)
    (hp : p.1 = generateData c.batchId c.nData) : ∃ x y z, s.a = some x ∧ s.b = some y ∧
      V.Encodes D.a.nData D.openedA.config x y z ∧
      ∀ j < D.a.nData, field z j = (pattern j).toNat := by
  have hzero : ZeroOne c.nData p.1.payload := hp ▸ generateData_zeroOne c.batchId c.nData
  obtain ⟨z, hz, hvec⟩ := bytesOf_client hzero
  rw [← h.nData] at hvec
  obtain ⟨t, ht⟩ := h.client z (P.coins p.2) hvec
  have hresult := hs.result
  have hbatch : p.1.batchId = c.batchId := by rw [hp]; rfl
  have hn : p.1.nData = c.nData := by rw [hp]; rfl
  unfold Udf.encodeSingle at hresult
  rw [hbatch, hn, h.config, ok_bind, Udf.encodeItem_ints hz ht] at hresult
  cases hresult
  refine ⟨t.1, t.2, z, rfl, rfl, ⟨hvec, _, ht⟩, fun j hj => ?_⟩
  rw [field_bytesOf hzero hz, hp, generateData_getD c.batchId (h.nData ▸ hj)]

/-- The shares of a row with a field too many are no encoding. -/
theorem long_refused (h : Fits D internal external c) (hs : SharedAs L P internal external p s)
    (hp : p.1 = generateData c.batchId (c.nData + 1)) {x y z : Bytes} (hx : s.a = some x)
    (hy : s.b = some y) : ¬ V.Encodes D.a.nData D.openedA.config x y z := by
  obtain ⟨config, data, hconfig, hdata, hc⟩ := hs.encoded x y hx hy
  have hzero : ZeroOne (c.nData + 1) p.1.payload := hp ▸ generateData_zeroOne c.batchId _
  obtain ⟨data', hdata', hvec⟩ := bytesOf_client hzero
  cases hdata.symm.trans hdata'
  have hbatch : p.1.batchId = c.batchId := by rw [hp]; rfl
  have hn : p.1.nData = c.nData + 1 := by rw [hp]; rfl
  rw [hbatch, hn, ← h.batchId, ← h.nData] at hconfig
  rw [← h.nData] at hvec
  exact h.foreign config hconfig x y data z ⟨hvec, _, hc⟩

end Batch

section Publish

variable {D : Batch V} {P : GeneratePlan L} {config : List Conf} {nRows nDropBatch : ℤ}
  {s : TestRow × ℕ → Udf.Shares} {rawA rawB : List Row}

/-- The ids of the rows with the pattern of a batch. -/
def patternIds (P : GeneratePlan L) (rows : List TestRow) (c : Conf) : List String :=
  (rows.zipIdx.filter fun p => p.1 = generateData c.batchId c.nData).map fun p => P.uuid p.2

theorem length_patternIds (rows : List TestRow) (c : Conf) :
    (patternIds P rows c).length = rows.count (generateData c.batchId c.nData) := by
  unfold patternIds List.count
  conv_rhs => rw [← List.zipIdx_map_fst 0 rows, List.countP_map]
  rw [List.length_map, ← List.countP_eq_length_filter]
  refine List.countP_congr fun p _ => ?_
  simp

/-- The encodings in the tables of a batch are its patterns. -/
theorem encoded_pattern (h : Fits D internal external c) (hio : io.Law) (huuid : P.uuid.Injective)
    (hids : ((kept config nDropBatch).map Conf.batchId).Nodup)
    (hc : c ∈ kept config nDropBatch) (hbad : c.batchId ≠ "bad-id")
    (hs : ∀ p, SharedAs L P internal external p (s p))
    (hA : Reads io P (testData config nRows nDropBatch) s "a" c.batchId rawA)
    (hB : Reads io P (testData config nRows nDropBatch) s "b" c.batchId rawB) {id : String} :
    (∃ z, D.Encoded io rawA rawB id z) ↔
      id ∈ patternIds P (testData config nRows nDropBatch) c := by
  simp only [encoded_iff hA hB hio huuid]
  unfold patternIds
  simp only [List.mem_map, List.mem_filter, decide_eq_true_eq]
  constructor
  · intro hz
    obtain ⟨z, p, hp, hbatch, rfl, x, y, hx, hy, hz⟩ := hz
    refine ⟨p, ⟨hp, ?_⟩, rfl⟩
    refine (row_cases hids hc hbad (List.fst_mem_of_mem_zipIdx hp) hbatch).resolve_right
      fun hlong => ?_
    exact long_refused h (hs p) hlong hx hy hz
  · intro hp
    obtain ⟨p, ⟨hp, hpattern⟩, rfl⟩ := hp
    obtain ⟨x, y, z, hx, hy, hz, -⟩ := pattern_encoded h (hs p) hpattern
    exact ⟨z, p, hp, by rw [hpattern]; rfl, rfl, x, y, hx, hy, hz⟩

/-- The fields of what is encoded are those of the pattern. -/
theorem encoded_field (h : Fits D internal external c) (hio : io.Law) (huuid : P.uuid.Injective)
    (hs : ∀ p, SharedAs L P internal external p (s p)) {rows : List TestRow}
    (hA : Reads io P rows s "a" c.batchId rawA) (hB : Reads io P rows s "b" c.batchId rawB)
    {id : String} (hid : id ∈ patternIds P rows c) {z : Bytes}
    (hz : D.Encoded io rawA rawB id z) {j : ℕ} (hj : j < D.a.nData) :
    field z j ≡ (pattern j).toNat [MOD V.modulus] := by
  unfold patternIds at hid
  obtain ⟨p, hp, rfl⟩ := List.mem_map.1 hid
  obtain ⟨hp, hpattern⟩ := List.mem_filter.1 hp
  have hpattern : p.1 = generateData c.batchId c.nData := by simpa using hpattern
  obtain ⟨x, y, z', hx, hy, hz', hfield⟩ := pattern_encoded h (hs p) hpattern
  have hz'' : D.Encoded io rawA rawB (P.uuid p.2) z' := (encoded_iff hA hB hio huuid).2
    ⟨p, hp, by rw [hpattern]; rfl, rfl, x, y, hx, hy, hz'⟩
  obtain ⟨x₁, y₁, hx₁, hy₁, hz₁⟩ := hz
  obtain ⟨x₂, y₂, hx₂, hy₂, hz₂⟩ := hz''
  cases hx₁.unique (hA.ids (.inl rfl) huuid) hx₂
  cases hy₁.unique (hB.ids (.inr rfl) huuid) hy₂
  rw [← hfield j hj]
  exact L3.CliEndToEnd.encodes_field D.encode hz₁ hz₂ hj

/-- Both servers publish `n_rows - 1` times the pattern. -/
theorem batch_pattern (K : CommandLaws V io) (h : Fits D internal external c)
    (huuid : P.uuid.Injective) (hids : ((kept config nDropBatch).map Conf.batchId).Nodup)
    (hc : c ∈ kept config nDropBatch) (hbad : c.batchId ≠ "bad-id") (hrows : 1 < nRows)
    (hs : ∀ p, SharedAs L P internal external p (s p))
    (hA : Reads io P (testData config nRows nDropBatch) s "a" c.batchId rawA)
    (hB : Reads io P (testData config nRows nDropBatch) s "b" c.batchId rawB) (A B : Plan) :
    ∃ f e, batchStages L io A B D.a D.b rawA rawB = .ok f ∧ f.publishA = f.publishB ∧
      f.publishA = ⟨(List.range c.nData).map fun j =>
        (nRows - 1).toNat * (pattern j).toNat % V.modulus, some e,
        some (e + (nRows - 1).toNat)⟩ := by
  have hpattern : ∀ id, (∃ z, D.Encoded io rawA rawB id z) ↔
      id ∈ patternIds P (testData config nRows nDropBatch) c := fun _ =>
    encoded_pattern h K.io huuid hids hc hbad hs hA hB
  have hlen : (patternIds P (testData config nRows nDropBatch) c).length = (nRows - 1).toNat := by
    rw [length_patternIds, count_pattern hids hc hbad]
  -- one of the patterns keeps the verify commands from reading empty tables
  obtain ⟨id₀, hid₀⟩ : ∃ id₀, id₀ ∈ patternIds P (testData config nRows nDropBatch) c :=
    List.exists_mem_of_length_pos (by omega)
  obtain ⟨z₀, hz₀⟩ := (hpattern id₀).2 hid₀
  have huA := hA.ids (.inl rfl) huuid
  have huB := hB.ids (.inr rfl) huuid
  obtain ⟨v, hv, h₀A, h₀B⟩ := verifyStages_returns (A := A) (B := B) K huA huB hz₀
  have t := tables K.io K.setData K.packet K.stream D.openedA D.openedB huA huB hv
  obtain ⟨ids, client, e, f, hf, hnodup, hmem, hclient, -, hAB, hpub⟩ :=
    sumStages_returns K t h₀A h₀B
  have hperm : ids.Perm (patternIds P (testData config nRows nDropBatch) c) :=
    (List.perm_ext_iff_of_nodup hnodup (uuid_nodup huuid _ _)).2 fun id =>
      (hmem id).trans (hpattern id)
  refine ⟨f, e, ?_, hAB, ?_⟩
  · unfold batchStages
    rw [hv, ok_bind, hf]
  · rw [hpub, hperm.length_eq, hlen, h.nData]
    refine congrArg (fun xs => Published.mk xs _ _) (List.map_congr_left fun j hj => ?_)
    have hj : j < D.a.nData := h.nData ▸ List.mem_range.1 hj
    have hfield : ∀ id ∈ ids, field (client id) j ≡ (pattern j).toNat [MOD V.modulus] :=
      fun id hid => encoded_field h K.io huuid hs hA hB (hperm.mem_iff.1 hid) (hclient id hid) hj
    have hsum : (ids.map fun id => field (client id) j).sum ≡
        (ids.map fun _ => (pattern j).toNat).sum [MOD V.modulus] :=
      L3.CliEndToEnd.sum_modEq hfield
    rw [List.map_const', List.sum_replicate, hperm.length_eq, hlen, smul_eq_mul] at hsum
    exact hsum

end Publish

/-! ## The whole run -/

/-- The batch ids of the test data. -/
theorem mem_testData {config : List Conf} {nRows nDropBatch : ℤ} (hrows : 0 < nRows)
    {batch : String} : (∃ r ∈ testData config nRows nDropBatch, r.batchId = batch) ↔
      batch = "bad-id" ∨ ∃ c ∈ kept config nDropBatch, c.batchId = batch := by
  unfold testData
  constructor
  · intro h
    obtain ⟨r, hr, rfl⟩ := h
    rcases List.mem_append.1 hr with hr | hr
    · obtain ⟨c, hc, hr⟩ := List.mem_flatMap.1 hr
      exact .inr ⟨c, hc, (batchData_batchId hr).symm⟩
    · rw [List.eq_of_mem_replicate hr]
      exact .inl rfl
  · intro h
    rcases h with rfl | h
    · refine ⟨generateData "bad-id" 10, List.mem_append_right _ ?_, rfl⟩
      exact List.mem_replicate.2 ⟨by omega, rfl⟩
    · obtain ⟨c, hc, rfl⟩ := h
      refine ⟨generateData c.batchId (c.nData + 1), List.mem_append_left _ ?_, rfl⟩
      exact List.mem_flatMap.2 ⟨c, hc, List.mem_append_right _ (List.mem_singleton_self _)⟩

/-- The directories of a server. -/
theorem mem_output {P : GeneratePlan L} {rows : List TestRow} {s : TestRow × ℕ → Udf.Shares}
    {server batch : String} (hserver : server = "a" ∨ server = "b") :
    (∃ r ∈ (P.output.rows (sharedRows P rows s)).flatMap explode,
      r.serverId = server ∧ r.batchId = batch) ↔ ∃ r ∈ rows, r.batchId = batch := by
  have hshared : (∃ r ∈ sharedRows P rows s, r.batchId = batch) ↔
      ∃ r ∈ rows, r.batchId = batch := by
    constructor
    · intro h
      obtain ⟨r, hr, hbatch⟩ := h
      obtain ⟨p, hp, rfl⟩ := List.mem_map.1 hr
      exact ⟨p.1, List.fst_mem_of_mem_zipIdx hp, hbatch⟩
    · intro h
      obtain ⟨r, hr, hbatch⟩ := h
      rw [← List.zipIdx_map_fst 0 rows] at hr
      obtain ⟨p, hp, rfl⟩ := List.mem_map.1 hr
      exact ⟨_, List.mem_map_of_mem hp, hbatch⟩
  rw [← hshared]
  constructor
  · intro h
    obtain ⟨r, hr, -, hbatch⟩ := h
    obtain ⟨q, hq, hr⟩ := List.mem_flatMap.1 hr
    refine ⟨q, (P.output.rows_perm _).mem_iff.1 hq, ?_⟩
    simp only [explode, List.mem_cons, List.not_mem_nil, or_false] at hr
    rcases hr with rfl | rfl <;> exact hbatch
  · intro h
    obtain ⟨q, hq, rfl⟩ := h
    have hq := (P.output.rows_perm _).mem_iff.2 hq
    rcases hserver with rfl | rfl
    · exact ⟨_, List.mem_flatMap.2 ⟨q, hq, List.mem_cons_self⟩, rfl, rfl⟩
    · exact ⟨_, List.mem_flatMap.2 ⟨q, hq, .tail _ List.mem_cons_self⟩, rfl, rfl⟩

/-- The generator succeeds. Both servers have a directory for the kept batches
and for the unknown one, and no other; for every kept batch, in whatever order
its rows are read, the commands publish `n_rows - 1` times the pattern at both
servers. -/
theorem integration_publishes (K : CommandLaws V io) (P : GeneratePlan L)
    (huuid : P.uuid.Injective) (hkeys : Encodable L internal external) (config : List Conf)
    {nRows nPartitions : ℤ} (nDropBatch : ℤ) (hrows : 1 < nRows) (hparts : 1 ≤ nPartitions)
    (hids : ((kept config nDropBatch).map Conf.batchId).Nodup)
    (hbad : ∀ c ∈ kept config nDropBatch, c.batchId ≠ "bad-id") (D : Conf → Batch V)
    (hD : ∀ c ∈ kept config nDropBatch, Fits (D c) internal external c) :
    ∃ out, generateIntegration P internal external config nRows nPartitions nDropBatch = .ok out ∧
      (∀ server, server = "a" ∨ server = "b" → ∀ batch,
        (∃ r ∈ out, r.serverId = server ∧ r.batchId = batch) ↔
          batch = "bad-id" ∨ ∃ c ∈ kept config nDropBatch, c.batchId = batch) ∧
      ∀ c ∈ kept config nDropBatch, ∀ A B rawA rawB, rawA.Perm (rawOf io out "a" c.batchId) →
        rawB.Perm (rawOf io out "b" c.batchId) →
        ∃ f e, batchStages L io A B (D c).a (D c).b rawA rawB = .ok f ∧
          f.publishA = f.publishB ∧ f.publishA = ⟨(List.range c.nData).map fun j =>
            (nRows - 1).toNat * (pattern j).toNat % V.modulus, some e,
            some (e + (nRows - 1).toNat)⟩ := by
  have hpos : 0 < nRows := by omega
  obtain ⟨s, hs, hout⟩ := generateIntegration_ok hkeys P config nDropBatch hpos hparts
  refine ⟨_, hout, fun server hserver batch => ?_, fun c hc A B rawA rawB hA hB => ?_⟩
  · rw [mem_output hserver, mem_testData hpos]
  · exact batch_pattern K (hD c hc) huuid hids hc (hbad c hc) hrows hs hA hB A B

namespace Sample

open L7.Sample

/-- The batch "z" comes first and is dropped. -/
def config : List Conf := [⟨"b", 2⟩, ⟨"z", 5⟩]

def plan : GeneratePlan plain := ⟨.halves, fun k => ⟨UInt8.ofNat k, 7⟩, toString⟩

def stages : Spark.Plan := ⟨.halves, .whole, .halves, .whole⟩

theorem kept_config : kept config 1 = [⟨"b", 2⟩] := by decide +kernel

theorem encodable : Encodable plain [10] [20] := by
  refine ⟨⟨_, rfl⟩, fun config x coins e he => ?_⟩
  change Plain.clientEncode x coins = .error e at he
  unfold Plain.clientEncode at he
  split at he
  · split at he
    · cases he
    · cases he; rfl
  · cases he; rfl

theorem fits : Fits batch [10] [20] ⟨"b", 2⟩ := by
  refine ⟨by decide +kernel, rfl, rfl, rfl, L3.CliEndToEnd.Sample.plain_encodes,
    fun config _ x y z z' hz => ?_⟩
  -- the implementation encodes two fields
  obtain ⟨hvec, coins, hz⟩ := hz
  obtain ⟨u, v, rfl, -⟩ := (Plain.clientEncode_iff _ _ _ _).1 hz
  cases hvec.length

theorem integration_publishes_sample : ∃ out,
    generateIntegration plan [10] [20] config 10 2 1 = .ok out ∧
    ∃ f e, batchStages plain L2.Sample.io stages stages batch.a batch.b
      (rawOf L2.Sample.io out "a" "b") (rawOf L2.Sample.io out "b" "b") = .ok f ∧
      f.publishA = f.publishB ∧ f.publishA = ⟨[9, 0], some e, some (e + 9)⟩ := by
  have hmem : ∀ c ∈ kept config 1, c = ⟨"b", 2⟩ := fun c hc => by
    rw [kept_config] at hc
    exact List.mem_singleton.1 hc
  obtain ⟨out, hout, -, hpub⟩ := integration_publishes commandLaws plan Python.toString_injective
    encodable config 1 (show (1 : ℤ) < 10 by decide) (show (1 : ℤ) ≤ 2 by decide)
    (by rw [kept_config]; decide) (fun c hc => by rw [hmem c hc]; decide) (fun _ => batch)
    (fun c hc => by rw [hmem c hc]; exact fits)
  have hb : (⟨"b", 2⟩ : Conf) ∈ kept config 1 := by rw [kept_config]; decide
  exact ⟨out, hout, hpub _ hb _ _ _ _ (.refl _) (.refl _)⟩

end Sample

end PrioProcessor.L7.Integration
