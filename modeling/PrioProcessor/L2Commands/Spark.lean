import PrioProcessor.L2Commands.Udf

/-!
# The Spark commands

`verify1`, `verify2`, `aggregate` and `publish` of
`prio_processor/spark/commands.py`: the functions of `Udf` between a read of
JSON tables and a write of one. Tables are lists of rows; the order and the
partitions in which Spark stores and groups rows are a `Table.Shuffle` for
each stage. A table read from a directory without rows has no columns, and
naming one raises `AnalysisException` (`selectFrom`).

* `verify1_spec`, `verify2_spec`: which ids a verify command writes a packet
  for, and what the packet is.
* `mem_joinTables`, `joinTables_ids`: the joined table of verify2 and
  aggregate.
* `aggregate_eq`: the row aggregate writes, as sums over the joined table.
-/
namespace PrioProcessor.L2.Spark

open L1 Table

/-- Spark's conversions of binary columns: the functions `unbase64` and
`base64`, and what the JSON writer makes of a binary value. -/
structure SparkIo where
  unbase64 : String → Bytes
  base64 : Bytes → String
  binaryJson : Bytes → String

/-- `unbase64` reads back both encodings. -/
structure SparkIo.Law (io : SparkIo) : Prop where
  unbase64_base64 : ∀ b, io.unbase64 (io.base64 b) = b
  unbase64_binaryJson : ∀ b, io.unbase64 (io.binaryJson b) = b

/-- A row of a raw, verify1 or verify2 table. -/
structure Row where
  id : String
  payload : Option String
  deriving DecidableEq, Repr

/-- The row of an aggregate table. Its counters are columns of type `int`, which
hold the numbers below `2 ^ 31`. -/
structure TotalRow where
  payload : String
  error : ℕ
  total : ℕ
  deriving DecidableEq, Repr

/-- What aggregate writes, and the ids of the shares it added. -/
structure Aggregated where
  added : List String
  rows : List TotalRow
  deriving DecidableEq, Repr

/-- What publish writes. -/
structure Published where
  payload : List ℕ
  error : Option ℕ
  total : Option ℕ
  deriving DecidableEq, Repr

/-- The numbers of the row are in the range of its columns. -/
def TotalRow.Fits (r : TotalRow) : Prop := r.error < 2 ^ 31 ∧ r.total < 2 ^ 31

/-- The numbers of the record are in the range of its columns, `array<int>` and
`int`. -/
structure Published.Fits (p : Published) : Prop where
  payload : ∀ n ∈ p.payload, n < 2 ^ 31
  error : ∀ n ∈ p.error, n < 2 ^ 31
  total : ∀ n ∈ p.total, n < 2 ^ 31

/-- Naming a column of a table read from JSON. -/
def selectFrom {α : Type} (rows : List α) : Except PyExc (List α) :=
  if rows.isEmpty then .error .analysisException else .ok rows

/-- `unbase64` of a column that may be null. -/
def SparkIo.column (io : SparkIo) (row : Row) : Option Bytes := row.payload.map io.unbase64

/-- The rows whose payload is not null, as they are written.
mirrors prio_processor/spark/commands.py:282-284,334-335 -/
def writeValid (io : SparkIo) (ids : List String) (payloads : List (Option Bytes)) : List Row :=
  (ids.zip payloads).filterMap fun p => p.2.map fun q => ⟨p.1, some (io.binaryJson q)⟩

/-- The inner join of shares, internal and external on the id.
mirrors prio_processor/spark/commands.py:314-316,375-382 -/
def joinTables (io : SparkIo) (shares internal external : List Row) : List Udf.Joined :=
  (join (fun p => p.1.id) Row.id (join Row.id Row.id shares internal) external).map fun p =>
    ⟨p.1.1.id, io.column p.1.1, io.column p.1.2, io.column p.2⟩

/-- The least element of a list, for a test of `≤`. -/
def minBy {α : Type} (le : α → α → Bool) : List α → Option α
  | [] => none
  | x :: xs => some (xs.foldl (fun m y => if le m y then m else y) x)

/-- Bytes in lexicographic order. -/
def leBytes : Bytes → Bytes → Bool
  | [], _ => true
  | _ :: _, [] => false
  | a :: as, b :: bs => if a = b then leBytes as bs else a < b

section Commands

variable (L : Libprio) (io : SparkIo)

/-- mirrors prio_processor/spark/commands.py:251-284 -/
def verify1 (S : Shuffle Row) (a : Args) (input : List Row) : Except PyExc (List Row) := do
  let sharedSecret ← pyB64decode a.sharedSecret
  let rows ← selectFrom input
  let payloads ← Udf.verify1 L a sharedSecret (rows.map io.column)
  pure (S.rows (writeValid io (rows.map Row.id) payloads))

/-- mirrors prio_processor/spark/commands.py:294-335 -/
def verify2 (S : Shuffle Row) (a : Args) (input inputInternal inputExternal : List Row) :
    Except PyExc (List Row) := do
  let shares ← selectFrom input
  let internal ← selectFrom inputInternal
  let external ← selectFrom inputExternal
  let sharedSecret ← pyB64decode a.sharedSecret
  let df := joinTables io shares internal external
  let payloads ← Udf.verify2 L a sharedSecret df
  pure (S.rows (writeValid io (df.map Udf.Joined.id) payloads))

/-- A grouped map over no rows has no groups.
mirrors prio_processor/spark/commands.py:345-394 -/
def aggregate (S : Shuffle Udf.Joined) (T : Shuffle Udf.Partial) (a : Args)
    (input inputInternal inputExternal : List Row) : Except PyExc Aggregated := do
  let sharedSecret ← pyB64decode a.sharedSecret
  let shares ← selectFrom input
  let internal ← selectFrom inputInternal
  let external ← selectFrom inputExternal
  let partials ← (S.groups (joinTables io shares internal external)).mapM
    (Udf.aggregate L a sharedSecret)
  if partials.isEmpty then pure ⟨[], []⟩
  else
    let total ← Udf.totalShare L a sharedSecret (T.rows partials)
    pure ⟨total.added, [⟨io.base64 total.payload, total.error, total.total⟩]⟩

/-- The pivot takes the minimum of each column among the internal and among
the external rows.
mirrors prio_processor/spark/commands.py:403-447 -/
def publish (a : Args) (inputInternal inputExternal : List TotalRow) : Except PyExc Published := do
  let internal ← selectFrom inputInternal
  let external ← selectFrom inputExternal
  let _ ← pyB64decode a.sharedSecret
  let payload ← Udf.publishProcess L a
    (minBy leBytes (internal.map fun r => io.unbase64 r.payload))
    (minBy leBytes (external.map fun r => io.unbase64 r.payload))
  pure ⟨payload, minBy Nat.ble (internal.map TotalRow.error),
    minBy Nat.ble (internal.map TotalRow.total)⟩

end Commands

/-! ## Both servers -/

/-- Spark's choices at one server. -/
structure Plan where
  verify1 : Shuffle Row
  verify2 : Shuffle Row
  joined : Shuffle Udf.Joined
  partials : Shuffle Udf.Partial

/-- The verify tables of one batch at both servers. -/
structure Verified where
  verify1A : List Row
  verify1B : List Row
  verify2A : List Row
  verify2B : List Row
  deriving DecidableEq, Repr

/-- The aggregate and publish tables of one batch at both servers. -/
structure Summed where
  aggregateA : Aggregated
  aggregateB : Aggregated
  publishA : Published
  publishB : Published
  deriving DecidableEq, Repr

/-- verify1 and verify2 at server A and at server B, each with the other's
output as its external input. -/
def verifyStages (L : Libprio) (io : SparkIo) (A B : Plan) (a b : Args) (rawA rawB : List Row) :
    Except PyExc Verified := do
  let verify1A ← verify1 L io A.verify1 a rawA
  let verify1B ← verify1 L io B.verify1 b rawB
  let verify2A ← verify2 L io A.verify2 a rawA verify1A verify1B
  let verify2B ← verify2 L io B.verify2 b rawB verify1B verify1A
  pure ⟨verify1A, verify1B, verify2A, verify2B⟩

/-- aggregate and publish at both servers. -/
def sumStages (L : Libprio) (io : SparkIo) (A B : Plan) (a b : Args) (rawA rawB : List Row)
    (v : Verified) : Except PyExc Summed := do
  let aggregateA ← aggregate L io A.joined A.partials a rawA v.verify2A v.verify2B
  let aggregateB ← aggregate L io B.joined B.partials b rawB v.verify2B v.verify2A
  let publishA ← publish L io a aggregateA.rows aggregateB.rows
  let publishB ← publish L io b aggregateB.rows aggregateA.rows
  pure ⟨aggregateA, aggregateB, publishA, publishB⟩

theorem verifyStages_ok {L : Libprio} {io : SparkIo} {A B : Plan} {a b : Args}
    {rawA rawB : List Row} {v : Verified} (h : verifyStages L io A B a b rawA rawB = .ok v) :
    verify1 L io A.verify1 a rawA = .ok v.verify1A ∧
    verify1 L io B.verify1 b rawB = .ok v.verify1B ∧
    verify2 L io A.verify2 a rawA v.verify1A v.verify1B = .ok v.verify2A ∧
    verify2 L io B.verify2 b rawB v.verify1B v.verify1A = .ok v.verify2B := by
  unfold verifyStages at h
  cases h₁ : verify1 L io A.verify1 a rawA with
  | error e => rw [h₁] at h; cases h
  | ok v1A =>
    cases h₂ : verify1 L io B.verify1 b rawB with
    | error e => rw [h₁, h₂] at h; cases h
    | ok v1B =>
      rw [h₁, h₂, ok_bind, ok_bind] at h
      cases h₃ : verify2 L io A.verify2 a rawA v1A v1B with
      | error e => rw [h₃] at h; cases h
      | ok v2A =>
        cases h₄ : verify2 L io B.verify2 b rawB v1B v1A with
        | error e => rw [h₃, h₄] at h; cases h
        | ok v2B =>
          rw [h₃, h₄] at h
          cases h
          exact ⟨rfl, rfl, h₃, h₄⟩

theorem sumStages_parts {L : Libprio} {io : SparkIo} {A B : Plan} {a b : Args}
    {rawA rawB : List Row} {v : Verified} {f : Summed}
    (h : sumStages L io A B a b rawA rawB v = .ok f) :
    aggregate L io A.joined A.partials a rawA v.verify2A v.verify2B = .ok f.aggregateA ∧
    aggregate L io B.joined B.partials b rawB v.verify2B v.verify2A = .ok f.aggregateB ∧
    publish L io a f.aggregateA.rows f.aggregateB.rows = .ok f.publishA ∧
    publish L io b f.aggregateB.rows f.aggregateA.rows = .ok f.publishB := by
  obtain ⟨gA, h₁, h⟩ := bind_ok h
  obtain ⟨gB, h₂, h⟩ := bind_ok h
  obtain ⟨pA, h₃, h⟩ := bind_ok h
  obtain ⟨pB, h₄, h⟩ := bind_ok h
  cases h
  exact ⟨h₁, h₂, h₃, h₄⟩

theorem sumStages_ok {L : Libprio} {io : SparkIo} {A B : Plan} {a b : Args} {rawA rawB : List Row}
    {v : Verified} {gA gB : Aggregated} {pA pB : Published}
    (h₁ : aggregate L io A.joined A.partials a rawA v.verify2A v.verify2B = .ok gA)
    (h₂ : aggregate L io B.joined B.partials b rawB v.verify2B v.verify2A = .ok gB)
    (h₃ : publish L io a gA.rows gB.rows = .ok pA) (h₄ : publish L io b gB.rows gA.rows = .ok pB) :
    sumStages L io A B a b rawA rawB v = .ok ⟨gA, gB, pA, pB⟩ := by
  unfold sumStages
  simp only [h₁, h₂, h₃, h₄, ok_bind]
  rfl

/-! ## Tables -/

/-- `p` is the payload, as bytes, of a row of the table with the given id. -/
def Carries (io : SparkIo) (rows : List Row) (id : String) (p : Bytes) : Prop :=
  ∃ r ∈ rows, r.id = id ∧ io.column r = some p

theorem Carries.unique {io : SparkIo} {rows : List Row} (hd : (rows.map Row.id).Nodup) {id : String}
    {p q : Bytes} (hp : Carries io rows id p) (hq : Carries io rows id q) : p = q := by
  obtain ⟨r, hr, hrid, hrp⟩ := hp
  obtain ⟨s, hs, hsid, hsq⟩ := hq
  rw [List.inj_on_of_nodup_map hd hr hs (hrid.trans hsid.symm), hsq] at hrp
  exact (Option.some.inj hrp).symm

theorem mem_joinTables {io : SparkIo} {shares internal external : List Row} {row : Udf.Joined} :
    row ∈ joinTables io shares internal external ↔ ∃ x ∈ shares, ∃ y ∈ internal, ∃ z ∈ external,
      y.id = x.id ∧ z.id = x.id ∧ row = ⟨x.id, io.column x, io.column y, io.column z⟩ := by
  unfold joinTables
  rw [List.mem_map]
  constructor
  · rintro ⟨⟨⟨x, y⟩, z⟩, h, rfl⟩
    obtain ⟨hxy, hz, hzx⟩ := mem_join.1 h
    obtain ⟨hx, hy, hyx⟩ := mem_join.1 hxy
    exact ⟨x, hx, y, hy, z, hz, hyx, hzx, rfl⟩
  · rintro ⟨x, hx, y, hy, z, hz, hyx, hzx, rfl⟩
    exact ⟨⟨⟨x, y⟩, z⟩, mem_join.2 ⟨mem_join.2 ⟨hx, hy, hyx⟩, hz, hzx⟩, rfl⟩

theorem joinTables_ne_nil {io : SparkIo} {shares internal external : List Row}
    (h : joinTables io shares internal external ≠ []) :
    shares ≠ [] ∧ internal ≠ [] ∧ external ≠ [] := by
  obtain ⟨row, hrow⟩ := List.exists_mem_of_ne_nil _ h
  obtain ⟨x, hx, y, hy, z, hz, -⟩ := mem_joinTables.1 hrow
  exact ⟨List.ne_nil_of_mem hx, List.ne_nil_of_mem hy, List.ne_nil_of_mem hz⟩

/-- With distinct ids in the packet tables every share is joined at most
once. -/
theorem joinTables_ids (io : SparkIo) {shares internal external : List Row}
    (hi : (internal.map Row.id).Nodup) (he : (external.map Row.id).Nodup) :
    ((joinTables io shares internal external).map Udf.Joined.id).Sublist (shares.map Row.id) := by
  have h₁ := join_keys_sublist Row.id shares hi
  have h₂ := join_keys_sublist (fun p : Row × Row => p.1.id)
    (join Row.id Row.id shares internal) he
  unfold joinTables
  rw [List.map_map]
  exact h₂.trans h₁

/-- An id is added when its share and its two packets pass. -/
theorem mem_added_iff {L : Libprio} {V : L1.View L} {i : Ident L} {io : SparkIo}
    {shares internal external : List Row} {id : String} :
    id ∈ ((joinTables io shares internal external).filter (Udf.accepts V i)).map Udf.Joined.id ↔
      ∃ b x y, Carries io shares id b ∧ Carries io internal id x ∧ Carries io external id y ∧
        V.decodes i b = true ∧ V.reads2 x = true ∧ V.reads2 y = true ∧ V.valid x y = true := by
  constructor
  · intro h
    obtain ⟨row, hrow, rfl⟩ := List.mem_map.1 h
    obtain ⟨hm, hacc⟩ := List.mem_filter.1 hrow
    obtain ⟨b, x, y, hb, hx, hy, hv⟩ := Udf.accepts_iff.1 hacc
    obtain ⟨r, hr, s, hs, t, ht, hsr, htr, rfl⟩ := mem_joinTables.1 hm
    exact ⟨b, x, y, ⟨r, hr, rfl, hb⟩, ⟨s, hs, hsr, hx⟩, ⟨t, ht, htr, hy⟩, hv⟩
  · rintro ⟨b, x, y, ⟨r, hr, rfl, hb⟩, ⟨s, hs, hsr, hx⟩, ⟨t, ht, htr, hy⟩, hv⟩
    exact List.mem_map.2 ⟨_, List.mem_filter.2 ⟨mem_joinTables.2
      ⟨r, hr, s, hs, t, ht, hsr, htr, rfl⟩, Udf.accepts_iff.2 ⟨b, x, y, hb, hx, hy, hv⟩⟩, rfl⟩

theorem selectFrom_ok {α : Type} {rows : List α} (h : rows ≠ []) : selectFrom rows = .ok rows := by
  unfold selectFrom
  rw [if_neg (by simpa using h)]

theorem selectFrom_eq_ok {α : Type} {rows out : List α} (h : selectFrom rows = .ok out) :
    out = rows ∧ rows ≠ [] := by
  unfold selectFrom at h
  split at h
  · cases h
  · rename_i hne
    cases h
    exact ⟨rfl, fun hnil => hne (by rw [hnil]; rfl)⟩

theorem mem_writeValid {α : Type} {io : SparkIo} {rows : List α} {id : α → String}
    {f : α → Option Bytes} {y : Row} : y ∈ writeValid io (rows.map id) (rows.map f) ↔
      ∃ r ∈ rows, ∃ q, f r = some q ∧ y = ⟨id r, some (io.binaryJson q)⟩ := by
  unfold writeValid
  rw [List.zip_map', List.filterMap_map, List.mem_filterMap]
  constructor
  · rintro ⟨r, hr, h⟩
    obtain ⟨q, hq, rfl⟩ := Option.map_eq_some_iff.1 h
    exact ⟨r, hr, q, hq, rfl⟩
  · rintro ⟨r, hr, q, hq, rfl⟩
    exact ⟨r, hr, by simp [hq]⟩

theorem writeValid_ids {α : Type} (io : SparkIo) (rows : List α) (id : α → String)
    (f : α → Option Bytes) :
    ((writeValid io (rows.map id) (rows.map f)).map Row.id).Sublist (rows.map id) := by
  unfold writeValid
  rw [List.zip_map', List.filterMap_map]
  induction rows with
  | nil => exact .slnil
  | cons r rows ih =>
    cases hf : f r with
    | none =>
      rw [List.filterMap_cons_none (by simp [hf])]
      exact ih.cons _
    | some q =>
      rw [List.filterMap_cons_some (b := ⟨id r, some (io.binaryJson q)⟩) (by simp [hf])]
      exact ih.cons_cons _

theorem countP_writeValid {α : Type} (io : SparkIo) (rows : List α) (id : α → String)
    (f : α → Option Bytes) (k : String) :
    (writeValid io (rows.map id) (rows.map f)).countP (fun y => y.id = k) =
      rows.countP fun r => id r = k && (f r).isSome := by
  unfold writeValid
  rw [List.zip_map', List.filterMap_map]
  induction rows with
  | nil => rfl
  | cons r rows ih =>
    cases hf : f r with
    | none =>
      rw [List.filterMap_cons_none (by simp [hf]), ih, List.countP_cons_of_neg (by simp [hf])]
    | some q =>
      rw [List.filterMap_cons_some (b := ⟨id r, some (io.binaryJson q)⟩) (by simp [hf]),
        List.countP_cons, List.countP_cons, ih]
      simp [hf]

/-! ## The commands -/

variable {L : Libprio} {V : L1.View L} {io : SparkIo}

section Opened

variable {a : Args} (o : Opened L a)

theorem secret_eq : pyB64decode a.sharedSecret = .ok o.seed := by
  unfold pyB64decode; rw [o.secret]

theorem verify1_eq (hS : V.SetDataLaw) (hP : V.PacketLaw) (S : Shuffle Row) {raw : List Row}
    (hraw : raw ≠ []) : verify1 L io S a raw =
      .ok (S.rows (writeValid io (raw.map Row.id) (raw.map fun r =>
        Udf.verify1Value o (io.column r)))) := by
  unfold verify1
  simp only [secret_eq o, selectFrom_ok hraw, ok_bind, Udf.verify1_eq o hS hP, List.map_map]
  rfl

theorem verify2_eq (hS : V.SetDataLaw) (hP : V.PacketLaw) (S : Shuffle Row)
    {raw vi ve : List Row} (hraw : raw ≠ []) (hvi : vi ≠ []) (hve : ve ≠ []) :
    verify2 L io S a raw vi ve =
      .ok (S.rows (writeValid io ((joinTables io raw vi ve).map Udf.Joined.id)
        ((joinTables io raw vi ve).map (Udf.verify2Value o)))) := by
  unfold verify2
  simp only [secret_eq o, selectFrom_ok hraw, selectFrom_ok hvi, selectFrom_ok hve, ok_bind,
    Udf.verify2_eq o hS hP]
  rfl

/-- A verify command that completes has read no empty table. -/
theorem verify1_ok {S : Shuffle Row} {raw out : List Row} (h : verify1 L io S a raw = .ok out) :
    raw ≠ [] := by
  unfold verify1 at h
  cases hb : pyB64decode a.sharedSecret with
  | error e => rw [hb] at h; cases h
  | ok secret =>
    cases hs : selectFrom raw with
    | error e => rw [hb, hs] at h; cases h
    | ok rows => exact (selectFrom_eq_ok hs).2

theorem verify2_ok {S : Shuffle Row} {raw vi ve out : List Row}
    (h : verify2 L io S a raw vi ve = .ok out) : raw ≠ [] ∧ vi ≠ [] ∧ ve ≠ [] := by
  unfold verify2 at h
  cases hs : selectFrom raw with
  | error e => rw [hs] at h; cases h
  | ok rows =>
    cases hi : selectFrom vi with
    | error e => rw [hs, hi] at h; cases h
    | ok vi' =>
      cases he : selectFrom ve with
      | error e => rw [hs, hi, he] at h; cases h
      | ok ve' => exact ⟨(selectFrom_eq_ok hs).2, (selectFrom_eq_ok hi).2, (selectFrom_eq_ok he).2⟩

/-- The packets in verify1's output are those of the rows whose share decodes. -/
structure Spec1 (V : L1.View L) (io : SparkIo) (o : Opened L a) (raw out : List Row) : Prop where
  ids : (out.map Row.id).Nodup
  made : ∀ id q, Carries io out id q → ∃ b, Carries io raw id b ∧ V.decodes o.ident b = true ∧
    V.Made1 ⟨o.ident, b, Udf.point V o⟩ q
  live : V.LiveLaw → ∀ id b, Carries io raw id b → V.decodes o.ident b = true →
    ∃ q, Carries io out id q

theorem carries_writeValid (hio : io.Law) {α : Type} (S : Shuffle Row) {rows : List α}
    {key : α → String} {f : α → Option Bytes} {id : String} {q : Bytes} :
    Carries io (S.rows (writeValid io (rows.map key) (rows.map f))) id q ↔
      ∃ r ∈ rows, key r = id ∧ f r = some q := by
  unfold Carries
  constructor
  · rintro ⟨y, hy, rfl, hq⟩
    obtain ⟨r, hr, q', hf, rfl⟩ := mem_writeValid.1 ((S.rows_perm _).mem_iff.1 hy)
    have : io.unbase64 (io.binaryJson q') = q := Option.some.inj hq
    rw [hio.unbase64_binaryJson] at this
    exact ⟨r, hr, rfl, this ▸ hf⟩
  · rintro ⟨r, hr, rfl, hf⟩
    refine ⟨_, (S.rows_perm _).mem_iff.2 (mem_writeValid.2 ⟨r, hr, q, hf, rfl⟩), rfl, ?_⟩
    exact congrArg some (hio.unbase64_binaryJson q)

theorem verify1_spec (hio : io.Law) (hS : V.SetDataLaw) (hP : V.PacketLaw) (hR : V.StreamLaw)
    {S : Shuffle Row} {raw out : List Row} (hu : (raw.map Row.id).Nodup)
    (h : verify1 L io S a raw = .ok out) : Spec1 V io o raw out := by
  rw [verify1_eq o hS hP S (verify1_ok h)] at h
  have h := Except.ok.inj h
  subst h
  refine ⟨?_, fun id q hq => ?_, fun hL id b hb hd => ?_⟩
  · exact (((S.rows_perm _).map Row.id).nodup_iff).2 (hu.sublist (writeValid_ids io _ _ _))
  · obtain ⟨r, hr, hid, hv⟩ := (carries_writeValid hio S).1 hq
    obtain ⟨b, hb, hd, hm⟩ := Udf.verify1Value_some o hS hP hR hv
    exact ⟨b, ⟨r, hr, hid, hb⟩, hd, hm⟩
  · obtain ⟨r, hr, hid, hb⟩ := hb
    obtain ⟨q, hq⟩ := Udf.verify1Value_live o hS hP hL hd
    exact ⟨q, (carries_writeValid hio S).2 ⟨r, hr, hid, by rw [hb]; exact hq⟩⟩

/-- The packets in verify2's output were made of a share and of the two verify1
packets of its id. -/
structure Spec2 (V : L1.View L) (io : SparkIo) (o : Opened L a) (raw vi ve out : List Row) :
    Prop where
  ids : (out.map Row.id).Nodup
  valid : ∀ r ∈ out, ∃ q, io.column r = some q
  made : ∀ id q, Carries io out id q → ∃ b x y, Carries io raw id b ∧ Carries io vi id x ∧
    Carries io ve id y ∧ V.decodes o.ident b = true ∧ V.Made2 ⟨o.ident, b, Udf.point V o⟩ x y q
  live : V.LiveLaw → ∀ id b x y, Carries io raw id b → Carries io vi id x → Carries io ve id y →
    V.decodes o.ident b = true → V.reads1 x = true → V.reads1 y = true →
    ∃ q, Carries io out id q

theorem verify2_spec (hio : io.Law) (hS : V.SetDataLaw) (hP : V.PacketLaw) (hR : V.StreamLaw)
    {S : Shuffle Row} {raw vi ve out : List Row} (hu : (raw.map Row.id).Nodup)
    (hi : (vi.map Row.id).Nodup) (he : (ve.map Row.id).Nodup)
    (h : verify2 L io S a raw vi ve = .ok out) : Spec2 V io o raw vi ve out := by
  obtain ⟨hraw, hvi, hve⟩ := verify2_ok h
  rw [verify2_eq o hS hP S hraw hvi hve] at h
  have h := Except.ok.inj h
  subst h
  refine ⟨?_, fun r hr => ?_, fun id q hq => ?_,
    fun hL id b x y hb hcx hcy hd hrx hry => ?_⟩
  · exact (((S.rows_perm _).map Row.id).nodup_iff).2
      ((hu.sublist (joinTables_ids io hi he)).sublist (writeValid_ids io _ _ _))
  · obtain ⟨row, -, q, -, rfl⟩ := mem_writeValid.1 ((S.rows_perm _).mem_iff.1 hr)
    exact ⟨_, rfl⟩
  · obtain ⟨row, hrow, hid, hv⟩ := (carries_writeValid hio S).1 hq
    obtain ⟨r, hr, y, hy, z, hz, hyr, hzr, rfl⟩ := mem_joinTables.1 hrow
    obtain ⟨b, x, w, hb, hx, hw, hd, hm⟩ := Udf.verify2Value_some o hS hP hR hv
    exact ⟨b, x, w, ⟨r, hr, hid, hb⟩, ⟨y, hy, hyr.trans hid, hx⟩, ⟨z, hz, hzr.trans hid, hw⟩, hd,
      hm⟩
  · obtain ⟨r, hr, hid, hb⟩ := hb
    obtain ⟨rx, hmx, hidx, hbx⟩ := hcx
    obtain ⟨ry, hmy, hidy, hby⟩ := hcy
    have hopens : Udf.opens V o.ident ⟨r.id, io.column r, io.column rx, io.column ry⟩ = true := by
      unfold Udf.opens
      rw [hb, hbx, hby]
      simp only [hd, hrx, hry, Bool.and_self]
    obtain ⟨q, hq⟩ := Udf.verify2Value_live o hS hP hL hopens
    exact ⟨q, (carries_writeValid hio S).2 ⟨_, mem_joinTables.2
      ⟨r, hr, rx, hmx, ry, hmy, hidx.trans hid.symm, hidy.trans hid.symm, rfl⟩, hid, hq⟩⟩

/-! ## aggregate -/

/-- On tables with a common id `aggregate` writes one row: the sum of the
accepted shares of the joined table, whatever its partitions. -/
theorem aggregate_eq (hS : V.SetDataLaw) (hA : V.AggregateLaw) (hM : V.MergeLaw) (hT : V.TotalLaw)
    (S : Shuffle Udf.Joined) (T : Shuffle Udf.Partial) {raw vi ve : List Row}
    (hne : joinTables io raw vi ve ≠ []) : ∃ w added,
      V.WrittenTotal (a.serverId, Udf.shareSum V o.ident (joinTables io raw vi ve)) w ∧
      added.Perm (((joinTables io raw vi ve).filter (Udf.accepts V o.ident)).map Udf.Joined.id) ∧
      aggregate L io S T a raw vi ve = .ok ⟨added, [⟨io.base64 w,
        (joinTables io raw vi ve).countP fun row => !Udf.accepts V o.ident row,
        (joinTables io raw vi ve).length⟩]⟩ := by
  obtain ⟨partials, hmapM, hlen, hps⟩ := Udf.totalShare_groups o hS
    (Udf.rowLaw hS hA.content o.config o.ident) hM hT (S.groups_perm (joinTables io raw vi ve))
  obtain ⟨w, added, hw, hadded, htotal⟩ := hps _ (T.rows_perm partials)
  rw [← Udf.shareSum_eq_returnedSum] at hw
  rw [← Udf.accepts_eq] at hadded htotal
  have hpartials : partials ≠ [] := by
    intro h
    rw [h] at hlen
    exact S.groups_ne_nil hne (List.length_eq_zero_iff.1 hlen.symm)
  have hempty : partials.isEmpty = false := by simpa using hpartials
  refine ⟨w, added, hw, hadded, ?_⟩
  obtain ⟨hraw, hvi, hve⟩ := joinTables_ne_nil hne
  unfold aggregate
  simp only [secret_eq o, selectFrom_ok hraw, selectFrom_ok hvi, selectFrom_ok hve, ok_bind, hmapM,
    hempty, htotal]
  rfl

theorem aggregate_nil {S : Shuffle Udf.Joined} {T : Shuffle Udf.Partial} {raw vi ve : List Row}
    (hnil : joinTables io raw vi ve = []) {g : Aggregated}
    (h : aggregate L io S T a raw vi ve = .ok g) : g = ⟨[], []⟩ := by
  unfold aggregate at h
  cases hb : pyB64decode a.sharedSecret with
  | error e => rw [hb] at h; cases h
  | ok secret =>
    cases hs : selectFrom raw with
    | error e => rw [hb, hs] at h; cases h
    | ok raw' =>
      cases hi : selectFrom vi with
      | error e => rw [hb, hs, hi] at h; cases h
      | ok vi' =>
        cases he : selectFrom ve with
        | error e => rw [hb, hs, hi, he] at h; cases h
        | ok ve' =>
          rw [hb, hs, hi, he, (selectFrom_eq_ok hs).1, (selectFrom_eq_ok hi).1,
            (selectFrom_eq_ok he).1] at h
          simp only [ok_bind, hnil, Shuffle.groups_nil] at h
          cases h; rfl

include o in
/-- With distinct ids in the packet tables the counters are at most the number
of raw shares. -/
theorem aggregate_counts_le (hS : V.SetDataLaw) (hA : V.AggregateLaw) (hM : V.MergeLaw)
    (hT : V.TotalLaw) {S : Shuffle Udf.Joined} {T : Shuffle Udf.Partial} {raw vi ve : List Row}
    (hi : (vi.map Row.id).Nodup) (he : (ve.map Row.id).Nodup) {g : Aggregated}
    (h : aggregate L io S T a raw vi ve = .ok g) :
    ∀ r ∈ g.rows, r.error ≤ raw.length ∧ r.total ≤ raw.length := by
  intro r hr
  by_cases hne : joinTables io raw vi ve = []
  · rw [aggregate_nil hne h] at hr
    cases hr
  · obtain ⟨w, added, -, -, hg⟩ := aggregate_eq o hS hA hM hT S T hne
    cases hg.symm.trans h
    rw [List.mem_singleton.1 hr]
    have hlen : (joinTables io raw vi ve).length ≤ raw.length := by
      simpa using (joinTables_ids io hi he).length_le
    exact ⟨List.countP_le_length.trans hlen, hlen⟩

end Opened

/-! ## publish -/

/-- On one row from each server `publish` opens the two totals, at server A and
at server B. -/
theorem publish_eq (hio : io.Law) (hC : View.ConfigLaw L) (hT : V.TotalLaw) {a b : Args}
    (oA : Opened L a) (oB : Opened L b) (ha : a.serverId = .A) (hb : b.serverId = .B)
    (hn : b.nData = a.nData) {wA wB : Bytes} {g h : ℕ → ZMod V.modulus}
    (hA : V.WrittenTotal (.A, g) wA) (hB : V.WrittenTotal (.B, h) wB) (eA tA eB tB : ℕ) :
    publish L io a [⟨io.base64 wA, eA, tA⟩] [⟨io.base64 wB, eB, tB⟩] =
      .ok ⟨(List.range a.nData).map fun j => (g j + h j).val, some eA, some tA⟩ ∧
    publish L io b [⟨io.base64 wB, eB, tB⟩] [⟨io.base64 wA, eA, tA⟩] =
      .ok ⟨(List.range a.nData).map fun j => (g j + h j).val, some eB, some tB⟩ := by
  have hfA := (finalCalls_eq hT oA.config hA hB).1
  have hfB := (finalCalls_eq hT oB.config hA hB).2
  have hcA : L.prioConfigNumDataFields oA.config = a.nData := hC _ _ _ _
  have hcB : L.prioConfigNumDataFields oB.config = a.nData := (hC _ _ _ _).trans hn
  rw [hcA] at hfA
  rw [hcB] at hfB
  have hpA : Udf.publishProcess L a (some wA) (some wB) =
      .ok ((List.range a.nData).map fun j => (g j + h j).val) := by
    unfold Udf.publishProcess
    rw [oA.keys, ha]
    exact hfA
  have hpB : Udf.publishProcess L b (some wB) (some wA) =
      .ok ((List.range a.nData).map fun j => (g j + h j).val) := by
    unfold Udf.publishProcess
    rw [oB.keys, hb]
    exact hfB
  have hsel : ∀ r : TotalRow, selectFrom [r] = .ok [r] := fun r => rfl
  have hmin : ∀ w : Bytes, minBy leBytes [w] = some w := fun w => rfl
  constructor
  · unfold publish
    simp only [hsel, ok_bind, secret_eq oA, List.map_cons, List.map_nil, hio.unbase64_base64,
      hmin, hpA]
    rfl
  · unfold publish
    simp only [hsel, ok_bind, secret_eq oB, List.map_cons, List.map_nil, hio.unbase64_base64,
      hmin, hpB]
    rfl

end PrioProcessor.L2.Spark

namespace PrioProcessor.L2.Sample

/-- Spark's conversions, with the encodings of `Base64`. -/
def io : Spark.SparkIo := ⟨fun s => (b64decode s).getD [], b64encode, b64encode⟩

theorem io_law : io.Law where
  unbase64_base64 b := by
    change (b64decode (b64encode b)).getD [] = b
    rw [b64decode_b64encode]; rfl
  unbase64_binaryJson b := by
    change (b64decode (b64encode b)).getD [] = b
    rw [b64decode_b64encode]; rfl

end PrioProcessor.L2.Sample
