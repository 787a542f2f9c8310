import PrioProcessor.L2Commands.Rounds
import PrioProcessor.Core.Table

/-!
# The command-line tools

`prio verify1`, `verify2`, `aggregate` and `publish`
(`prio_processor/prio/commands.py`). A command keeps one server, one verifier
and its packets for a whole file; verify2 and aggregate look the packets of a
row up in two dictionaries from ids to payloads.

The argument files are lists of JSON lines with the fields the commands read.
An exception that the row loop does not catch ends the command; verify1 and
verify2 have written the rows before it by then (`Written.ended`).

* `verify1_file`, `verify2_file`: what the output files hold.
* `aggregate_eq`: the output of aggregate, as sums over the accepted rows.
-/
namespace PrioProcessor.L2.Cli

open L1

/-- A line of a raw, verify1 or verify2 file. -/
structure Datum where
  id : String
  payload : String
  deriving DecidableEq, Repr

/-- What a verify command leaves: its output file, its counters, and how its
loop ended. -/
structure Written where
  ended : Except PyExc Unit
  lines : List Datum
  error : ℕ
  total : ℕ

/-- What the loop of a verify command leaves. -/
def Written.of {σ : Type} (r : Except PyExc Unit × Loop σ Datum) : Written :=
  ⟨r.1, r.2.out, r.2.error, r.2.total⟩

/-- The output file of a command that ended normally. -/
def Written.file (w : Written) : Except PyExc (List Datum) := do
  w.ended
  pure w.lines

/-- The line `aggregate` writes. -/
structure Total where
  payload : String
  error : ℕ
  total : ℕ
  deriving DecidableEq, Repr

/-- `added` are the ids of the rows that reached the end of the `try` block,
where `PrioServer_aggregate` returned. -/
structure Aggregated where
  added : List String
  share : Total
  deriving DecidableEq, Repr

/-- `index[id]` of `{d["id"]: d["payload"] for d in ds}`.
mirrors prio_processor/prio/commands.py:209-210,288-289 -/
def index (ds : List Datum) (id : String) : Except PyExc String :=
  match Table.lookup Datum.id ds id with
  | some d => .ok d.payload
  | none => .error .keyError

/-- `except RuntimeError` -/
def catchesRuntime (e : PyExc) : Bool := e = .runtimeError

/-- `except (RuntimeError, KeyError)` -/
def catchesRuntimeKey (e : PyExc) : Bool := e = .runtimeError || e = .keyError

section Commands

variable (L : Libprio)

/-- mirrors prio_processor/prio/commands.py:149-155 -/
def verify1Row (datum : Datum) : Eff PyExc (Round1 L) Datum := do
  let share ← Eff.lift (pyB64decode datum.payload)
  let packetData ← verify1Calls L (some share)
  pure { datum with payload := b64encode packetData }

/-- mirrors prio_processor/prio/commands.py:110-158 -/
def verify1 (a : Args) (input : List Datum) : Except PyExc Written := do
  let (_, server) ← openServer L a (pyB64decode a.sharedSecret)
  pure (Written.of
    (forTry catchesRuntime (verify1Row L) input (Loop.start (Round1.new L server))))

/-- The decoded share and packets of a row of verify2 and aggregate.
mirrors prio_processor/prio/commands.py:221-223,295-297 -/
def rowArgs (internal external : List Datum) (datum : Datum) :
    Except PyExc (Bytes × Bytes × Bytes) := do
  let share ← pyB64decode datum.payload
  let internal ← index internal datum.id >>= pyB64decode
  let external ← index external datum.id >>= pyB64decode
  pure (share, internal, external)

/-- mirrors prio_processor/prio/commands.py:221-235 -/
def verify2Row (config : L.Config) (internal external : List Datum) (datum : Datum) :
    Eff PyExc (Round2 L) Datum := do
  let (share, internal, external) ← Eff.lift (rowArgs internal external datum)
  let packetData ← verify2Calls L config (some share) (some internal) (some external)
  pure { datum with payload := b64encode packetData }

/-- mirrors prio_processor/prio/commands.py:169-238 -/
def verify2 (a : Args) (input inputInternal inputExternal : List Datum) : Except PyExc Written := do
  let (config, server) ← openServer L a (pyB64decode a.sharedSecret)
  pure (Written.of (forTry catchesRuntimeKey (verify2Row L config inputInternal inputExternal)
    input (Loop.start (Round2.new L server))))

/-- mirrors prio_processor/prio/commands.py:295-303 -/
def aggregateRow (config : L.Config) (internal external : List Datum) (datum : Datum) :
    Eff PyExc (Round3 L) String := do
  let (share, internal, external) ← Eff.lift (rowArgs internal external datum)
  aggregateCalls L config (some share) (some internal) (some external)
  pure datum.id

/-- The output file is written after the loop.
mirrors prio_processor/prio/commands.py:249-315 -/
def aggregate (a : Args) (input inputInternal inputExternal : List Datum) :
    Except PyExc Aggregated := do
  let (config, server) ← openServer L a (pyB64decode a.sharedSecret)
  let (ended, l) := forTry catchesRuntimeKey
    (aggregateRow L config inputInternal inputExternal) input (Loop.start (Round3.new L server))
  ended
  let shares := L.prioTotalShareSetData L.prioTotalShareNew l.objs.server
  shares.1
  let data ← L.prioTotalShareWrite shares.2
  pure ⟨l.out, ⟨b64encode data, l.error, l.total⟩⟩

/-- The `payload` of the published record.
mirrors prio_processor/prio/commands.py:325-376 -/
def publish (a : Args) (inputInternal inputExternal : Total) : Except PyExc (List ℕ) := do
  let (_, internal, external) ←
    importKeys L a.privateKeyHex a.publicKeyHexInternal a.publicKeyHexExternal
  let config := L.prioConfigNew a.nData internal external a.batchId
  let payloadInternal ← pyB64decode inputInternal.payload
  let payloadExternal ← pyB64decode inputExternal.payload
  finalCalls L config a.serverId (some payloadInternal) (some payloadExternal)

end Commands

/-! ## Both servers -/

/-- The files of one batch at both servers. -/
structure Files where
  verify1A : List Datum
  verify1B : List Datum
  verify2A : List Datum
  verify2B : List Datum
  aggregateA : Aggregated
  aggregateB : Aggregated
  publishA : List ℕ
  publishB : List ℕ
  deriving DecidableEq, Repr

/-- The four commands at server A and at server B, each with the other's output
as its external input. -/
def pipeline (L : Libprio) (a b : Args) (rawA rawB : List Datum) : Except PyExc Files := do
  let verify1A ← verify1 L a rawA >>= Written.file
  let verify1B ← verify1 L b rawB >>= Written.file
  let verify2A ← verify2 L a rawA verify1A verify1B >>= Written.file
  let verify2B ← verify2 L b rawB verify1B verify1A >>= Written.file
  let aggregateA ← aggregate L a rawA verify2A verify2B
  let aggregateB ← aggregate L b rawB verify2B verify2A
  let publishA ← publish L a aggregateA.share aggregateB.share
  let publishB ← publish L b aggregateB.share aggregateA.share
  pure ⟨verify1A, verify1B, verify2A, verify2B, aggregateA, aggregateB, publishA, publishB⟩

theorem pipeline_ok {L : Libprio} {a b : Args} {rawA rawB v1A v1B v2A v2B : List Datum}
    {gA gB : Aggregated} {pA pB : List ℕ} (h₁ : (verify1 L a rawA >>= Written.file) = .ok v1A)
    (h₂ : (verify1 L b rawB >>= Written.file) = .ok v1B)
    (h₃ : (verify2 L a rawA v1A v1B >>= Written.file) = .ok v2A)
    (h₄ : (verify2 L b rawB v1B v1A >>= Written.file) = .ok v2B)
    (h₅ : aggregate L a rawA v2A v2B = .ok gA) (h₆ : aggregate L b rawB v2B v2A = .ok gB)
    (h₇ : publish L a gA.share gB.share = .ok pA) (h₈ : publish L b gB.share gA.share = .ok pB) :
    pipeline L a b rawA rawB = .ok ⟨v1A, v1B, v2A, v2B, gA, gB, pA, pB⟩ := by
  unfold pipeline
  simp only [h₁, h₂, h₃, h₄, h₅, h₆, h₇, h₈, ok_bind]
  rfl

/-! ## Rows -/

/-- The payload is valid base64. -/
def Datum.Decodes (d : Datum) : Prop := (b64decode d.payload).isSome = true

instance (d : Datum) : Decidable d.Decodes := inferInstanceAs (Decidable (_ = true))

/-- The bytes of the payload. -/
def Datum.bytes (d : Datum) : Bytes := (b64decode d.payload).getD []

theorem Datum.Decodes.pyB64decode_eq {d : Datum} (h : d.Decodes) :
    pyB64decode d.payload = .ok d.bytes := by
  unfold Decodes at h
  obtain ⟨b, hb⟩ := Option.isSome_iff_exists.1 h
  unfold pyB64decode bytes
  rw [hb]; rfl

theorem pyB64decode_undecoded {d : Datum} (h : ¬ d.Decodes) :
    pyB64decode d.payload = .error .valueError := by
  unfold Datum.Decodes at h
  rw [Bool.not_eq_true, Option.isSome_eq_false_iff, Option.isNone_iff_eq_none] at h
  unfold pyB64decode
  rw [h]

theorem pyB64decode_ok {d : Datum} {b : Bytes} (h : pyB64decode d.payload = .ok b) :
    d.Decodes ∧ d.bytes = b := by
  unfold pyB64decode at h
  split at h
  · rename_i hb
    cases h
    exact ⟨by unfold Datum.Decodes; rw [hb]; rfl, by unfold Datum.bytes; rw [hb]; rfl⟩
  · cases h

theorem decodes_encoded (id : String) (q : Bytes) : (⟨id, b64encode q⟩ : Datum).Decodes := by
  unfold Datum.Decodes; rw [b64decode_b64encode]; rfl

theorem bytes_encoded (id : String) (q : Bytes) : (⟨id, b64encode q⟩ : Datum).bytes = q := by
  unfold Datum.bytes; rw [b64decode_b64encode]; rfl

/-- `p` is the decoded payload of a line of `ds` with the given id. -/
def Holds (ds : List Datum) (id : String) (p : Bytes) : Prop :=
  ∃ d ∈ ds, d.id = id ∧ d.Decodes ∧ d.bytes = p

theorem holds_unique {ds : List Datum} (hd : (ds.map Datum.id).Nodup) {id : String} {p q : Bytes}
    (hp : Holds ds id p) (hq : Holds ds id q) : p = q := by
  obtain ⟨d, hm, hk, -, rfl⟩ := hp
  obtain ⟨e, hn, he, -, rfl⟩ := hq
  rw [List.inj_on_of_nodup_map hd hm hn (hk.trans he.symm)]

theorem index_bytes_ok {ds : List Datum} {id : String} {p : Bytes}
    (h : index ds id >>= pyB64decode = .ok p) : Holds ds id p := by
  unfold index at h
  split at h
  · rename_i d hl
    obtain ⟨hm, hk⟩ := Table.mem_of_lookup hl
    exact ⟨d, hm, hk, pyB64decode_ok h⟩
  · cases h

theorem index_bytes_of_holds {ds : List Datum} (hd : (ds.map Datum.id).Nodup) {id : String}
    {p : Bytes} (h : Holds ds id p) : index ds id >>= pyB64decode = .ok p := by
  obtain ⟨d, hm, hk, hdec, hp⟩ := h
  unfold index
  rw [(Table.lookup_eq_some_iff hd).2 ⟨hm, hk⟩, ← hp]
  exact hdec.pyB64decode_eq

theorem index_bytes_error {ds : List Datum} {id : String}
    (hds : ∀ d, Table.lookup Datum.id ds id = some d → d.Decodes) {e : PyExc}
    (h : index ds id >>= pyB64decode = .error e) : e = .keyError := by
  unfold index at h
  split at h
  · rename_i d hl
    have hd := (hds d hl).pyB64decode_eq
    simp only [bind, Except.bind, hd, reduceCtorEq] at h
  · cases h; rfl

theorem index_bytes_undecoded {ds : List Datum} {id : String} {d : Datum}
    (hl : Table.lookup Datum.id ds id = some d) (hd : ¬ d.Decodes) :
    index ds id >>= pyB64decode = .error .valueError := by
  unfold index
  rw [hl]
  exact pyB64decode_undecoded hd

theorem rowArgs_ok {vi ve : List Datum} {d : Datum} {b x y : Bytes}
    (h : rowArgs vi ve d = .ok (b, x, y)) :
    d.Decodes ∧ d.bytes = b ∧ Holds vi d.id x ∧ Holds ve d.id y := by
  unfold rowArgs at h
  cases hb : pyB64decode d.payload with
  | error e => rw [hb] at h; cases h
  | ok b' =>
    rw [hb] at h
    cases hx : index vi d.id >>= pyB64decode with
    | error e => simp only [bind, Except.bind] at h hx; rw [hx] at h; cases h
    | ok x' =>
      cases hy : index ve d.id >>= pyB64decode with
      | error e => simp only [bind, Except.bind] at h hx hy; rw [hx, hy] at h; cases h
      | ok y' =>
        have hx' := index_bytes_ok hx
        have hy' := index_bytes_ok hy
        simp only [bind, Except.bind] at h hx hy
        rw [hx, hy] at h
        cases h
        exact ⟨(pyB64decode_ok hb).1, (pyB64decode_ok hb).2, hx', hy'⟩

theorem rowArgs_of_holds {vi ve : List Datum} (hi : (vi.map Datum.id).Nodup)
    (he : (ve.map Datum.id).Nodup) {d : Datum} {x y : Bytes} (hd : d.Decodes)
    (hx : Holds vi d.id x) (hy : Holds ve d.id y) : rowArgs vi ve d = .ok (d.bytes, x, y) := by
  unfold rowArgs
  rw [hd.pyB64decode_eq, index_bytes_of_holds hi hx, index_bytes_of_holds he hy]
  rfl

/-- The share of a line is valid base64, and so are the payloads that the
dictionaries have for it, as far as they are looked up. -/
def Readable (vi ve : List Datum) (d : Datum) : Prop :=
  d.Decodes ∧ ∀ x, Table.lookup Datum.id vi d.id = some x →
    x.Decodes ∧ ∀ y, Table.lookup Datum.id ve d.id = some y → y.Decodes

theorem readable_of_decodes {vi ve : List Datum} (hi : ∀ d ∈ vi, d.Decodes)
    (he : ∀ d ∈ ve, d.Decodes) {d : Datum} (hd : d.Decodes) : Readable vi ve d :=
  ⟨hd, fun x hx => ⟨hi x (Table.mem_of_lookup hx).1, fun y hy => he y (Table.mem_of_lookup hy).1⟩⟩

theorem rowArgs_error {vi ve : List Datum} {d : Datum} (h : Readable vi ve d) {e : PyExc}
    (he : rowArgs vi ve d = .error e) : e = .keyError := by
  unfold rowArgs at he
  rw [h.1.pyB64decode_eq, ok_bind] at he
  cases hx : index vi d.id >>= pyB64decode with
  | error e' =>
    rw [hx] at he
    cases he
    exact index_bytes_error (fun x hl => (h.2 x hl).1) hx
  | ok x =>
    rw [hx, ok_bind] at he
    cases hy : index ve d.id >>= pyB64decode with
    | error e' =>
      rw [hy] at he
      cases he
      -- the internal payload was found, so the external one is looked up
      obtain ⟨w, hw⟩ : ∃ w, Table.lookup Datum.id vi d.id = some w := by
        cases hl : Table.lookup Datum.id vi d.id with
        | none => unfold index at hx; rw [hl] at hx; cases hx
        | some w => exact ⟨w, rfl⟩
      exact index_bytes_error (h.2 w hw).2 hy
    | ok y => rw [hy] at he; cases he

theorem rowArgs_unreadable {vi ve : List Datum} {d : Datum} (h : ¬ Readable vi ve d) :
    rowArgs vi ve d = .error .valueError := by
  unfold rowArgs
  by_cases hd : d.Decodes
  · rw [hd.pyB64decode_eq, ok_bind]
    unfold Readable at h
    simp only [hd, true_and, not_forall] at h
    obtain ⟨x, hx, h⟩ := h
    by_cases hxd : x.Decodes
    · simp only [hxd, true_and, not_forall] at h
      obtain ⟨y, hy, hyd⟩ := h
      have hxi : index vi d.id >>= pyB64decode = .ok x.bytes := by
        unfold index
        rw [hx]
        exact hxd.pyB64decode_eq
      rw [hxi, ok_bind, index_bytes_undecoded hy hyd]
      rfl
    · rw [index_bytes_undecoded hx hxd]
      rfl
  · rw [pyB64decode_undecoded hd]
    rfl

variable {L : Libprio} {V : L1.View L}

/-! ## verify1 -/

/-- A row of `verify1` whose payload decodes. -/
theorem verify1Row_exec {d : Datum} (hd : d.Decodes) (o : Round1 L) :
    (verify1Row L d).exec o = (((verify1Calls L (some d.bytes)).exec o).1.map
      fun q => ⟨d.id, b64encode q⟩, ((verify1Calls L (some d.bytes)).exec o).2) := by
  unfold verify1Row
  rw [hd.pyB64decode_eq, Eff.exec_bind]
  simp only [Eff.exec_lift, Eff.exec_bind]
  rcases (verify1Calls L (some d.bytes)).exec o with ⟨_ | q, o'⟩ <;> rfl

/-- A row whose payload does not decode never reaches libprio. -/
theorem verify1Row_undecoded {d : Datum} (hd : ¬ d.Decodes) (o : Round1 L) :
    (verify1Row L d).exec o = (.error .valueError, o) := by
  unfold verify1Row
  rw [pyB64decode_undecoded hd]; rfl

/-- A line of `verify1`'s output for `d`: a packet of the share at the point
`r`. -/
def Line1 (V : L1.View L) (i : Ident L) (d : Datum) (r : V.Point) (y : Datum) : Prop :=
  d.Decodes ∧ V.decodes i d.bytes = true ∧
    ∃ q, V.Made1 ⟨i, d.bytes, r⟩ q ∧ y = ⟨d.id, b64encode q⟩

theorem verify1Row_ok (hS : V.SetDataLaw) (hP : V.PacketLaw) {d y : Datum} {o : Round1 L}
    (h : ((verify1Row L d).exec o).1 = .ok y) : ∃ r,
      V.held (L.prioVerifierSetData o.server o.verifier d.bytes).2.2 =
        some ⟨V.ident o.server, d.bytes, r⟩ ∧ Line1 V (V.ident o.server) d r y := by
  by_cases hd : d.Decodes
  · rw [verify1Row_exec hd] at h
    cases hc : ((verify1Calls L (some d.bytes)).exec o).1 with
    | error e => rw [hc] at h; cases h
    | ok q =>
      rw [hc] at h
      cases h
      obtain ⟨hdec, r, hr, hq⟩ := verify1Calls_ok hS hP hc
      exact ⟨r, hr, hd, hdec, q, hq, rfl⟩
  · rw [verify1Row_undecoded hd] at h; cases h

theorem verify1Row_error (hR : View.VerifyRaises L) {d : Datum} (hd : d.Decodes)
    {o : Round1 L} {e : PyExc} (h : ((verify1Row L d).exec o).1 = .error e) :
    catchesRuntime e = true := by
  rw [verify1Row_exec hd] at h
  cases hc : ((verify1Calls L (some d.bytes)).exec o).1 with
  | error e' =>
    rw [hc] at h
    cases h
    rcases verify1Calls_error hR hc with rfl | he
    · rfl
    · cases he
  | ok q => rw [hc] at h; cases h

theorem verify1Row_ident (hS : V.SetDataLaw) (d : Datum) (o : Round1 L) :
    V.ident ((verify1Row L d).exec o).2.server = V.ident o.server := by
  by_cases hd : d.Decodes
  · rw [verify1Row_exec hd]
    dsimp only
    rw [verify1Calls_server, hS.ident]
  · rw [verify1Row_undecoded hd]

/-! ## verify2 -/

theorem verify2Row_exec {config : L.Config} {vi ve : List Datum} {d : Datum} {b x y : Bytes}
    (h : rowArgs vi ve d = .ok (b, x, y)) (o : Round2 L) :
    (verify2Row L config vi ve d).exec o =
      (((verify2Calls L config (some b) (some x) (some y)).exec o).1.map
        fun q => ⟨d.id, b64encode q⟩,
        ((verify2Calls L config (some b) (some x) (some y)).exec o).2) := by
  unfold verify2Row
  rw [h, Eff.exec_bind]
  simp only [Eff.exec_lift, Eff.exec_bind]
  rcases (verify2Calls L config (some b) (some x) (some y)).exec o with ⟨_ | q, o'⟩ <;> rfl

/-- A row without its three arguments never reaches libprio. -/
theorem verify2Row_noArgs {config : L.Config} {vi ve : List Datum} {d : Datum} {e : PyExc}
    (h : rowArgs vi ve d = .error e) (o : Round2 L) :
    (verify2Row L config vi ve d).exec o = (.error e, o) := by
  unfold verify2Row
  rw [h]; rfl

/-- A line of `verify2`'s output for `d` at the point `r`, made from its packets
in the two verify1 files. -/
def Line2 (V : L1.View L) (i : Ident L) (vi ve : List Datum) (d : Datum) (r : V.Point)
    (y : Datum) : Prop :=
  d.Decodes ∧ V.decodes i d.bytes = true ∧ ∃ x z q, Holds vi d.id x ∧ Holds ve d.id z ∧
    V.Made2 ⟨i, d.bytes, r⟩ x z q ∧ y = ⟨d.id, b64encode q⟩

theorem verify2Row_ok (hS : V.SetDataLaw) (hP : V.PacketLaw) {config : L.Config}
    {vi ve : List Datum} {d y : Datum} {o : Round2 L}
    (h : ((verify2Row L config vi ve d).exec o).1 = .ok y) : ∃ r,
      V.held (L.prioVerifierSetData o.server o.verifier d.bytes).2.2 =
        some ⟨V.ident o.server, d.bytes, r⟩ ∧ Line2 V (V.ident o.server) vi ve d r y := by
  cases ha : rowArgs vi ve d with
  | error e => rw [verify2Row_noArgs ha] at h; cases h
  | ok t =>
    obtain ⟨b, x, z⟩ := t
    obtain ⟨hd, rfl, hx, hz⟩ := rowArgs_ok ha
    rw [verify2Row_exec ha] at h
    cases hc : ((verify2Calls L config (some d.bytes) (some x) (some z)).exec o).1 with
    | error e => rw [hc] at h; cases h
    | ok q =>
      rw [hc] at h
      cases h
      obtain ⟨hdec, r, hr, hq⟩ := verify2Calls_ok hS hP hc
      exact ⟨r, hr, hd, hdec, x, z, q, hx, hz, hq, rfl⟩

theorem verify2Row_error (hR : View.VerifyRaises L) {config : L.Config} {vi ve : List Datum}
    {d : Datum} (hd : Readable vi ve d) {o : Round2 L} {e : PyExc}
    (h : ((verify2Row L config vi ve d).exec o).1 = .error e) : catchesRuntimeKey e = true := by
  cases ha : rowArgs vi ve d with
  | error e' =>
    rw [verify2Row_noArgs ha] at h
    cases h
    rw [rowArgs_error hd ha]; rfl
  | ok t =>
    obtain ⟨b, x, z⟩ := t
    rw [verify2Row_exec ha] at h
    cases hc : ((verify2Calls L config (some b) (some x) (some z)).exec o).1 with
    | error e' =>
      rw [hc] at h
      cases h
      rcases verify2Calls_error hR hc with rfl | he | he | he
      · rfl
      all_goals cases he
    | ok q => rw [hc] at h; cases h

theorem verify2Row_ident (hS : V.SetDataLaw) (config : L.Config) (vi ve : List Datum) (d : Datum)
    (o : Round2 L) :
    V.ident ((verify2Row L config vi ve d).exec o).2.server = V.ident o.server := by
  cases ha : rowArgs vi ve d with
  | error e => rw [verify2Row_noArgs ha]
  | ok t =>
    obtain ⟨b, x, z⟩ := t
    rw [verify2Row_exec ha]
    dsimp only
    rw [verify2Calls_server, hS.ident]

/-! ## The commands -/

section Files

variable {a : Args} (o : Opened L a)

theorem verify1_eq (raw : List Datum) : verify1 L a raw = .ok (Written.of
    (forTry catchesRuntime (verify1Row L) raw (Loop.start (Round1.new L o.server)))) := by
  unfold verify1
  rw [o.openServer_eq]; rfl

theorem verify2_eq (raw vi ve : List Datum) : verify2 L a raw vi ve = .ok (Written.of
    (forTry catchesRuntimeKey (verify2Row L o.config vi ve) raw
      (Loop.start (Round2.new L o.server)))) := by
  unfold verify2
  rw [o.openServer_eq]; rfl

theorem verify1_tracks (hS : V.SetDataLaw) (hP : V.PacketLaw) (i : Ident L) :
    Tracks (verify1Row L) (fun (_ : Unit) (s : Round1 L) => V.ident s.server = i) (fun _ _ => ())
      fun _ d y => ∃ r, Line1 V i d r y where
  objs x _ s hs := (verify1Row_ident hS x s).trans hs
  row x _ s y hs h := by
    obtain ⟨r, -, hl⟩ := verify1Row_ok hS hP h
    exact ⟨r, hs ▸ hl⟩

theorem verify2_tracks (hS : V.SetDataLaw) (hP : V.PacketLaw) (i : Ident L) (config : L.Config)
    (vi ve : List Datum) :
    Tracks (verify2Row L config vi ve) (fun (_ : Unit) (s : Round2 L) => V.ident s.server = i)
      (fun _ _ => ()) fun _ d y => ∃ r, Line2 V i vi ve d r y where
  objs x _ s hs := (verify2Row_ident hS config vi ve x s).trans hs
  row x _ s y hs h := by
    obtain ⟨r, -, hl⟩ := verify2Row_ok hS hP h
    exact ⟨r, hs ▸ hl⟩

theorem verify1Row_id (hS : V.SetDataLaw) (hP : V.PacketLaw) (d : Datum) (s : Round1 L) (y : Datum)
    (h : ((verify1Row L d).exec s).1 = .ok y) : y.id = d.id := by
  obtain ⟨r, -, -, -, q, -, rfl⟩ := verify1Row_ok hS hP h
  rfl

theorem verify2Row_id (hS : V.SetDataLaw) (hP : V.PacketLaw) {config : L.Config}
    {vi ve : List Datum} (d : Datum) (s : Round2 L) (y : Datum)
    (h : ((verify2Row L config vi ve d).exec s).1 = .ok y) : y.id = d.id := by
  obtain ⟨r, -, -, -, x, z, q, -, -, -, rfl⟩ := verify2Row_ok hS hP h
  rfl

theorem Line1.decodes {i : Ident L} {d y : Datum} {r : V.Point} (h : Line1 V i d r y) :
    y.Decodes := by
  obtain ⟨-, -, q, -, rfl⟩ := h
  exact decodes_encoded _ _

theorem Line2.decodes {i : Ident L} {vi ve : List Datum} {d y : Datum} {r : V.Point}
    (h : Line2 V i vi ve d r y) : y.Decodes := by
  obtain ⟨-, -, x, z, q, -, -, -, rfl⟩ := h
  exact decodes_encoded _ _

/-- On a file of valid base64 `verify1` ends, and every line it writes is a
packet of a share of the file. -/
theorem verify1_file (hS : V.SetDataLaw) (hP : V.PacketLaw) {raw : List Datum}
    (hraw : ∀ d ∈ raw, d.Decodes) : ∃ lines, (verify1 L a raw >>= Written.file) = .ok lines ∧
      (lines.map Datum.id).Sublist (raw.map Datum.id) ∧
      ∀ y ∈ lines, ∃ d ∈ raw, ∃ r, Line1 V o.ident d r y := by
  rw [verify1_eq o]
  rcases hf : forTry catchesRuntime (verify1Row L) raw (Loop.start (Round1.new L o.server))
    with ⟨r, l⟩
  have htr := verify1_tracks (V := V) hS hP o.ident
  have hI : V.ident (Round1.new L o.server).server = o.ident := o.ident_server hS
  have hok : (forTry catchesRuntime (verify1Row L) raw
      (Loop.start (Round1.new L o.server))).1 = .ok () :=
    forTry_ok htr (fun d hd _ s e _ he => verify1Row_error (hP.raises hS) (hraw d hd) he)
      (g := ()) hI
  rw [hf] at hok
  cases hok
  refine ⟨l.out, rfl, ?_, ?_⟩
  · obtain ⟨ks, hks, hout⟩ := forTry_keys (verify1Row_id hS hP) hf
    rw [hout]; exact hks
  · intro y hy
    rcases forTry_mem htr (g := ()) hI hf hy with hin | ⟨pre, d, post, rfl, hl⟩
    · cases hin
    · exact ⟨d, by simp, hl⟩

theorem verify2_file (hS : V.SetDataLaw) (hP : V.PacketLaw) {raw vi ve : List Datum}
    (hraw : ∀ d ∈ raw, d.Decodes) (hint : ∀ d ∈ vi, d.Decodes) (hext : ∀ d ∈ ve, d.Decodes) :
    ∃ lines, (verify2 L a raw vi ve >>= Written.file) = .ok lines ∧
      (lines.map Datum.id).Sublist (raw.map Datum.id) ∧
      ∀ y ∈ lines, ∃ d ∈ raw, ∃ r, Line2 V o.ident vi ve d r y := by
  rw [verify2_eq o]
  rcases hf : forTry catchesRuntimeKey (verify2Row L o.config vi ve) raw
    (Loop.start (Round2.new L o.server)) with ⟨r, l⟩
  have htr := verify2_tracks (V := V) hS hP o.ident o.config vi ve
  have hI : V.ident (Round2.new L o.server).server = o.ident := o.ident_server hS
  have hok : (forTry catchesRuntimeKey (verify2Row L o.config vi ve) raw
      (Loop.start (Round2.new L o.server))).1 = .ok () :=
    forTry_ok htr (fun d hd _ s e _ he => verify2Row_error (hP.raises hS)
      (readable_of_decodes hint hext (hraw d hd)) he) (g := ()) hI
  rw [hf] at hok
  cases hok
  refine ⟨l.out, rfl, ?_, ?_⟩
  · obtain ⟨ks, hks, hout⟩ := forTry_keys (verify2Row_id hS hP) hf
    rw [hout]; exact hks
  · intro y hy
    rcases forTry_mem htr (g := ()) hI hf hy with hin | ⟨pre, d, post, rfl, hl⟩
    · cases hin
    · exact ⟨d, by simp, hl⟩

end Files

/-! ## aggregate -/

/-- What a row of `aggregate` returns at server `i`. -/
def aggregateResult (V : L1.View L) (i : Ident L) (vi ve : List Datum) (d : Datum) :
    Except PyExc String :=
  match rowArgs vi ve d with
  | .ok (b, x, y) => (L2.aggregateResult V i (some b) (some x) (some y)).map fun _ => d.id
  | .error e => .error e

/-- The row is added to the accumulator. -/
def accepts (V : L1.View L) (i : Ident L) (vi ve : List Datum) (d : Datum) : Bool :=
  (aggregateResult V i vi ve d).toBool

/-- The sum of the shares of the accepted rows. -/
def shareSum (V : L1.View L) (i : Ident L) (vi ve raw : List Datum) : ℕ → ZMod V.modulus :=
  ((raw.filter (accepts V i vi ve)).map fun d => V.data i d.bytes).sum

theorem accepts_iff {i : Ident L} {vi ve : List Datum} (hi : (vi.map Datum.id).Nodup)
    (he : (ve.map Datum.id).Nodup) {d : Datum} : accepts V i vi ve d = true ↔
      d.Decodes ∧ V.decodes i d.bytes = true ∧ ∃ x y, Holds vi d.id x ∧ Holds ve d.id y ∧
        V.reads2 x = true ∧ V.reads2 y = true ∧ V.valid x y = true := by
  unfold accepts aggregateResult
  constructor
  · intro h
    cases ha : rowArgs vi ve d with
    | error e => rw [ha] at h; cases h
    | ok t =>
      obtain ⟨b, x, y⟩ := t
      obtain ⟨hd, rfl, hx, hy⟩ := rowArgs_ok ha
      rw [ha] at h
      cases hr : L2.aggregateResult V i (some d.bytes) (some x) (some y) with
      | error e => simp only [hr] at h; cases h
      | ok u =>
        obtain ⟨hdec, hv⟩ := aggregateResult_ok_iff.1 hr
        exact ⟨hd, hdec, x, y, hx, hy, hv⟩
  · rintro ⟨hd, hdec, x, y, hx, hy, hv⟩
    rw [rowArgs_of_holds hi he hd hx hy]
    dsimp only
    rw [aggregateResult_ok_iff.2 ⟨hdec, hv⟩]
    rfl

/-- The share of an id in a raw file. -/
def shareOf (raw : List Datum) (id : String) : Bytes :=
  match Table.lookup Datum.id raw id with
  | some d => d.bytes
  | none => []

theorem shareOf_eq {raw : List Datum} (hd : (raw.map Datum.id).Nodup) {d : Datum} (hm : d ∈ raw) :
    shareOf raw d.id = d.bytes := by
  unfold shareOf
  rw [(Table.lookup_eq_some_iff hd).2 ⟨hm, rfl⟩]

/-- The sum of the accepted shares, by id. -/
theorem shareSum_eq {i : Ident L} {vi ve raw : List Datum} (hd : (raw.map Datum.id).Nodup) :
    shareSum V i vi ve raw = ((((raw.filter (accepts V i vi ve)).map Datum.id)).map
      fun id => V.data i (shareOf raw id)).sum := by
  unfold shareSum
  rw [List.map_map]
  congr 1
  refine List.map_congr_left fun d hd' => ?_
  rw [Function.comp_apply, shareOf_eq hd (List.mem_filter.1 hd').1]

/-- An id is added when its share and its two packets pass. -/
theorem mem_added_iff {i : Ident L} {vi ve raw : List Datum} (hi : (vi.map Datum.id).Nodup)
    (he : (ve.map Datum.id).Nodup) {id : String} :
    id ∈ (raw.filter (accepts V i vi ve)).map Datum.id ↔ ∃ b x y, Holds raw id b ∧
      Holds vi id x ∧ Holds ve id y ∧ V.decodes i b = true ∧ V.reads2 x = true ∧
      V.reads2 y = true ∧ V.valid x y = true := by
  constructor
  · intro h
    obtain ⟨d, hd, rfl⟩ := List.mem_map.1 h
    obtain ⟨hm, hacc⟩ := List.mem_filter.1 hd
    obtain ⟨hdec, hb, x, y, hx, hy, hv⟩ := (accepts_iff hi he).1 hacc
    exact ⟨d.bytes, x, y, ⟨d, hm, rfl, hdec, rfl⟩, hx, hy, hb, hv⟩
  · rintro ⟨b, x, y, ⟨d, hm, rfl, hdec, rfl⟩, hx, hy, hb, hv⟩
    exact List.mem_map.2 ⟨d, List.mem_filter.2 ⟨hm, (accepts_iff hi he).2
      ⟨hdec, hb, x, y, hx, hy, hv⟩⟩, rfl⟩

theorem aggregateResult_eq {i : Ident L} {vi ve : List Datum} {d : Datum}
    (h : accepts V i vi ve d = true) : aggregateResult V i vi ve d = .ok d.id := by
  unfold accepts at h
  cases hr : aggregateResult V i vi ve d with
  | error e => rw [hr] at h; cases h
  | ok s =>
    unfold aggregateResult at hr
    split at hr
    · rename_i b x y ha
      cases hc : L2.aggregateResult V i (some b) (some x) (some y) with
      | error e => rw [hc] at hr; cases hr
      | ok u => rw [hc] at hr; cases hr; rfl
    · cases hr

theorem aggregateResult_error {i : Ident L} {vi ve : List Datum} {d : Datum}
    (hd : Readable vi ve d) {e : PyExc}
    (h : aggregateResult V i vi ve d = .error e) : catchesRuntimeKey e = true := by
  unfold aggregateResult at h
  split at h
  · rename_i b x y ha
    unfold L2.aggregateResult at h
    dsimp only at h
    split at h
    · split at h <;> cases h
      rfl
    · cases h; rfl
  · rename_i e' ha
    cases h
    rw [rowArgs_error hd ha]; rfl

/-- The accumulator after a row. -/
def addRow (V : L1.View L) (i : Ident L) (vi ve : List Datum) (acc : ℕ → ZMod V.modulus)
    (d : Datum) : ℕ → ZMod V.modulus :=
  if accepts V i vi ve d then acc + V.data i d.bytes else acc

theorem foldl_addRow (i : Ident L) (vi ve raw : List Datum) (acc : ℕ → ZMod V.modulus) :
    raw.foldl (addRow V i vi ve) acc = acc + shareSum V i vi ve raw := by
  unfold shareSum
  induction raw generalizing acc with
  | nil => simp
  | cons d raw ih =>
    rw [List.foldl_cons, ih]
    unfold addRow
    by_cases h : accepts V i vi ve d = true
    · rw [if_pos h, List.filter_cons_of_pos h, List.map_cons, List.sum_cons, add_assoc]
    · rw [if_neg h, List.filter_cons_of_neg h]

theorem emitted_aggregateResult (i : Ident L) (vi ve raw : List Datum) :
    emitted (aggregateResult V i vi ve) raw =
      (raw.filter (accepts V i vi ve)).map Datum.id := by
  induction raw with
  | nil => rfl
  | cons d raw ih =>
    by_cases h : accepts V i vi ve d = true
    · rw [emitted_cons_ok (aggregateResult_eq h), List.filter_cons_of_pos h, List.map_cons, ih]
    · cases hr : aggregateResult V i vi ve d with
      | ok s => exact absurd (show (aggregateResult V i vi ve d).toBool = true by rw [hr]; rfl) h
      | error e => rw [emitted_cons_error hr, List.filter_cons_of_neg h, ih]

theorem addRow_of_args {i : Ident L} {vi ve : List Datum} {d : Datum} {b x y : Bytes}
    (h : rowArgs vi ve d = .ok (b, x, y)) (acc : ℕ → ZMod V.modulus) :
    addRow V i vi ve acc d =
      addShare V i (L2.aggregateResult V i (some b) (some x) (some y)) (some b) acc := by
  obtain ⟨-, rfl, -, -⟩ := rowArgs_ok h
  have hacc : accepts V i vi ve d =
      (L2.aggregateResult V i (some d.bytes) (some x) (some y)).toBool := by
    unfold accepts aggregateResult
    rw [h]
    dsimp only
    cases L2.aggregateResult V i (some d.bytes) (some x) (some y) <;> rfl
  unfold addRow addShare
  rw [hacc]
  cases L2.aggregateResult V i (some d.bytes) (some x) (some y) <;> rfl

theorem addRow_noArgs {i : Ident L} {vi ve : List Datum} {d : Datum} {e : PyExc}
    (h : rowArgs vi ve d = .error e) (acc : ℕ → ZMod V.modulus) :
    addRow V i vi ve acc d = acc := by
  have hacc : accepts V i vi ve d = false := by
    unfold accepts aggregateResult
    rw [h]; rfl
  unfold addRow
  rw [hacc]; rfl

/-- Along the server and its accumulator, a row of `aggregate` is
`aggregateResult` and `addRow`. -/
theorem aggregateRow_exec (hS : V.SetDataLaw) (hA : V.AggregateLaw) {config : L.Config}
    (vi ve : List Datum) (d : Datum) (s : Round3 L) :
    ((aggregateRow L config vi ve d).exec s).1 =
      aggregateResult V (V.ident s.server) vi ve d ∧
    V.ident ((aggregateRow L config vi ve d).exec s).2.server = V.ident s.server ∧
    V.acc ((aggregateRow L config vi ve d).exec s).2.server =
      addRow V (V.ident s.server) vi ve (V.acc s.server) d := by
  unfold aggregateRow aggregateResult
  cases ha : rowArgs vi ve d with
  | error e => exact ⟨rfl, rfl, (addRow_noArgs ha _).symm⟩
  | ok t =>
    obtain ⟨b, x, y⟩ := t
    rw [addRow_of_args ha]
    obtain ⟨hres, hid, hacc⟩ := aggregateCalls_exec hS hA config (some b) (some x) (some y) s
    simp only [Eff.exec_bind, Eff.exec_lift]
    rcases hc : (aggregateCalls L config (some b) (some x) (some y)).exec s with ⟨r, s'⟩
    rw [hc] at hres hid hacc
    dsimp only at hres hid hacc
    rw [← hres] at hacc ⊢
    cases r with
    | error e => exact ⟨rfl, hid, hacc⟩
    | ok u => exact ⟨rfl, hid, hacc⟩

/-- A row of `aggregate` over the accumulator alone. -/
def specRow (V : L1.View L) (i : Ident L) (vi ve : List Datum) (d : Datum) :
    Eff PyExc (ℕ → ZMod V.modulus) String :=
  Eff.call fun acc => (aggregateResult V i vi ve d, addRow V i vi ve acc d)

section Aggregate

variable {a : Args} (o : Opened L a)

/-- On files of valid base64 `aggregate` ends, adds the accepted rows once
each, counts the others as errors, and writes the sum of the accepted
shares. -/
theorem aggregate_eq (hS : V.SetDataLaw) (hA : V.AggregateLaw) (hT : V.TotalLaw)
    {raw vi ve : List Datum} (hraw : ∀ d ∈ raw, d.Decodes) (hint : ∀ d ∈ vi, d.Decodes)
    (hext : ∀ d ∈ ve, d.Decodes) : ∃ w,
      V.WrittenTotal (a.serverId, shareSum V o.ident vi ve raw) w ∧
      aggregate L a raw vi ve = .ok ⟨(raw.filter (accepts V o.ident vi ve)).map Datum.id,
        ⟨b64encode w, raw.countP fun d => !accepts V o.ident vi ve d, raw.length⟩⟩ := by
  -- the loop over the accumulator alone
  have hspec : ∀ d ∈ raw, ∀ g, (specRow V o.ident vi ve d).exec g =
      (aggregateResult V o.ident vi ve d, addRow V o.ident vi ve g d) := fun _ _ _ => rfl
  have hpure := forTry_pure hspec
    (fun d hd e he => aggregateResult_error (readable_of_decodes hint hext (hraw d hd)) he) 0 [] 0 0
  have hsim : ∀ d ∈ raw, ∀ (g : ℕ → ZMod V.modulus) (s : Round3 L),
      (V.ident s.server = o.ident ∧ V.acc s.server = g) →
      ((aggregateRow L o.config vi ve d).exec s).1 =
        ((specRow V o.ident vi ve d).exec g).1 ∧
      V.ident ((aggregateRow L o.config vi ve d).exec s).2.server = o.ident ∧
      V.acc ((aggregateRow L o.config vi ve d).exec s).2.server =
        ((specRow V o.ident vi ve d).exec g).2 := by
    intro d _ g s ⟨hid, hg⟩
    rw [← hid, ← hg]
    exact aggregateRow_exec hS hA vi ve d s
  obtain ⟨s, hloop, hid, hacc⟩ := forTry_sim hsim (s := Round3.new L o.server)
    ⟨o.ident_server hS, hS.new_acc _ _ _ _⟩ [] 0 0 hpure
  dsimp only at hloop hacc
  rw [foldl_addRow, zero_add] at hacc
  obtain ⟨hset, hsum⟩ := hT.set L.prioTotalShareNew s.server
  rw [hid, hacc] at hsum
  refine ⟨_, ⟨rfl, _, hsum⟩, ?_⟩
  have hwrite := hT.write _ _ hsum
  unfold aggregate
  rw [o.openServer_eq]
  simp only [bind, Except.bind, Loop.start, hloop, hset, hwrite, emitted_aggregateResult,
    List.nil_append, Nat.zero_add]
  rfl

end Aggregate

/-! ## publish -/

/-- Both servers' `publish` open the two totals to the same vector. -/
theorem publish_eq (hC : View.ConfigLaw L) (hT : V.TotalLaw) {a b : Args} (oA : Opened L a)
    (oB : Opened L b) (ha : a.serverId = .A) (hb : b.serverId = .B) (hn : b.nData = a.nData)
    {wA wB : Bytes} {g h : ℕ → ZMod V.modulus} (hA : V.WrittenTotal (.A, g) wA)
    (hB : V.WrittenTotal (.B, h) wB) (eA tA eB tB : ℕ) :
    publish L a ⟨b64encode wA, eA, tA⟩ ⟨b64encode wB, eB, tB⟩ =
      .ok ((List.range a.nData).map fun j => (g j + h j).val) ∧
    publish L b ⟨b64encode wB, eB, tB⟩ ⟨b64encode wA, eA, tA⟩ =
      .ok ((List.range a.nData).map fun j => (g j + h j).val) := by
  have hfA := (finalCalls_eq hT oA.config hA hB).1
  have hfB := (finalCalls_eq hT oB.config hA hB).2
  have hcA : L.prioConfigNumDataFields oA.config = a.nData := hC _ _ _ _
  have hcB : L.prioConfigNumDataFields oB.config = a.nData := (hC _ _ _ _).trans hn
  constructor
  · unfold publish
    rw [oA.keys, ha]
    simp only [bind, Except.bind, pyB64decode_b64encode]
    rw [hcA] at hfA; exact hfA
  · unfold publish
    rw [oB.keys, hb]
    simp only [bind, Except.bind, pyB64decode_b64encode]
    rw [hcB] at hfB; exact hfB

/-! ## The pipeline -/

/-- What the commands of both servers write: packets made of their input files,
and the sums over the accepted rows. -/
structure Produced (V : L1.View L) (i k : Ident L) (n : ℕ) (rawA rawB : List Datum) (f : Files) :
    Prop where
  ids1A : (f.verify1A.map Datum.id).Sublist (rawA.map Datum.id)
  ids1B : (f.verify1B.map Datum.id).Sublist (rawB.map Datum.id)
  made1A : ∀ y ∈ f.verify1A, ∃ d ∈ rawA, ∃ r, Line1 V i d r y
  made1B : ∀ y ∈ f.verify1B, ∃ d ∈ rawB, ∃ r, Line1 V k d r y
  ids2A : (f.verify2A.map Datum.id).Sublist (rawA.map Datum.id)
  ids2B : (f.verify2B.map Datum.id).Sublist (rawB.map Datum.id)
  made2A : ∀ y ∈ f.verify2A, ∃ d ∈ rawA, ∃ r, Line2 V i f.verify1A f.verify1B d r y
  made2B : ∀ y ∈ f.verify2B, ∃ d ∈ rawB, ∃ r, Line2 V k f.verify1B f.verify1A d r y
  addedA : f.aggregateA.added = (rawA.filter (accepts V i f.verify2A f.verify2B)).map Datum.id
  addedB : f.aggregateB.added = (rawB.filter (accepts V k f.verify2B f.verify2A)).map Datum.id
  publishA : f.publishA = (List.range n).map fun j => (shareSum V i f.verify2A f.verify2B rawA j +
    shareSum V k f.verify2B f.verify2A rawB j).val
  publishB : f.publishB = f.publishA

/-- On raw files of valid base64 all commands end. -/
theorem pipeline_produced (hC : View.ConfigLaw L) (hS : V.SetDataLaw) (hP : V.PacketLaw)
    (hA : V.AggregateLaw) (hT : V.TotalLaw) {a b : Args} (oA : Opened L a) (oB : Opened L b)
    (ha : a.serverId = .A) (hb : b.serverId = .B) (hn : b.nData = a.nData) {rawA rawB : List Datum}
    (hdA : ∀ d ∈ rawA, d.Decodes) (hdB : ∀ d ∈ rawB, d.Decodes) :
    ∃ f, pipeline L a b rawA rawB = .ok f ∧ Produced V oA.ident oB.ident a.nData rawA rawB f := by
  obtain ⟨v1A, hv1A, hsubA, hmA⟩ := verify1_file oA hS hP hdA
  obtain ⟨v1B, hv1B, hsubB, hmB⟩ := verify1_file oB hS hP hdB
  have hdecA : ∀ d ∈ v1A, d.Decodes := fun y hy => (hmA y hy).elim fun _ ⟨_, _, h⟩ => h.decodes
  have hdecB : ∀ d ∈ v1B, d.Decodes := fun y hy => (hmB y hy).elim fun _ ⟨_, _, h⟩ => h.decodes
  obtain ⟨v2A, hv2A, hsub2A, hm2A⟩ := verify2_file oA hS hP hdA hdecA hdecB
  obtain ⟨v2B, hv2B, hsub2B, hm2B⟩ := verify2_file oB hS hP hdB hdecB hdecA
  have hdec2A : ∀ d ∈ v2A, d.Decodes := fun y hy => (hm2A y hy).elim fun _ ⟨_, _, h⟩ => h.decodes
  have hdec2B : ∀ d ∈ v2B, d.Decodes := fun y hy => (hm2B y hy).elim fun _ ⟨_, _, h⟩ => h.decodes
  obtain ⟨wA, hwA, haggA⟩ := aggregate_eq oA hS hA hT hdA hdec2A hdec2B
  obtain ⟨wB, hwB, haggB⟩ := aggregate_eq oB hS hA hT hdB hdec2B hdec2A
  rw [ha] at hwA
  rw [hb] at hwB
  obtain ⟨hpubA, hpubB⟩ := publish_eq hC hT oA oB ha hb hn hwA hwB
    (rawA.countP fun d => !accepts V oA.ident v2A v2B d) rawA.length
    (rawB.countP fun d => !accepts V oB.ident v2B v2A d) rawB.length
  exact ⟨_, pipeline_ok hv1A hv1B hv2A hv2B haggA haggB hpubA hpubB, hsubA, hsubB, hmA, hmB, hsub2A,
    hsub2B, hm2A, hm2B, rfl, rfl, rfl, rfl⟩

end PrioProcessor.L2.Cli
