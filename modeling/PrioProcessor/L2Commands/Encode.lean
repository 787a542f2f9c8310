import PrioProcessor.L2Commands.Cli
import PrioProcessor.L2Commands.Spark
import PrioProcessor.Core.Python

/-!
# Encoding of client data

`encode_shares` of the command-line tools (`prio_processor/prio/commands.py`)
and of the Spark commands (`prio_processor/spark/commands.py`), which calls
`encode` of `prio_processor/spark/udf.py` on the rows of each partition. The
function iterates over its argument: over the rows of a series, over the column
labels of a frame (`Pandas.iter`). The randomness of each encoding and the
random ids are arguments.

* `bytesOf_client`: a 0/1 list as client data.
* `encode_series`, `encode_labels`: what `encode` makes of a series and of a
  frame.
* `sharesOf_labels`: the table of shares of the Spark command.
* `encodeShares_eq`: the Spark command ends before it writes.
-/
namespace PrioProcessor.L2

open L1 Table

/-- The options of `encode_shares`.
mirrors prio_processor/prio/options.py:11-28,121-138 -/
structure EncodeArgs where
  batchId : Bytes
  nData : ℕ
  publicKeyHexInternal : Bytes
  publicKeyHexExternal : Bytes
  deriving DecidableEq, Repr

/-- `bytes(xs)` of a list of integers. -/
def bytesOf (xs : List ℤ) : Except PyExc Bytes :=
  xs.mapM fun z => if 0 ≤ z ∧ z ≤ 255 then .ok (UInt8.ofNat z.toNat) else .error .valueError

/-- mirrors prio_processor/prio/commands.py:78-83, prio_processor/spark/udf.py:41-46 -/
def encodeConfig (L : Libprio) (a : EncodeArgs) : Except PyExc L.Config := do
  let (internal, external) ← importPublicKeys L a.publicKeyHexInternal a.publicKeyHexExternal
  pure (L.prioConfigNew a.nData internal external a.batchId)

/-- A list of `n` zeros and ones. -/
structure ZeroOne (n : ℕ) (xs : List ℤ) : Prop where
  length : xs.length = n
  bit : ∀ z ∈ xs, z = 0 ∨ z = 1

theorem bytesOf_client {n : ℕ} {xs : List ℤ} (h : ZeroOne n xs) :
    ∃ x, bytesOf xs = .ok x ∧ ClientVector n x := by
  refine ⟨xs.map fun z => UInt8.ofNat z.toNat, mapM_ok fun z hz => ?_, ?_, fun b hb => ?_⟩
  · have hz := h.bit z hz
    rw [if_pos (by omega)]
  · rw [List.length_map, h.length]
  · obtain ⟨z, hz, rfl⟩ := List.mem_map.1 hb
    rcases h.bit z hz with rfl | rfl
    · exact .inl rfl
    · exact .inr rfl

theorem field_bytesOf {n : ℕ} {xs : List ℤ} {z : Bytes} (h : ZeroOne n xs)
    (hz : bytesOf xs = .ok z) (j : ℕ) : field z j = (xs.getD j 0).toNat := by
  have hmap : bytesOf xs = .ok (xs.map fun z => UInt8.ofNat z.toNat) := by
    refine mapM_ok fun z hz => ?_
    have hz := h.bit z hz
    rw [if_pos (by omega)]
  cases hz.symm.trans hmap
  unfold field
  have hget : (xs.map fun z => UInt8.ofNat z.toNat).getD j 0 = UInt8.ofNat (xs.getD j 0).toNat :=
    List.getD_map xs 0 fun z : ℤ => UInt8.ofNat z.toNat
  rw [hget]
  by_cases hj : j < xs.length
  · rw [List.getD_eq_getElem _ _ hj]
    rcases h.bit _ (List.getElem_mem hj) with h0 | h1
    · rw [h0]; rfl
    · rw [h1]; rfl
  · rw [List.getD_eq_default _ _ (by omega)]
    rfl

/-- Encoding with the options of server A uses server A's configuration. -/
theorem encodeConfig_opened {L : Libprio} {a : Args} (oA : Opened L a) {e : EncodeArgs}
    (hbatch : e.batchId = a.batchId) (hdata : e.nData = a.nData)
    (hinternal : e.publicKeyHexInternal = a.publicKeyHexInternal)
    (hexternal : e.publicKeyHexExternal = a.publicKeyHexExternal) :
    encodeConfig L e = .ok oA.config := by
  have hkeys := oA.keys
  unfold importKeys at hkeys
  obtain ⟨k, -, hkeys⟩ := bind_ok hkeys
  obtain ⟨⟨i, x⟩, hpublic, hkeys⟩ := bind_ok hkeys
  cases hkeys
  unfold encodeConfig
  rw [hinternal, hexternal, hpublic, ok_bind, hdata, hbatch]
  rfl

/-! ## The command-line tool -/

namespace Cli

variable (L : Libprio)

/-- The line of a row at either server.
mirrors prio_processor/prio/commands.py:93-99 -/
def encodeRow (config : L.Config) (coins : L.Coins) (uid : String) (payload : List ℤ) :
    Except PyExc (Datum × Datum) := do
  let data ← bytesOf payload
  let (shareA, shareB) ← L.prioClientEncode config data coins
  pure (⟨uid, b64encode shareA⟩, ⟨uid, b64encode shareB⟩)

/-- The two output files; row `i` has the coins and the id `i`.
mirrors prio_processor/prio/commands.py:62-100 -/
def encodeShares (a : EncodeArgs) (coins : ℕ → L.Coins) (uuid : ℕ → String)
    (input : List (List ℤ)) : Except PyExc (List Datum × List Datum) := do
  let config ← encodeConfig L a
  let rows ← input.zipIdx.mapM fun p => encodeRow L config (coins p.2) (uuid p.2) p.1
  pure (rows.map Prod.fst, rows.map Prod.snd)

end Cli

/-! ## The pandas function -/

namespace Udf

/-- A series of lists, or a frame with such a column. -/
inductive Pandas where
  | series (values : List (List ℤ))
  | frame (columns : List String) (rows : List (List ℤ))

/-- An item of a series or a frame. -/
inductive Item where
  | ints (xs : List ℤ)
  | label (s : String)

/-- `iter(x)`; a frame iterates over its column labels. -/
def Pandas.iter : Pandas → List Item
  | series values => values.map .ints
  | frame columns _ => columns.map .label

/-- `int(x)` for each `x` of an item. -/
def Item.mapInt : Item → Except PyExc (List ℤ)
  | ints xs => .ok xs
  | label s => s.toList.mapM fun c =>
      (Python.int (String.singleton c)).elim (.error .valueError) .ok

structure Shares where
  a : Option Bytes
  b : Option Bytes
  deriving DecidableEq, Repr

variable (L : Libprio)

/-- mirrors prio_processor/spark/udf.py:50-54 -/
def encodeItem (config : L.Config) (coins : L.Coins) (data : Item) : Except PyExc Shares :=
  match (do let data ← data.mapInt >>= bytesOf; L.prioClientEncode config data coins) with
  | .ok (a, b) => .ok ⟨some a, some b⟩
  | .error e => if catches e then .ok ⟨none, none⟩ else .error e

/-- `s.encode()` -/
def utf8 (s : String) : Bytes := s.toUTF8.data.toList

/-- mirrors prio_processor/spark/udf.py:12-30 -/
def encodeSingle (batchId : String) (nData : ℕ) (publicKeyHexInternal publicKeyHexExternal : Bytes)
    (coins : L.Coins) (payload : List ℤ) : Except PyExc Shares := do
  let config ← encodeConfig L ⟨utf8 batchId, nData, publicKeyHexInternal, publicKeyHexExternal⟩
  encodeItem L config coins (.ints payload)

/-- mirrors prio_processor/spark/udf.py:33-56 -/
def encode (a : EncodeArgs) (coins : ℕ → L.Coins) (payload : Pandas) :
    Except PyExc (List Shares) := do
  let config ← encodeConfig L a
  payload.iter.zipIdx.mapM fun p => encodeItem L config (coins p.2) p.1

variable {L} {config : L.Config} {a : EncodeArgs} {coins : ℕ → L.Coins}

/-- An item that is a list is encoded as it is. -/
theorem encodeItem_ints {c : L.Coins} {xs : List ℤ} {x shareA shareB : Bytes}
    (hx : bytesOf xs = .ok x) (h : L.prioClientEncode config x c = .ok (shareA, shareB)) :
    encodeItem L config c (.ints xs) = .ok ⟨some shareA, some shareB⟩ := by
  unfold encodeItem Item.mapInt
  rw [ok_bind, hx, ok_bind, h]

/-- A series gives the encoding of each of its lists. -/
theorem encode_series (hkeys : encodeConfig L a = .ok config) {values : List (List ℤ)}
    (h : ∀ p ∈ values.zipIdx, ∃ x s, bytesOf p.1 = .ok x ∧
      L.prioClientEncode config x (coins p.2) = .ok s) :
    ∃ rows, encode L a coins (.series values) = .ok rows ∧
      List.Forall₂ (fun p r => ∃ x shareA shareB, bytesOf p.1 = .ok x ∧
        L.prioClientEncode config x (coins p.2) = .ok (shareA, shareB) ∧
        r = ⟨some shareA, some shareB⟩) values.zipIdx rows := by
  have hitems : ∀ p ∈ values.zipIdx, ∃ r, encodeItem L config (coins p.2) (.ints p.1) = .ok r :=
    fun p hp => by
      obtain ⟨x, s, hx, hs⟩ := h p hp
      exact ⟨_, encodeItem_ints hx hs⟩
  obtain ⟨rows, hrows⟩ := exists_mapM_ok.2 hitems
  refine ⟨rows, ?_, ?_⟩
  · unfold encode
    rw [hkeys, ok_bind]
    show (values.map Item.ints).zipIdx.mapM _ = _
    rw [List.zipIdx_map, List.mapM_map]
    exact hrows
  · refine ((List.forall₂_and_left _ _).2 ⟨h, mapM_eq_ok.1 hrows⟩).imp fun p r hpr => ?_
    obtain ⟨⟨x, s, hx, hs⟩, hr⟩ := hpr
    rw [encodeItem_ints hx hs] at hr
    cases hr
    exact ⟨x, s.1, s.2, hx, hs, rfl⟩

/-- A character of the label is not a digit. -/
def NoDigits (s : String) : Prop := ∃ c ∈ s.toList, Python.int (String.singleton c) = none

/-- A column label that is not a row of digits has no shares. -/
theorem encodeItem_label {c : L.Coins} {s : String} (h : NoDigits s) :
    encodeItem L config c (.label s) = .ok ⟨none, none⟩ := by
  obtain ⟨d, hd, hint⟩ := h
  have hraises : (Item.label s).mapInt = .error .valueError := by
    cases hm : (Item.label s).mapInt with
    | error e =>
      obtain ⟨c, -, hc⟩ := mapM_error hm
      cases hi : Python.int (String.singleton c) with
      | none => rw [hi] at hc; cases hc; rfl
      | some z => rw [hi] at hc; cases hc
    | ok xs =>
      obtain ⟨z, hz⟩ := exists_mapM_ok.1 ⟨xs, hm⟩ d hd
      rw [hint] at hz
      cases hz
  unfold encodeItem
  rw [hraises]
  rfl

/-- A frame gives one row for each of its columns, whatever rows it has. -/
theorem encode_labels (hkeys : encodeConfig L a = .ok config) {columns : List String}
    (h : ∀ s ∈ columns, NoDigits s) (rows : List (List ℤ)) :
    encode L a coins (.frame columns rows) = .ok (columns.map fun _ => ⟨none, none⟩) := by
  have hitems : ∀ p ∈ (columns.map Item.label).zipIdx,
      encodeItem L config (coins p.2) p.1 = .ok ⟨none, none⟩ := by
    intro p hp
    obtain ⟨s, hs, heq⟩ := List.mem_map.1 (List.fst_mem_of_mem_zipIdx hp)
    rw [← heq]
    exact encodeItem_label (h s hs)
  unfold encode
  rw [hkeys, ok_bind]
  show (columns.map Item.label).zipIdx.mapM _ = _
  rw [mapM_ok hitems]
  simp [List.map_const']

end Udf

/-! ## The Spark command -/

namespace Spark

/-- A row of the table of shares. -/
structure SharesRow where
  a : Option Bytes
  b : Option Bytes
  id : String
  deriving DecidableEq, Repr

/-- A table read from JSON, with the lists of its column "payload". -/
structure Frame where
  columns : List String
  rows : List (List ℤ)

/-- `withColumn("pid", …)` adds the column, or replaces it. -/
def Frame.withPid (input : Frame) : List String :=
  if "pid" ∈ input.columns then input.columns else input.columns ++ ["pid"]

/-- An exception of a worker, one of the driver, and Spark's refusal of zero
partitions. -/
inductive EncodeExc where
  | worker (e : PyExc)
  | driver (e : Python.Exc)
  | illegalArgument
  deriving DecidableEq, Repr

/-- A value of the driver. -/
inductive Value where
  | none
  | row (r : SharesRow)
  | bytes (b : Bytes)
  | str (s : String)

def Value.ofBytes (b : Option Bytes) : Value := b.elim .none .bytes

/-- `v.name`: a row has its columns as attributes. -/
def Value.attr (v : Value) (name : String) : Except Python.Exc Value :=
  match v with
  | row r =>
    if name = "a" then .ok (ofBytes r.a)
    else if name = "b" then .ok (ofBytes r.b)
    else if name = "id" then .ok (str r.id)
    else .error .attributeError
  | _ => .error .attributeError

/-- `len(b64encode(v))` -/
def Value.encodedLength : Value → Except Python.Exc ℕ
  | bytes b => .ok (b64encode b).length
  | _ => .error .typeError

/-- The integers the command has under a name. -/
def number (a : EncodeArgs) (name : String) : Except Python.Exc ℕ :=
  if name = "n_data" then .ok a.nData else .error .nameError

/-- `first()` evaluates the groups until one has a row. -/
def first : List (Except PyExc (List SharesRow)) → Except PyExc (Option SharesRow)
  | [] => .ok none
  | group :: groups => do
    let rows ← group
    match rows.head? with
    | some r => pure (some r)
    | none => first groups

def onWorker {α : Type} : Except PyExc α → Except EncodeExc α
  | .ok x => .ok x
  | .error e => .error (.worker e)

def onDriver {α : Type} : Except Python.Exc α → Except EncodeExc α
  | .ok x => .ok x
  | .error e => .error (.driver e)

section Commands

/-- What Spark and the random sources choose: the partitions of the input,
those of the output, and the coins and ids of each row of a group. -/
structure EncodePlan (L : Libprio) where
  input : Shuffle (List ℤ)
  output : Shuffle SharesRow
  coins : ℕ → ℕ → L.Coins
  uuid : ℕ → ℕ → String

variable {L : Libprio}

/-- The rows of group `k`.
mirrors prio_processor/spark/commands.py:213-224 -/
def encodeGroup (P : EncodePlan L) (a : EncodeArgs) (input : Frame) (k : ℕ)
    (rows : List (List ℤ)) : Except PyExc (List SharesRow) := do
  let shares ← Udf.encode L a (P.coins k) (.frame input.withPid rows)
  pure (shares.zipIdx.map fun p => ⟨p.1.a, p.1.b, P.uuid k p.2⟩)

/-- The table of shares, group by group. -/
def sharesOf (P : EncodePlan L) (a : EncodeArgs) (input : Frame) :
    List (Except PyExc (List SharesRow)) :=
  (P.input.groups input.rows).zipIdx.map fun p => encodeGroup P a input p.2 p.1

/-- The two outputs.
mirrors prio_processor/spark/commands.py:202-242 -/
def encodeShares (io : SparkIo) (P : EncodePlan L) (a : EncodeArgs) (input : Frame) :
    Except EncodeExc (List Row × List Row) := do
  let shares := sharesOf P a input
  let row ← onWorker (first shares)
  let share ← onDriver (((row.elim .none Value.row).attr "shares") >>= fun v => v.attr "a")
  let length ← onDriver share.encodedLength
  let nRows ← onDriver (number a "n_rows")
  let scale ← onDriver (number a "scale")
  let partitionSizeMb ← onDriver (number a "partition_size_mb")
  let numPartitions := ((length + 36) * nRows * scale + (1000000 * partitionSizeMb - 1)) /
    (1000000 * partitionSizeMb)
  if numPartitions < 1 then .error .illegalArgument
  else
    let rows ← onWorker (shares.mapM id)
    let repartitioned := P.output.rows rows.flatten
    pure (repartitioned.map fun r => ⟨r.id, r.a.map io.base64⟩,
      repartitioned.map fun r => ⟨r.id, r.b.map io.base64⟩)

variable {io : SparkIo} {P : EncodePlan L} {a : EncodeArgs} {input : Frame}

/-- No value of the driver that `first` gives has an attribute `shares`. -/
theorem attr_shares (row : Option SharesRow) :
    (row.elim .none Value.row).attr "shares" = .error .attributeError := by
  cases row with
  | none => rfl
  | some r => rfl

/-- The command ends at the size of the first row, if the groups before it do
not raise. -/
theorem encodeShares_eq : encodeShares io P a input =
    (onWorker (first (sharesOf P a input))).bind fun _ =>
      .error (.driver .attributeError) := by
  unfold encodeShares
  dsimp only
  cases first (sharesOf P a input) with
  | error e => rfl
  | ok row =>
    simp only [onWorker, Except.bind, bind]
    rw [attr_shares]
    rfl

theorem first_ok {groups : List (Except PyExc (List SharesRow))}
    (h : ∀ group ∈ groups, ∃ rows, group = .ok rows) : ∃ row, first groups = .ok row := by
  induction groups with
  | nil => exact ⟨none, rfl⟩
  | cons group groups ih =>
    obtain ⟨rows, hrows⟩ := h group List.mem_cons_self
    rw [first, hrows, ok_bind]
    cases rows with
    | nil => exact ih fun g hg => h g (.tail group hg)
    | cons r rows => exact ⟨some r, rfl⟩

/-- Every group has a row without shares for each column. -/
theorem sharesOf_labels {config : L.Config} (hkeys : encodeConfig L a = .ok config)
    (h : ∀ s ∈ input.columns, Udf.NoDigits s) : ∀ group ∈ sharesOf P a input,
      ∃ rows, group = .ok rows ∧ rows.length = input.withPid.length ∧
        ∀ r ∈ rows, r.a = none ∧ r.b = none := by
  have hpid : ∀ s ∈ input.withPid, Udf.NoDigits s := by
    intro s hs
    unfold Frame.withPid at hs
    split at hs
    · exact h s hs
    · rcases List.mem_append.1 hs with hs | hs
      · exact h s hs
      · rw [List.mem_singleton.1 hs]
        exact ⟨'p', by simp, by decide⟩
  intro group hg
  unfold sharesOf at hg
  obtain ⟨⟨rows, k⟩, -, rfl⟩ := List.mem_map.1 hg
  dsimp only
  unfold encodeGroup
  rw [Udf.encode_labels hkeys hpid, ok_bind]
  refine ⟨_, rfl, by simp, fun r hr => ?_⟩
  obtain ⟨p, hp, rfl⟩ := List.mem_map.1 hr
  obtain ⟨s, -, hs⟩ := List.mem_map.1 (List.fst_mem_of_mem_zipIdx hp)
  simp [← hs]

end Commands

end Spark

end PrioProcessor.L2
