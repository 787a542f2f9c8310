import PrioProcessor.L2Commands.Encode

/-!
# The Spark encoder encodes column labels, and stops

`encode_shares` (prio_processor/spark/commands.py:202-242) hands each partition
to `udf.encode` as a frame. The function was written for a series
(`generate`, spark/commands.py:61-73, calls it with one) and iterates over its
argument, so it tries to encode the labels of the columns: a partition gives
one row without shares for each column, whatever rows it has
(`labels_not_rows`). Before anything is written, the size of the first row is
taken from `row.shares.a`, a column of `generate` that this table does not
have, and from `n_rows`, `scale` and `partition_size_mb`, which are options of
`generate` alone: `row.shares` raises `AttributeError`. The command-line tool
writes the encodings (`cli_encodes`).

Counterexample: two rows of two fields in two partitions (`nothing_encoded`).

Condition: none. The command writes nothing, on any input (`never_encodes`).
-/
namespace PrioProcessor.Bugs.EncodedLabels

open L1 L2 Spark

variable {L : Libprio}

/-- The encoding of an input row under an id. -/
structure Encoding where
  id : String
  data : List ℤ
  a : Bytes
  b : Bytes
  deriving Inhabited

/-- The two outputs hold the two halves of an encoding of each input, once,
under distinct ids. -/
def Encoded (config : L.Config) (text : Bytes → String) (inputs : List (List ℤ))
    (outA outB : List (String × Option String)) : Prop :=
  ∃ es : List Encoding, (es.map Encoding.id).Nodup ∧ (es.map Encoding.data).Perm inputs ∧
    outA.Perm (es.map fun e => (e.id, some (text e.a))) ∧
    outB.Perm (es.map fun e => (e.id, some (text e.b))) ∧
    ∀ e ∈ es, ∃ x coins, bytesOf e.data = .ok x ∧
      L.prioClientEncode config x coins = .ok (e.a, e.b)

/-- The Spark command completes and encodes its input. -/
def Encodes (io : SparkIo) (P : EncodePlan L) (a : EncodeArgs) (input : Frame) : Prop :=
  ∃ config outA outB, encodeConfig L a = .ok config ∧
    encodeShares io P a input = .ok (outA, outB) ∧
    Encoded config io.base64 input.rows (outA.map fun r => (r.id, r.payload))
      (outB.map fun r => (r.id, r.payload))

/-- **Condition**: the command never completes. -/
theorem never_encodes (io : SparkIo) (P : EncodePlan L) (a : EncodeArgs) (input : Frame) :
    (∀ out, encodeShares io P a input ≠ .ok out) ∧ ¬ Encodes io P a input := by
  have hraises : ∀ out, encodeShares io P a input ≠ .ok out := by
    intro out hout
    rw [encodeShares_eq] at hout
    obtain ⟨row, -, hrow⟩ := bind_ok hout
    cases hrow
  exact ⟨hraises, fun ⟨_, _, _, _, hout, _⟩ => hraises _ hout⟩

namespace Sample

def args : EncodeArgs := ⟨[98], 2, [10], [20]⟩

/-- Two rows of two fields. -/
def rows : List (List ℤ) := [[1, 0], [0, 1]]

/-- Each row in its own partition. -/
def encodePlan : EncodePlan plain :=
  ⟨.halves, .whole, fun k i => ⟨UInt8.ofNat k, UInt8.ofNat i⟩, fun k i => Nat.repr (2 * k + i)⟩

end Sample

open Sample in
/-- **Counterexample**: of two rows in two partitions, the table of shares has
two null rows for each partition, and nothing is written; the command-line tool
writes two pairs of shares. -/
theorem nothing_encoded :
    sharesOf encodePlan args ⟨["payload"], rows⟩ =
      [.ok [⟨none, none, "0"⟩, ⟨none, none, "1"⟩], .ok [⟨none, none, "2"⟩, ⟨none, none, "3"⟩]] ∧
    encodeShares L2.Sample.io encodePlan args ⟨["payload"], rows⟩ =
      .error (.driver .attributeError) ∧
    ¬ Encodes L2.Sample.io encodePlan args ⟨["payload"], rows⟩ ∧
    Cli.encodeShares plain args (fun _ => ⟨3, 4⟩) Nat.repr rows =
      .ok ([⟨"0", b64encode [3, 4]⟩, ⟨"1", b64encode [3, 4]⟩],
        [⟨"0", b64encode [254, 252]⟩, ⟨"1", b64encode [253, 253]⟩]) := by
  have hraises : encodeShares L2.Sample.io encodePlan args ⟨["payload"], rows⟩ =
      .error (.driver .attributeError) := rfl
  refine ⟨by decide +kernel, hraises, ?_, by decide +kernel⟩
  rintro ⟨config, outA, outB, -, hout, -⟩
  rw [hraises] at hout
  cases hout

/-- With valid keys and labels that are not digits, the table of shares has a
row without shares for each column of a partition, and the command ends with
`AttributeError`. -/
theorem labels_not_rows (io : SparkIo) (P : EncodePlan L) {a : EncodeArgs} {config : L.Config}
    (hkeys : encodeConfig L a = .ok config) {input : Frame}
    (h : ∀ s ∈ input.columns, Udf.NoDigits s) :
    (∀ group ∈ sharesOf P a input, ∃ rows, group = .ok rows ∧
      rows.length = input.withPid.length ∧ ∀ r ∈ rows, r.a = none ∧ r.b = none) ∧
    encodeShares io P a input = .error (.driver .attributeError) := by
  have hgroups := sharesOf_labels (P := P) hkeys h
  obtain ⟨row, hrow⟩ := first_ok fun group hg => by
    obtain ⟨rows, hrows, -⟩ := hgroups group hg
    exact ⟨rows, hrows⟩
  refine ⟨hgroups, ?_⟩
  rw [encodeShares_eq, hrow]
  rfl

/-- The command-line tool encodes every input of zeros and ones. -/
theorem cli_encodes {a : EncodeArgs} {config : L.Config} (hkeys : encodeConfig L a = .ok config)
    (hclient : ∀ x coins, ClientVector a.nData x → ∃ s, L.prioClientEncode config x coins = .ok s)
    {uuid : ℕ → String} (huuid : uuid.Injective) (coins : ℕ → L.Coins) {input : List (List ℤ)}
    (hinput : ∀ xs ∈ input, ZeroOne a.nData xs) :
    ∃ outA outB, Cli.encodeShares L a coins uuid input = .ok (outA, outB) ∧
      Encoded config b64encode input (outA.map fun d => (d.id, some d.payload))
        (outB.map fun d => (d.id, some d.payload)) := by
  have hrow : ∀ p ∈ input.zipIdx, ∃ e : Encoding, e.id = uuid p.2 ∧ e.data = p.1 ∧
      (∃ x coins, bytesOf e.data = .ok x ∧ L.prioClientEncode config x coins = .ok (e.a, e.b)) ∧
      Cli.encodeRow L config (coins p.2) (uuid p.2) p.1 =
        .ok (⟨e.id, b64encode e.a⟩, ⟨e.id, b64encode e.b⟩) := by
    intro p hp
    obtain ⟨x, hx, hvec⟩ := bytesOf_client (hinput p.1 (List.fst_mem_of_mem_zipIdx hp))
    obtain ⟨s, hs⟩ := hclient x (coins p.2) hvec
    refine ⟨⟨uuid p.2, p.1, s.1, s.2⟩, rfl, rfl, ⟨x, coins p.2, hx, hs⟩, ?_⟩
    unfold Cli.encodeRow
    rw [hx, ok_bind, hs, ok_bind]
    rfl
  choose! e hid hdata hencodes hout using hrow
  have hids : (input.zipIdx.map e).map Encoding.id = (List.range' 0 input.length).map uuid := by
    rw [List.map_map, ← List.zipIdx_map_snd, List.map_map]
    exact List.map_congr_left hid
  have hinputs : (input.zipIdx.map e).map Encoding.data = input := by
    rw [List.map_map]
    exact (List.map_congr_left hdata).trans (List.zipIdx_map_fst 0 input)
  refine ⟨input.zipIdx.map fun p => ⟨(e p).id, b64encode (e p).a⟩,
    input.zipIdx.map fun p => ⟨(e p).id, b64encode (e p).b⟩, ?_, input.zipIdx.map e, ?_,
    .of_eq hinputs, ?_, ?_, ?_⟩
  · unfold Cli.encodeShares
    rw [hkeys, ok_bind, mapM_ok hout, ok_bind, List.map_map, List.map_map]
    rfl
  · rw [hids]
    exact List.Nodup.map huuid List.nodup_range'
  · rw [List.map_map, List.map_map]
    rfl
  · rw [List.map_map, List.map_map]
    rfl
  · intro x hx
    obtain ⟨p, hp, rfl⟩ := List.mem_map.1 hx
    exact hencodes p hp

end PrioProcessor.Bugs.EncodedLabels
