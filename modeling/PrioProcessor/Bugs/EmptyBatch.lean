import PrioProcessor.L2Commands.Cli
import PrioProcessor.L2Commands.Spark

/-!
# A batch in which no share survives stops the Spark pipeline

The Spark verify commands write the rows that have a packet, and the next
command selects columns of what they wrote: of a directory without rows it
reads a table without columns and raises. Where the tables still have rows but
no id in common, `aggregate` groups an empty join, writes no row, and `publish`
raises. The command-line tools process the same batch: `aggregate` writes the
empty sum and `publish` the zero vector (`cli_publishes_zero`); the batch loop
of src/bin/process:173-189 runs under `set -e`, so one such batch ends the run.

Counterexample: two tables of one share each, which does not decode, and two
without a common id (`batch_stops`).

Condition: none. Whatever the cause, the Spark commands raise
`AnalysisException` (`empty_batch`).
-/
namespace PrioProcessor.Bugs.EmptyBatch

open L1 L2 L2.Spark Table

variable {L : Libprio} {V : L1.View L} {io : SparkIo} {a b : Args}

/-- All four commands complete at both servers, with one row of aggregate and
the zero vector. -/
def Processed (L : Libprio) (io : SparkIo) (A B : Plan) (a b : Args) (rawA rawB : List Row) :
    Prop :=
  ∃ v f, verifyStages L io A B a b rawA rawB = .ok v ∧
    sumStages L io A B a b rawA rawB v = .ok f ∧
    f.aggregateA.rows.length = 1 ∧ f.aggregateB.rows.length = 1 ∧
    f.publishA.payload = List.replicate a.nData 0 ∧ f.publishB.payload = List.replicate b.nData 0

/-- No row survives to the join of aggregate, at either server. -/
def NoneSurvives (io : SparkIo) (rawA rawB : List Row) (v : Verified) : Prop :=
  joinTables io rawA v.verify2A v.verify2B = [] ∧ joinTables io rawB v.verify2B v.verify2A = []

/-- The four commands at both servers. -/
def stages (L : Libprio) (io : SparkIo) (A B : Plan) (a b : Args) (rawA rawB : List Row) :
    Except PyExc Summed :=
  verifyStages L io A B a b rawA rawB >>= sumStages L io A B a b rawA rawB

/-- Naming a column of an empty table is the only way in which verify2 raises. -/
theorem verify2_raises (hS : V.SetDataLaw) (hP : V.PacketLaw) (o : Opened L a) (S : Shuffle Row)
    {raw vi ve : List Row} : verify2 L io S a raw vi ve = .error .analysisException ∨
      ∃ out, verify2 L io S a raw vi ve = .ok out := by
  by_cases hraw : raw = []
  · subst hraw; exact .inl rfl
  by_cases hvi : vi = []
  · subst hvi
    unfold verify2
    rw [selectFrom_ok hraw]
    exact .inl rfl
  by_cases hve : ve = []
  · subst hve
    unfold verify2
    rw [selectFrom_ok hraw, selectFrom_ok hvi]
    exact .inl rfl
  · exact .inr ⟨_, verify2_eq o hS hP S hraw hvi hve⟩

/-- On an empty join aggregate raises, or writes no row. -/
theorem aggregate_raises (o : Opened L a) (S : Shuffle Udf.Joined) (T : Shuffle Udf.Partial)
    {raw vi ve : List Row} (hnil : joinTables io raw vi ve = []) :
    aggregate L io S T a raw vi ve = .error .analysisException ∨
      aggregate L io S T a raw vi ve = .ok ⟨[], []⟩ := by
  unfold aggregate
  rw [secret_eq o, ok_bind]
  by_cases hraw : raw = []
  · subst hraw; exact .inl rfl
  rw [selectFrom_ok hraw, ok_bind]
  by_cases hvi : vi = []
  · subst hvi; exact .inl rfl
  rw [selectFrom_ok hvi, ok_bind]
  by_cases hve : ve = []
  · subst hve; exact .inl rfl
  rw [selectFrom_ok hve, ok_bind, hnil, Shuffle.groups_nil]
  exact .inr rfl

theorem publish_nil (external : List TotalRow) :
    publish L io a [] external = .error .analysisException := rfl

theorem sumStages_raises (oA : Opened L a) (oB : Opened L b) (A B : Plan) {rawA rawB : List Row}
    {v : Verified} (hnone : NoneSurvives io rawA rawB v) :
    sumStages L io A B a b rawA rawB v = .error .analysisException := by
  unfold sumStages
  rcases aggregate_raises oA A.joined A.partials hnone.1 with h | h
  · rw [h]; rfl
  rw [h, ok_bind]
  rcases aggregate_raises oB B.joined B.partials hnone.2 with h' | h'
  · rw [h']; rfl
  rw [h', ok_bind, publish_nil]
  rfl

/-- **Condition**: the Spark commands process no such batch. -/
theorem empty_batch (hS : V.SetDataLaw) (hP : V.PacketLaw) (oA : Opened L a) (oB : Opened L b)
    (A B : Plan) {rawA rawB : List Row} (hA : rawA ≠ []) (hB : rawB ≠ [])
    (hnone : ∀ v, verifyStages L io A B a b rawA rawB = .ok v → NoneSurvives io rawA rawB v) :
    stages L io A B a b rawA rawB = .error .analysisException ∧
      ¬ Processed L io A B a b rawA rawB := by
  have hraises : stages L io A B a b rawA rawB = .error .analysisException := by
    unfold stages
    cases hv : verifyStages L io A B a b rawA rawB with
    | ok v => exact sumStages_raises oA oB A B (hnone v hv)
    | error e =>
      -- verify1 completes on a table with rows
      unfold verifyStages at hv
      rw [verify1_eq oA hS hP A.verify1 hA, verify1_eq oB hS hP B.verify1 hB, ok_bind, ok_bind]
        at hv
      rcases verify2_raises hS hP oA A.verify2 with h | ⟨v2A, h⟩
      · rw [h] at hv; cases hv; rfl
      rw [h, ok_bind] at hv
      rcases verify2_raises hS hP oB B.verify2 with h' | ⟨v2B, h'⟩
      · rw [h'] at hv; cases hv; rfl
      · rw [h'] at hv; cases hv
  refine ⟨hraises, ?_⟩
  rintro ⟨v, f, hv, hf, -⟩
  unfold stages at hraises
  rw [hv, ok_bind, hf] at hraises
  cases hraises

/-- Two tables without a common id. -/
theorem empty_batch_sample :
    let rawA : List Row := [⟨"u", some (b64encode [3, 4])⟩]
    let rawB : List Row := [⟨"v", some (b64encode [254, 252])⟩]
    stages plain Sample.io ⟨.whole, .whole, .whole, .whole⟩ ⟨.whole, .whole, .whole, .whole⟩
      Sample.argsA Sample.argsB rawA rawB = .error .analysisException := by
  intro rawA rawB
  have hv : verifyStages plain Sample.io ⟨.whole, .whole, .whole, .whole⟩
      ⟨.whole, .whole, .whole, .whole⟩ Sample.argsA Sample.argsB rawA rawB =
      .ok ⟨[⟨"u", some "BwME"⟩], [⟨"v", some "B/78"⟩], [], []⟩ := by decide +kernel
  refine (empty_batch Plain.plain_setData Plain.plain_packet Sample.openedA Sample.openedB _ _
    (List.cons_ne_nil _ _) (List.cons_ne_nil _ _) fun v h => ?_).1
  rw [hv] at h
  cases h
  exact ⟨rfl, rfl⟩

/-- **Counterexample**: one share at each server, which does not decode; and
two shares without a common id. -/
theorem batch_stops :
    let C : Plan := ⟨.whole, .whole, .whole, .whole⟩
    verifyStages plain Sample.io C C Sample.argsA Sample.argsB [⟨"u", some (b64encode [9])⟩]
      [⟨"u", some (b64encode [9])⟩] = .error .analysisException ∧
    (¬ Processed plain Sample.io C C Sample.argsA Sample.argsB [⟨"u", some (b64encode [9])⟩]
      [⟨"u", some (b64encode [9])⟩]) ∧
    stages plain Sample.io C C Sample.argsA Sample.argsB [⟨"u", some (b64encode [3, 4])⟩]
      [⟨"v", some (b64encode [254, 252])⟩] = .error .analysisException := by
  intro C
  have hraises : verifyStages plain Sample.io C C Sample.argsA Sample.argsB
      [⟨"u", some (b64encode [9])⟩] [⟨"u", some (b64encode [9])⟩] = .error .analysisException := by
    decide +kernel
  refine ⟨hraises, ?_, by decide +kernel⟩
  rintro ⟨v, f, hv, -⟩
  rw [hraises] at hv
  cases hv

/-! ## The command-line tools -/

theorem replicate_zero (n m : ℕ) :
    ((List.range n).map fun _ => ((0 : ZMod m) + 0).val) = List.replicate n 0 := by
  simp

/-- On files of valid base64 the command-line tools complete, and where no
share was added they publish the zero vector. -/
theorem cli_publishes_zero (hC : View.ConfigLaw L) (hS : V.SetDataLaw) (hP : V.PacketLaw)
    (hA : V.AggregateLaw) (hT : V.TotalLaw) (oA : Opened L a) (oB : Opened L b)
    (ha : a.serverId = .A) (hb : b.serverId = .B) (hn : b.nData = a.nData)
    {rawA rawB : List Cli.Datum} (hrawA : ∀ d ∈ rawA, d.Decodes) (hrawB : ∀ d ∈ rawB, d.Decodes) :
    ∃ f, Cli.pipeline L a b rawA rawB = .ok f ∧
      (f.aggregateA.added = [] → f.aggregateB.added = [] →
        f.publishA = List.replicate a.nData 0 ∧ f.publishB = List.replicate a.nData 0) := by
  obtain ⟨f, hf, p⟩ := Cli.pipeline_produced hC hS hP hA hT oA oB ha hb hn hrawA hrawB
  refine ⟨f, hf, fun hnoA hnoB => ?_⟩
  -- without an added share both sums are zero
  have hzA : Cli.shareSum V oA.ident f.verify2A f.verify2B rawA = 0 := by
    unfold Cli.shareSum
    rw [List.map_eq_nil_iff.1 (p.addedA.symm.trans hnoA)]
    rfl
  have hzB : Cli.shareSum V oB.ident f.verify2B f.verify2A rawB = 0 := by
    unfold Cli.shareSum
    rw [List.map_eq_nil_iff.1 (p.addedB.symm.trans hnoB)]
    rfl
  rw [p.publishB, p.publishA, hzA, hzB]
  exact ⟨replicate_zero _ _, replicate_zero _ _⟩

end PrioProcessor.Bugs.EmptyBatch
