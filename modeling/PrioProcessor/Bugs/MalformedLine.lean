import PrioProcessor.L2Commands.Cli

/-!
# A line that is not base64 ends a command

`prio verify1` catches `RuntimeError`, verify2 and aggregate catch
`(RuntimeError, KeyError)` (prio_processor/prio/commands.py:144-158,216-238,
291-315), but `b64decode` inside the same `try` raises `binascii.Error`, a
`ValueError`, on a payload that is not valid base64. The exception leaves the
loop: verify1 and verify2 have written the lines before it, and a later stage
or the peer takes the file as complete. The Spark functions catch `ValueError`
too (`L2.Udf.catches`).

Counterexample: a file whose first line has the payload "A"; verify1 raises and
leaves an empty file, though the second line is good (`bad_line`).

Exact condition (`malformed_line_iff`): the payload of every line, and the
payloads that the dictionaries have for its id as far as they are looked up,
are valid base64.
-/
namespace PrioProcessor.Bugs.MalformedLine

open L1 L2 L2.Cli

variable {L : Libprio} {a : Args}

/-- A loop that went through all lines: what it emitted and counted are the
results of the lines' own calls. -/
structure LineByLine {σ β : Type} (body : Datum → Eff PyExc σ β) (raw : List Datum) (s : σ)
    (ended : Except PyExc Unit) (out : List β) (error total : ℕ) : Prop where
  ended : ended = .ok ()
  out : out = emitted id (outcomes body raw s)
  error : error = raised id (outcomes body raw s)
  total : total = raw.length

/-- verify1 goes through the whole file. -/
def Verify1Complete (o : Opened L a) (raw : List Datum) : Prop :=
  ∃ w, verify1 L a raw = .ok w ∧
    LineByLine (verify1Row L) raw (Round1.new L o.server) w.ended w.lines w.error w.total

/-- verify2 goes through the whole file. -/
def Verify2Complete (o : Opened L a) (raw vi ve : List Datum) : Prop :=
  ∃ w, verify2 L a raw vi ve = .ok w ∧
    LineByLine (verify2Row L o.config vi ve) raw (Round2.new L o.server) w.ended w.lines w.error
      w.total

/-- aggregate goes through the whole file, adds the lines whose calls return,
and writes its output. -/
def AggregateComplete (o : Opened L a) (raw vi ve : List Datum) : Prop :=
  ∃ g, aggregate L a raw vi ve = .ok g ∧
    LineByLine (aggregateRow L o.config vi ve) raw (Round3.new L o.server) (.ok ()) g.added
      g.share.error g.share.total

/-- A loop that ends has gone through all lines. -/
theorem forTry_lineByLine {σ β : Type} {caught : PyExc → Bool} {body : Datum → Eff PyExc σ β}
    {raw : List Datum} {s : σ} (h : (forTry caught body raw (Loop.start s)).1 = .ok ()) :
    LineByLine body raw s (.ok ()) (forTry caught body raw (Loop.start s)).2.out
      (forTry caught body raw (Loop.start s)).2.error
      (forTry caught body raw (Loop.start s)).2.total := by
  obtain ⟨s', hs'⟩ := forTry_outcomes (forTry_uncaught h)
  rw [hs']
  exact ⟨rfl, List.nil_append _, Nat.zero_add _, Nat.zero_add _⟩

/-! ## Lines -/

/-- A line of verify1 is caught when its payload is valid base64, and else is
not. -/
theorem verify1Row_caught_iff (hR : View.VerifyRaises L) (d : Datum) (s : Round1 L) :
    (∀ e, ((verify1Row L d).exec s).1 = .error e → catchesRuntime e = true) ↔ d.Decodes := by
  constructor
  · intro h
    by_contra hd
    have hvalue := h .valueError (by rw [verify1Row_undecoded hd])
    cases hvalue
  · intro hd e he
    exact verify1Row_error hR hd he

theorem verify2Row_caught_iff (hR : View.VerifyRaises L) (config : L.Config) (vi ve : List Datum)
    (d : Datum) (s : Round2 L) :
    (∀ e, ((verify2Row L config vi ve d).exec s).1 = .error e → catchesRuntimeKey e = true) ↔
      Readable vi ve d := by
  constructor
  · intro h
    by_contra hd
    have hvalue := h .valueError (by rw [verify2Row_noArgs (rowArgs_unreadable hd)])
    cases hvalue
  · intro hd e he
    exact verify2Row_error hR hd he

theorem aggregateRow_caught_iff (hR : View.AggregateRaises L) (config : L.Config)
    (vi ve : List Datum) (d : Datum) (s : Round3 L) :
    (∀ e, ((aggregateRow L config vi ve d).exec s).1 = .error e → catchesRuntimeKey e = true) ↔
      Readable vi ve d := by
  constructor
  · intro h
    by_contra hd
    have hnone : (aggregateRow L config vi ve d).exec s = (.error .valueError, s) := by
      unfold aggregateRow
      rw [rowArgs_unreadable hd]
      rfl
    have hvalue := h .valueError (by rw [hnone])
    cases hvalue
  · intro hd e he
    unfold aggregateRow at he
    rcases Eff.exec_bind_fst_error.1 he with he | ⟨⟨b, x, y⟩, -, he⟩
    · rw [rowArgs_error hd he]
      rfl
    · rcases Eff.exec_bind_fst_error.1 he with he | ⟨u, -, he⟩
      · rcases aggregateCalls_error hR he with rfl | he | he | he
        · rfl
        all_goals cases he
      · cases he

/-! ## Commands -/

theorem verify1Complete_iff (hR : View.VerifyRaises L) (o : Opened L a) (raw : List Datum) :
    Verify1Complete o raw ↔ ∀ d ∈ raw, d.Decodes := by
  rw [← forTry_ended_iff (l := Loop.start (Round1.new L o.server)) fun d _ s =>
    verify1Row_caught_iff hR d s]
  constructor
  · intro h
    obtain ⟨w, hw, hl⟩ := h
    rw [Cli.verify1_eq o] at hw
    cases hw
    exact hl.ended
  · intro h
    have hl := forTry_lineByLine h
    exact ⟨_, Cli.verify1_eq o raw, h, hl.out, hl.error, hl.total⟩

theorem verify2Complete_iff (hR : View.VerifyRaises L) (o : Opened L a) (raw vi ve : List Datum) :
    Verify2Complete o raw vi ve ↔ ∀ d ∈ raw, Readable vi ve d := by
  rw [← forTry_ended_iff (l := Loop.start (Round2.new L o.server)) fun d _ s =>
    verify2Row_caught_iff hR o.config vi ve d s]
  constructor
  · intro h
    obtain ⟨w, hw, hl⟩ := h
    rw [Cli.verify2_eq o] at hw
    cases hw
    exact hl.ended
  · intro h
    have hl := forTry_lineByLine h
    exact ⟨_, Cli.verify2_eq o raw vi ve, h, hl.out, hl.error, hl.total⟩

theorem aggregateComplete_iff (hR : View.AggregateRaises L) (hT : View.TotalWritten L)
    (o : Opened L a) (raw vi ve : List Datum) :
    AggregateComplete o raw vi ve ↔ ∀ d ∈ raw, Readable vi ve d := by
  rw [← forTry_ended_iff (l := Loop.start (Round3.new L o.server)) fun d _ s =>
    aggregateRow_caught_iff hR o.config vi ve d s]
  unfold AggregateComplete aggregate
  rw [o.openServer_eq, ok_bind]
  constructor
  · intro h
    obtain ⟨g, hg, -⟩ := h
    obtain ⟨u, hu, -⟩ := bind_ok hg
    exact hu
  · intro h
    obtain ⟨hset, w, hw⟩ := hT (forTry catchesRuntimeKey (aggregateRow L o.config vi ve) raw
      (Loop.start (Round3.new L o.server))).2.objs.server
    refine ⟨⟨_, b64encode w, _, _⟩, ?_, forTry_lineByLine h⟩
    dsimp only
    rw [h, ok_bind, hset, ok_bind, hw, ok_bind]
    rfl

/-- **Exact condition**: every line costs only itself exactly when no line of
the raw file, and no line its id is looked up as, has a payload that is not
valid base64. -/
theorem malformed_line_iff (hV : View.VerifyRaises L) (hA : View.AggregateRaises L)
    (hT : View.TotalWritten L) (o : Opened L a) (raw vi ve : List Datum) :
    (Verify1Complete o raw ↔ ∀ d ∈ raw, d.Decodes) ∧
    (Verify2Complete o raw vi ve ↔ ∀ d ∈ raw, Readable vi ve d) ∧
    (AggregateComplete o raw vi ve ↔ ∀ d ∈ raw, Readable vi ve d) :=
  ⟨verify1Complete_iff hV o raw, verify2Complete_iff hV o raw vi ve,
    aggregateComplete_iff hA hT o raw vi ve⟩

/-! ## One bad line of two -/

/-- The share of the first line does not decode, and the last line has no
internal packet. -/
theorem malformed_line_iff_sample :
    let raw : List Datum := [⟨"u", b64encode [9]⟩, ⟨"v", b64encode [3, 4]⟩, ⟨"w", ""⟩]
    let vi : List Datum := [⟨"v", b64encode [7, 3, 4]⟩, ⟨"u", b64encode []⟩]
    let ve : List Datum := [⟨"v", b64encode [7, 254, 252]⟩, ⟨"x", "A"⟩]
    Verify1Complete Sample.openedA raw ∧ Verify2Complete Sample.openedA raw vi ve ∧
      AggregateComplete Sample.openedA raw vi ve := by
  intro raw vi ve
  have hdecodes : ∀ d ∈ raw, d.Decodes := by decide
  have hvi : ∀ d ∈ vi, d.Decodes := by decide
  have hread : ∀ d ∈ raw, Readable vi ve d := by
    intro d hd
    refine ⟨hdecodes d hd, fun x hx => ⟨hvi x (Table.mem_of_lookup hx).1, fun y hy => ?_⟩⟩
    simp only [raw, List.mem_cons, List.not_mem_nil, or_false] at hd
    rcases hd with rfl | rfl | rfl
    · cases hy
    · cases hy; decide
    · cases hx
  obtain ⟨h₁, h₂, h₃⟩ := malformed_line_iff (Plain.plain_packet.raises Plain.plain_setData)
    Plain.plain_aggregateRaises Plain.plain_totalWritten Sample.openedA raw vi ve
  exact ⟨h₁.2 hdecodes, h₂.2 hread, h₃.2 hread⟩

/-- **Counterexample**: verify1 raises on its first line, and writes nothing for
the good second one. -/
theorem bad_line :
    let raw : List Datum := [⟨"u", "A"⟩, ⟨"v", b64encode [3, 4]⟩]
    (∃ w, verify1 plain Sample.argsA raw = .ok w ∧ w.ended = .error .valueError ∧
      w.lines = [] ∧ w.total = 1 ∧ w.error = 0) ∧ ¬ Verify1Complete Sample.openedA raw := by
  intro raw
  refine ⟨⟨_, Cli.verify1_eq Sample.openedA raw, rfl, rfl, rfl, rfl⟩, ?_⟩
  rintro ⟨w, hw, hl⟩
  rw [Cli.verify1_eq Sample.openedA] at hw
  cases hw
  cases hl.ended

end PrioProcessor.Bugs.MalformedLine
