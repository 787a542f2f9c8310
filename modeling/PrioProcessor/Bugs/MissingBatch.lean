import PrioProcessor.L4Bucket.HandOff

/-!
# A batch that only the peer has ends the run

The batch loops of verify2, aggregate and publish skip a batch that is not in
the external input, but test no other input directory (src/bin/process:146,
176,204). For a batch that is under `raw/shares` of the peer only, the external
verify1 directory exists, and verify2 is submitted without the raw shares and
without the internal verify1 output (`missing_batch`): the job fails, and
under `set -e` the run ends before any batch is published. The loops mean to
skip such batches ("data for … does not exist, skipping..."), and the
integration data drops a batch to test just this, but on both sides
(prio_processor/spark/commands.py:152-158).

Exact condition (`skips_iff`): every configured batch is in the raw shares of
both servers or of none.
-/
namespace PrioProcessor.Bugs.MissingBatch

open L4
open L1 (ServerId)

variable {β : Type} [DecidableEq β]

/-- Missing batches are skipped: every job has its inputs, both servers can
finish unless one ran out of polls, and then each has published the configured
batches available at both. -/
structure Skips (c : Cfg β) : Prop where
  submits : ∀ σ, (process c).Reachable σ → ∀ s st b todo, (σ s).pc = .submit st b todo →
    inputs c s (σ s) (σ (peer s)).out st b = true
  finishes : ∀ σ, (process c).Reachable σ → (∀ s, (σ s).pc ≠ .gaveUp) →
    ∃ ls τ, (process c).Run σ ls τ ∧ ∀ s, (τ s).pc = .done
  publishes : ∀ σ, (process c).Reachable σ → (∀ s, (σ s).pc = .done) → ∀ s b,
    visible ((σ s).priv .publish) b = true ↔ b ∈ c.config ∧ ∀ t, b ∈ c.raw t

/-- In a finished run verify2 has processed the peer's configured batches, each
with the server's own raw shares. -/
theorem raw_of_peer {c : Cfg β} {σ : Sys β} (h : (process c).Reachable σ) {s : ServerId}
    (hpc : (σ s).pc = .done) {b : β} (hb : b ∈ c.config) (hraw : b ∈ c.raw (peer s)) :
    b ∈ c.raw s := by
  have hgood := inv_reachable h s
  have hat := hgood.atPc
  rw [hpc] at hat
  have hsent := hat.1 .verify2 (by decide)
  exact hgood.used .verify2 (by decide) b ((hsent.batches b).2 ⟨hb, hraw⟩)

/-- **Exact condition**: missing batches are skipped exactly when the
configured raw batches of the two servers are the same. -/
theorem skips_iff (c : Cfg β) (hraw : ∀ s, c.rawSuccess s = true) (hc : Common c) :
    Skips c ↔ ∀ b ∈ c.config, (b ∈ c.raw .A ↔ b ∈ c.raw .B) := by
  have hinit : (process c).Reachable fun _ => Node.start := LTS.reachable_init rfl
  constructor
  · intro h b hb
    obtain ⟨ls, τ, -, hτ, hdone⟩ := runs_to_done hraw hc h.submits hinit fun _ hs => by
      rcases hs with hs | hs <;> cases hs
    exact ⟨raw_of_peer (s := .B) hτ (hdone _) hb, raw_of_peer (s := .A) hτ (hdone _) hb⟩
  · intro h
    have hsame : ∀ b ∈ c.config, ∀ s t, b ∈ c.raw s → b ∈ c.raw t := by
      intro b hb s t
      cases s <;> cases t
      · exact id
      · exact (h b hb).1
      · exact (h b hb).2
      · exact id
    have hsubmits : ∀ σ, (process c).Reachable σ → ∀ s st b todo,
        (σ s).pc = .submit st b todo → inputs c s (σ s) (σ (peer s)).out st b = true :=
      fun σ hσ s st b todo hpc => HandOff.submit_inputs (inv_reachable hσ) hsame hpc
    refine ⟨hsubmits, fun σ hσ hgave => ?_, fun σ hσ hdone s b => ?_⟩
    · have hstop : ∀ s, ¬ (σ s).pc.Stopped := by
        intro s hs
        rcases hs with hs | hs
        · exact hgave s hs
        · exact HandOff.not_aborted hsame hc hσ s hs
      obtain ⟨ls, τ, hrun, -, hdone⟩ := runs_to_done hraw hc hsubmits hσ hstop
      exact ⟨ls, τ, hrun, hdone⟩
    · rw [HandOff.published hsame hσ (hdone s) b]
      exact and_congr_right fun hb => ⟨fun hs t => hsame b hb s t hs, fun ht => ht s⟩

theorem skips_sample : Skips HandOff.sampleCfg :=
  (skips_iff HandOff.sampleCfg (fun _ => rfl) ⟨"u", by decide, fun s => by cases s <;> decide⟩).2
    (by decide)

/-- The batch `v` is in the raw shares of server B only. -/
def oneSided : Cfg String where
  config := ["u", "v"]
  raw := fun
    | .A => {"u"}
    | .B => {"u", "v"}
  rawSuccess _ := true
  retryLimit := 5

/-- Both servers run verify1, then server A starts verify2. -/
def oneSidedRun : List (ServerId × Act String) :=
  [(.A, .poll), (.A, .check), (.A, .job 1), (.A, .check), (.A, .loopEnd),
    (.A, .copy ⟨"u", .success⟩), (.A, .copy ⟨"u", .part 0 0⟩), (.A, .mirrorEnd), (.A, .cpMarker),
    (.B, .poll), (.B, .check), (.B, .job 1), (.B, .check), (.B, .job 1), (.B, .loopEnd),
    (.B, .copy ⟨"u", .success⟩), (.B, .copy ⟨"u", .part 0 0⟩), (.B, .copy ⟨"v", .success⟩),
    (.B, .copy ⟨"v", .part 1 0⟩), (.B, .mirrorEnd), (.B, .cpMarker),
    (.A, .poll), (.A, .check), (.A, .job 1), (.A, .check)]

/-- **Counterexample**: server A submits verify2 for `v`, whose raw shares and
internal verify1 output do not exist. -/
theorem missing_batch : ¬ Skips oneSided ∧ ∃ σ, (process oneSided).Reachable σ ∧
    (σ .A).pc = .submit .verify2 "v" [] ∧ "v" ∉ oneSided.raw .A ∧
    visible ((σ .A).priv .verify1) "v" = false := by
  have hrun : (LTS.exec (step oneSided) (fun _ => Node.start) oneSidedRun).map
      (fun σ => ((σ .A).pc, visible ((σ .A).priv .verify1) "v")) =
        some (.submit .verify2 "v" [], false) := by decide +kernel
  obtain ⟨σ, hσ, hobs⟩ := Option.map_eq_some_iff.1 hrun
  have hreach : (process oneSided).Reachable σ := ⟨_, _, rfl, LTS.run_of_exec _ hσ⟩
  have hpc := congrArg Prod.fst hobs
  have hpriv := congrArg Prod.snd hobs
  dsimp only at hpc hpriv
  refine ⟨fun h => ?_, σ, hreach, hpc, by decide, hpriv⟩
  have hi := h.submits σ hreach .A _ _ _ hpc
  rw [inputs_eq rfl, hpriv] at hi
  simp at hi

end PrioProcessor.Bugs.MissingBatch
