import PrioProcessor.L4Bucket.Rerun

/-!
# A re-run mirrors under the marker of an earlier run

`rsync_delete` (src/bin/process:56-66) mirrors the files of a stage first and
copies `_SUCCESS` last, so that a waiting peer never reads half a directory. In
a re-run the marker of an earlier run is still in the peer's bucket:
`mc mirror --remove` deletes it at some point of the mirror, but may copy and
remove other files before that. A peer whose `wait_for_data` polls in between
passes on the old marker and reads the files of two runs; and a peer that passed
earlier reads on while the files are replaced.

Counterexample: server B fails after verify1, is started again and has copied
the new part file of `u`, when server A's verify2 reads the directory: A's job
reads the old part file as well (`mixed_runs`).

Condition on the steps (`undisturbed`, `reads_one_run`): `wait_for_data` passes
only when no mirror into the directory is unfinished, and a mirror copies or
removes only files of batches that the peer has not yet to read in the stage
after it.
-/
namespace PrioProcessor.Bugs.StaleMarker

open L4
open L1 (ServerId)

variable {β : Type} [DecidableEq β] {c : Cfg β} {σ : Sys β}

/-- The external files a stage has read so far are those of one complete output
`O` of the peer's preceding stage, in the batches it has passed; when it has
passed all of them, they are `O`. -/
def ReadsOneRun (σ : Sys β) (s : ServerId) : Prop :=
  ∀ st p, (σ s).pc.readsIn = some st → st.prev = some p →
    ∃ O ∈ (σ (peer s)).outputs p, (∀ f ∈ (σ s).read, f ∈ O) ∧
      (∀ f ∈ O, f.batch ∈ (σ s).pc.left ∨ f ∈ (σ s).read) ∧
      ((σ s).pc.left = [] → (σ s).read = O)

/-- **Condition**: in every run whose steps are undisturbed every stage reads
the output of one run. -/
theorem reads_one_run (h : (calmReruns c).Reachable σ) (s : ServerId) : ReadsOneRun σ s := by
  intro st p hst hp
  obtain ⟨O, hO⟩ := (rerunInv_reachable h s).2 st p hst hp
  refine ⟨O, hO.mem, hO.read, hO.rest, fun hleft => ?_⟩
  ext f
  constructor
  · exact hO.read f
  · intro hf
    rcases hO.rest f hf with hin | hin
    · rw [hleft] at hin; cases hin
    · exact hin

/-- Two batches, in the raw shares of both servers. -/
def twoBatches : Cfg String := ⟨["u", "v"], fun _ => {"u", "v"}, fun _ => true, 5⟩

/-- The batch loop of a server's verify1, one part file for each job. -/
def loopVerify1 (s : ServerId) : List (ServerId × (Act String ⊕ Fault)) :=
  [(s, .inl .poll), (s, .inl .check), (s, .inl (.job 1)), (s, .inl .check), (s, .inl (.job 1)),
    (s, .inl .loopEnd)]

/-- A mirror into an empty directory, after the jobs 0 and 1. -/
def mirrorFirst (s : ServerId) : List (ServerId × (Act String ⊕ Fault)) :=
  [(s, .inl (.copy ⟨"v", .part 1 0⟩)), (s, .inl (.copy ⟨"u", .success⟩)),
    (s, .inl (.copy ⟨"u", .part 0 0⟩)), (s, .inl (.copy ⟨"v", .success⟩)), (s, .inl .mirrorEnd),
    (s, .inl .cpMarker)]

/-- A mirror over the files of the jobs 0 and 1, after the jobs 2 and 3. -/
def mirrorSecond (s : ServerId) : List (ServerId × (Act String ⊕ Fault)) :=
  [(s, .inl (.copy ⟨"u", .part 2 0⟩)), (s, .inl (.remove ⟨"v", .part 1 0⟩)),
    (s, .inl .removeMarker), (s, .inl (.remove ⟨"u", .part 0 0⟩)),
    (s, .inl (.copy ⟨"v", .part 3 0⟩)), (s, .inl .mirrorEnd), (s, .inl .cpMarker)]

/-- Server B fails after verify1 and repeats it in a second run. -/
def repeatVerify1 : List (ServerId × (Act String ⊕ Fault)) :=
  loopVerify1 .B ++ mirrorFirst .B ++ [(.B, .inr .crash), (.B, .inr .restart)] ++
    loopVerify1 .B ++ mirrorSecond .B

/-- Server A's verify2 of two batches, up to the end of its loop. -/
def readBoth : List (ServerId × (Act String ⊕ Fault)) :=
  [(.A, .inl .poll), (.A, .inl .check), (.A, .inl (.job 1)), (.A, .inl .check), (.A, .inl (.job 1))]

/-- Server B has two outputs of verify1; server A's verify2 reads the second
one. -/
theorem reads_one_run_sample : ∃ σ, (calmReruns twoBatches).Reachable σ ∧
    (σ .A).pc = .loop .verify2 [] ∧ ((σ .B).outputs .verify1).length = 2 ∧
    (σ .A).read ∈ (σ .B).outputs .verify1 ∧ ⟨"u", .part 2 0⟩ ∈ (σ .A).read := by
  have hrun : (LTS.exec (fun σ l => if undisturbed σ l then stepAny twoBatches σ l else none)
      (fun _ => Node.start)
      (loopVerify1 .A ++ mirrorFirst .A ++ repeatVerify1 ++ readBoth)).map
        (fun σ => ((σ .A).pc, ((σ .B).outputs .verify1).length,
          decide (⟨"u", .part 2 0⟩ ∈ (σ .A).read))) =
      some (.loop .verify2 [], 2, true) := by decide +kernel
  obtain ⟨σ, hσ, hobs⟩ := Option.map_eq_some_iff.1 hrun
  have hpc : (σ .A).pc = .loop .verify2 [] := congrArg Prod.fst hobs
  have hlen : ((σ .B).outputs .verify1).length = 2 := congrArg (fun x => x.2.1) hobs
  have hpart : ⟨"u", .part 2 0⟩ ∈ (σ .A).read :=
    of_decide_eq_true (congrArg (fun x => x.2.2) hobs)
  have hreach : (calmReruns twoBatches).Reachable σ := ⟨_, _, rfl, LTS.guard_run_of_exec _ hσ⟩
  obtain ⟨O, hO, -, -, hread⟩ := reads_one_run hreach .A .verify2 .verify1 (by rw [hpc]; rfl) rfl
  have hall : (σ .A).read = O := hread (by rw [hpc]; rfl)
  exact ⟨σ, hreach, hpc, hlen, hall ▸ hO, hpart⟩

/-- One batch, in the raw shares of both servers. -/
def oneBatch : Cfg String := ⟨["u"], fun _ => {"u"}, fun _ => true, 5⟩

/-- verify1 of one server, whose job has the number `k`. -/
def runVerify1 (s : ServerId) (k : ℕ) : List (ServerId × (Act String ⊕ Fault)) :=
  [(s, .inl .poll), (s, .inl .check), (s, .inl (.job 1)), (s, .inl .loopEnd),
    (s, .inl (.copy ⟨"u", .success⟩)), (s, .inl (.copy ⟨"u", .part k 0⟩)), (s, .inl .mirrorEnd),
    (s, .inl .cpMarker)]

/-- Server A's verify2, up to the end of its batch loop. -/
def readVerify2 : List (ServerId × (Act String ⊕ Fault)) :=
  [(.A, .inl .poll), (.A, .inl .check), (.A, .inl (.job 1))]

/-- Server B runs verify1, fails, and copies the new part file in its second
run. -/
def rerunVerify1 : List (ServerId × (Act String ⊕ Fault)) :=
  runVerify1 .B 0 ++ [(.B, .inr .crash), (.B, .inr .restart), (.B, .inl .poll), (.B, .inl .check),
    (.B, .inl (.job 1)), (.B, .inl .loopEnd), (.B, .inl (.copy ⟨"u", .part 1 0⟩))]

/-- **Counterexample**: server A's verify2 reads the part files of two runs of
server B's verify1. -/
theorem mixed_runs : ∃ σ, (reruns oneBatch).Reachable σ ∧ (σ .A).pc = .loop .verify2 [] ∧
    (σ .A).read = {⟨"u", .success⟩, ⟨"u", .part 0 0⟩, ⟨"u", .part 1 0⟩} ∧ ¬ ReadsOneRun σ .A := by
  have hrun : (LTS.exec (stepAny oneBatch) (fun _ => Node.start)
      (runVerify1 .A 0 ++ rerunVerify1 ++ readVerify2)).map
        (fun σ => ((σ .A).pc, (σ .A).read, (σ .B).outputs .verify1)) = some (.loop .verify2 [],
          {⟨"u", .success⟩, ⟨"u", .part 0 0⟩, ⟨"u", .part 1 0⟩},
          [{⟨"u", .success⟩, ⟨"u", .part 1 0⟩}, {⟨"u", .success⟩, ⟨"u", .part 0 0⟩}]) := by
    decide +kernel
  obtain ⟨σ, hσ, hobs⟩ := Option.map_eq_some_iff.1 hrun
  have hreach : (reruns oneBatch).Reachable σ := ⟨_, _, rfl, LTS.run_of_exec _ hσ⟩
  have hpc : (σ .A).pc = .loop .verify2 [] := congrArg Prod.fst hobs
  have hread : (σ .A).read = {⟨"u", .success⟩, ⟨"u", .part 0 0⟩, ⟨"u", .part 1 0⟩} :=
    congrArg (fun x => x.2.1) hobs
  have houtputs : (σ .B).outputs .verify1 =
      [{⟨"u", .success⟩, ⟨"u", .part 1 0⟩}, {⟨"u", .success⟩, ⟨"u", .part 0 0⟩}] :=
    congrArg (fun x => x.2.2) hobs
  refine ⟨σ, hreach, hpc, hread, fun h => ?_⟩
  obtain ⟨O, hO, -, -, hall⟩ := h .verify2 .verify1 (by rw [hpc]; rfl) rfl
  have hmem : (σ .A).read ∈ (σ .B).outputs .verify1 := by
    rw [hall (by rw [hpc]; rfl)]; exact hO
  rw [hread, houtputs] at hmem
  exact absurd hmem (by decide)

end PrioProcessor.Bugs.StaleMarker
