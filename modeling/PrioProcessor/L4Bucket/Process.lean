import PrioProcessor.Core.Lts
import PrioProcessor.L4Bucket.Paths
import Mathlib.Data.Finset.Image
import Mathlib.Logic.Function.Basic

/-!
# Two runs of bin/process

`src/bin/process:56-231` at server A and at server B as a transition system
over the files of their buckets. A server goes through verify1, verify2,
aggregate and publish. A stage waits for a `_SUCCESS` marker, tests for every
configured batch whether its input exists and submits a Spark job for it, and
mirrors its output into the peer's shared bucket, one file at a time, followed
by the marker. Under `set -e` a job without its input directories ends the run,
and so does a mirror of a directory that does not exist.

Every directory has a variable of its own: `out` of a server is the external
input of the peer's next stage, and nothing else writes it. `Objects` shows this
of the keys of the script.

`made`, `outputs`, `read` and `Shared.dirty` are history, which no step tests:
the files of the current stage's jobs, the complete outputs of each stage, the
external files read by the current stage, and whether the directory was changed
since its last marker was copied.
-/
namespace PrioProcessor.L4

open L1 (ServerId)

/-- mirrors src/bin/process:226-229 -/
inductive Stage where
  | verify1 | verify2 | aggregate | publish
  deriving DecidableEq, Repr

namespace Stage

/-- The stage whose output a stage reads. -/
def prev : Stage → Option Stage
  | .verify1 => none
  | .verify2 => some .verify1
  | .aggregate => some .verify2
  | .publish => some .aggregate

def next : Stage → Option Stage
  | .verify1 => some .verify2
  | .verify2 => some .aggregate
  | .aggregate => some .publish
  | .publish => none

def idx : Stage → ℕ
  | .verify1 => 0
  | .verify2 => 1
  | .aggregate => 2
  | .publish => 3

theorem idx_inj {s t : Stage} (h : s.idx = t.idx) : s = t := by
  cases s <;> cases t <;> first | rfl | cases h

theorem idx_next {s t : Stage} (h : s.next = some t) : t.idx = s.idx + 1 := by
  cases s <;> cases h <;> rfl

theorem idx_prev {s t : Stage} (h : s.prev = some t) : s.idx = t.idx + 1 := by
  cases s <;> cases h <;> rfl

theorem prev_eq_none {s : Stage} (h : s.prev = none) : s = .verify1 := by
  cases s <;> first | rfl | cases h

theorem next_eq_none {s : Stage} (h : s.next = none) : s = .publish := by
  cases s <;> first | rfl | cases h

theorem idx_le (s : Stage) : s.idx ≤ 3 := by cases s <;> decide

end Stage

/-- The last component of a key in a batch directory: Spark's own marker, or a
part file, whose name is new for every job. -/
inductive Name where
  | success
  | part (job k : ℕ)
  deriving DecidableEq, Repr

/-- A file `batch_id=<batch>/<name>` of a stage's directory. -/
structure File (β : Type) where
  batch : β
  name : Name
  deriving DecidableEq, Repr

/-- A directory `intermediate/external/<stage>` with its `_SUCCESS` marker. -/
structure Shared (β : Type) where
  files : Finset (File β)
  success : Bool
  dirty : Bool
  deriving DecidableEq

def Shared.empty {β : Type} : Shared β := ⟨∅, false, false⟩

/-- Where a run is: polling for the marker, before the check of the next
batch, before the job of a batch, mirroring, before the copy of the marker;
finished, out of retries, ended by a failed command. -/
inductive Pc (β : Type) where
  | wait (st : Stage) (retries : ℕ)
  | loop (st : Stage) (todo : List β)
  | submit (st : Stage) (batch : β) (todo : List β)
  | mirror (st : Stage)
  | marker (st : Stage)
  | done
  | gaveUp
  | aborted
  deriving DecidableEq, Repr

/-- A server: its program counter, its `intermediate/internal` directories
(for publish: `processed/publish`), and the directories it mirrors into. -/
structure Node (β : Type) where
  pc : Pc β
  priv : Stage → Finset (File β)
  out : Stage → Shared β
  /-- the number of jobs so far, which makes part files fresh -/
  jobs : ℕ
  made : Finset (File β)
  outputs : Stage → List (Finset (File β))
  read : Finset (File β)

/-- The batch ids of `DATA_CONFIG`, the batches under `raw/shares` of each
server, whether `raw/shares/_SUCCESS` is there, and `RETRY_LIMIT`. -/
structure Cfg (β : Type) where
  config : List β
  raw : ServerId → Finset β
  rawSuccess : ServerId → Bool
  retryLimit : ℕ

variable {β : Type} [DecidableEq β]

/-- `mc stat` on a batch directory: some key has the prefix. -/
def visible (d : Finset (File β)) (b : β) : Bool := decide (∃ f ∈ d, f.batch = b)

@[simp] theorem visible_iff {d : Finset (File β)} {b : β} :
    visible d b = true ↔ ∃ f ∈ d, f.batch = b := by
  unfold visible; exact decide_eq_true_iff

theorem visible_false_iff {d : Finset (File β)} {b : β} :
    visible d b = false ↔ ∀ f ∈ d, f.batch ≠ b := by
  rw [Bool.eq_false_iff, ne_eq, visible_iff]
  exact ⟨fun h f hf hb => h ⟨f, hf, hb⟩, fun h hv => hv.elim fun f hf => h f hf.1 hf.2⟩

/-- Overwrite the directory of a batch. -/
def writeBatch (d : Finset (File β)) (b : β) (new : Finset (File β)) : Finset (File β) :=
  d.filter (fun f => f.batch ≠ b) ∪ new

/-- The part files of a job. -/
def parts (b : β) (job n : ℕ) : Finset (File β) := (Finset.range n).image fun k => ⟨b, .part job k⟩

/-- What a job that succeeds writes. -/
def jobFiles (b : β) (job n : ℕ) : Finset (File β) := insert ⟨b, .success⟩ (parts b job n)

theorem parts_batch {b : β} {job n : ℕ} {f : File β} (h : f ∈ parts b job n) : f.batch = b := by
  unfold parts at h
  obtain ⟨k, -, rfl⟩ := Finset.mem_image.1 h
  rfl

theorem jobFiles_batch {b : β} {job n : ℕ} {f : File β} (h : f ∈ jobFiles b job n) :
    f.batch = b := by
  unfold jobFiles at h
  rcases Finset.mem_insert.1 h with rfl | h
  · rfl
  · exact parts_batch h

theorem mem_writeBatch {d new : Finset (File β)} {b : β} {f : File β} :
    f ∈ writeBatch d b new ↔ f ∈ d ∧ f.batch ≠ b ∨ f ∈ new := by
  unfold writeBatch
  rw [Finset.mem_union, Finset.mem_filter]

/-- After a job the directory has the job's batch and the batches it had. -/
theorem visible_writeBatch {d : Finset (File β)} {b b' : β} {job n : ℕ} :
    visible (writeBatch d b (jobFiles b job n)) b' = true ↔ b' = b ∨ visible d b' = true := by
  simp only [visible_iff, mem_writeBatch]
  constructor
  · intro h
    obtain ⟨f, hf | hf, rfl⟩ := h
    · exact .inr ⟨f, hf.1, rfl⟩
    · exact .inl (jobFiles_batch hf)
  · intro h
    by_cases hb : b' = b
    · exact ⟨⟨b, .success⟩, .inr (Finset.mem_insert_self _ _), hb.symm⟩
    · obtain ⟨f, hf, rfl⟩ := h.resolve_left hb
      exact ⟨f, .inl ⟨hf, hb⟩, rfl⟩

/-! ## Steps of one run -/

/-- The steps of a run; `job n` writes `n` part files. -/
inductive Act (β : Type) where
  | poll
  | check
  | job (n : ℕ)
  | loopEnd
  | copy (f : File β)
  | remove (f : File β)
  | removeMarker
  | mirrorEnd
  | cpMarker
  deriving DecidableEq, Repr

section Steps

variable (c : Cfg β) (s : ServerId) (n : Node β) (peerOut : Stage → Shared β)

/-- The marker a stage waits for.
mirrors src/bin/process:109,141,171,199 -/
def ready : Stage → Bool
  | .verify1 => c.rawSuccess s
  | .verify2 => (peerOut .verify1).success
  | .aggregate => (peerOut .verify2).success
  | .publish => (peerOut .aggregate).success

/-- The existence check of the batch loop.
mirrors src/bin/process:118,146,176,204 -/
def present : Stage → β → Bool
  | .verify1, b => b ∈ c.raw s
  | .verify2, b => visible (peerOut .verify1).files b
  | .aggregate, b => visible (peerOut .verify2).files b
  | .publish, b => visible (peerOut .aggregate).files b

/-- All input directories of the job exist.
mirrors src/bin/process:122-126,150-156,180-186,208-213 -/
def inputs : Stage → β → Bool
  | .verify1, b => b ∈ c.raw s
  | .verify2, b =>
    b ∈ c.raw s && visible (n.priv .verify1) b && visible (peerOut .verify1).files b
  | .aggregate, b =>
    b ∈ c.raw s && visible (n.priv .verify2) b && visible (peerOut .verify2).files b
  | .publish, b => visible (n.priv .aggregate) b && visible (peerOut .aggregate).files b

/-- The external files a job reads. -/
def jobReads : Stage → β → Finset (File β)
  | .verify1, _ => ∅
  | .verify2, b => (peerOut .verify1).files.filter fun f => f.batch = b
  | .aggregate, b => (peerOut .verify2).files.filter fun f => f.batch = b
  | .publish, b => (peerOut .aggregate).files.filter fun f => f.batch = b

/-- A job that succeeds. -/
def Node.ran (st : Stage) (b : β) (todo : List β) (k : ℕ) : Node β :=
  { n with
    pc := .loop st todo
    priv := Function.update n.priv st (writeBatch (n.priv st) b (jobFiles b n.jobs k))
    jobs := n.jobs + 1
    made := writeBatch n.made b (jobFiles b n.jobs k)
    read := n.read ∪ jobReads peerOut st b }

/-- Change a directory the server mirrors into. -/
def Node.setOut (st : Stage) (d : Shared β) : Node β :=
  { n with out := Function.update n.out st d }

omit [DecidableEq β] in
@[simp] theorem Node.setOut_self (st : Stage) (d : Shared β) : (n.setOut st d).out st = d :=
  Function.update_self _ _ _

omit [DecidableEq β] in
@[simp] theorem Node.setOut_ne {st t : Stage} (h : t ≠ st) (d : Shared β) :
    (n.setOut st d).out t = n.out t := Function.update_of_ne h _ _

omit [DecidableEq β] in
@[simp] theorem Node.setOut_pc (st : Stage) (d : Shared β) : (n.setOut st d).pc = n.pc := rfl

@[simp] theorem Node.ran_self (st : Stage) (b : β) (todo : List β) (k : ℕ) :
    (n.ran peerOut st b todo k).priv st = writeBatch (n.priv st) b (jobFiles b n.jobs k) :=
  Function.update_self _ _ _

@[simp] theorem Node.ran_ne {st t : Stage} (h : t ≠ st) (b : β) (todo : List β) (k : ℕ) :
    (n.ran peerOut st b todo k).priv t = n.priv t := Function.update_of_ne h _ _

/-- A step of a server whose peer mirrors into `peerOut`.
mirrors src/bin/process:56-90,102-215 -/
def act : Act β → Option (Node β)
  | .poll =>
    match n.pc with
    | .wait st retries =>
      if ready c s peerOut st then some { n with pc := .loop st c.config, made := ∅, read := ∅ }
      else if c.retryLimit < retries + 1 then some { n with pc := .gaveUp }
      else some { n with pc := .wait st (retries + 1) }
    | _ => none
  | .check =>
    match n.pc with
    | .loop st (b :: todo) =>
      if present c s peerOut st b then some { n with pc := .submit st b todo }
      else some { n with pc := .loop st todo }
    | _ => none
  | .job k =>
    match n.pc with
    | .submit st b todo =>
      if inputs c s n peerOut st b then some (n.ran peerOut st b todo k)
      else some { n with pc := .aborted }
    | _ => none
  | .loopEnd =>
    match n.pc with
    | .loop st [] =>
      match st.next with
      | none => some { n with pc := .done }
      | some _ =>
        if n.priv st = ∅ then some { n with pc := .aborted }
        else some { n with
          pc := .mirror st
          outputs := Function.update n.outputs st (n.made :: n.outputs st) }
    | _ => none
  | .copy f =>
    match n.pc with
    | .mirror st =>
      if f ∈ n.priv st ∧ f ∉ (n.out st).files then
        some (n.setOut st { n.out st with files := insert f (n.out st).files, dirty := true })
      else none
    | _ => none
  | .remove f =>
    match n.pc with
    | .mirror st =>
      if f ∉ n.priv st ∧ f ∈ (n.out st).files then
        some (n.setOut st { n.out st with files := (n.out st).files.erase f, dirty := true })
      else none
    | _ => none
  | .removeMarker =>
    match n.pc with
    | .mirror st =>
      if (n.out st).success then
        some (n.setOut st { n.out st with success := false, dirty := true })
      else none
    | _ => none
  | .mirrorEnd =>
    match n.pc with
    | .mirror st =>
      if (n.out st).files = n.priv st ∧ (n.out st).success = false then
        some { n with pc := .marker st }
      else none
    | _ => none
  | .cpMarker =>
    match n.pc with
    | .marker st =>
      match st.next with
      | some t => some { n.setOut st { n.out st with success := true, dirty := false } with
          pc := .wait t 0 }
      | none => none
    | _ => none

/-- The steps of `act`, one constructor for each branch. -/
inductive Move : Act β → Node β → Prop
  | pass {st r} : n.pc = .wait st r → ready c s peerOut st = true →
      Move .poll { n with pc := .loop st c.config, made := ∅, read := ∅ }
  | giveUp {st r} : n.pc = .wait st r → ready c s peerOut st = false → c.retryLimit < r + 1 →
      Move .poll { n with pc := .gaveUp }
  | retry {st r} : n.pc = .wait st r → ready c s peerOut st = false → r + 1 ≤ c.retryLimit →
      Move .poll { n with pc := .wait st (r + 1) }
  | found {st b todo} : n.pc = .loop st (b :: todo) → present c s peerOut st b = true →
      Move .check { n with pc := .submit st b todo }
  | skip {st b todo} : n.pc = .loop st (b :: todo) → present c s peerOut st b = false →
      Move .check { n with pc := .loop st todo }
  | ran {st b todo} (k : ℕ) : n.pc = .submit st b todo → inputs c s n peerOut st b = true →
      Move (.job k) (n.ran peerOut st b todo k)
  | failed {st b todo} (k : ℕ) : n.pc = .submit st b todo → inputs c s n peerOut st b = false →
      Move (.job k) { n with pc := .aborted }
  | finish {st} : n.pc = .loop st [] → st.next = none → Move .loopEnd { n with pc := .done }
  | noOutput {st t} : n.pc = .loop st [] → st.next = some t → n.priv st = ∅ →
      Move .loopEnd { n with pc := .aborted }
  | startMirror {st t} : n.pc = .loop st [] → st.next = some t → n.priv st ≠ ∅ →
      Move .loopEnd { n with
        pc := .mirror st
        outputs := Function.update n.outputs st (n.made :: n.outputs st) }
  | copy {st f} : n.pc = .mirror st → f ∈ n.priv st → f ∉ (n.out st).files →
      Move (.copy f)
        (n.setOut st { n.out st with files := insert f (n.out st).files, dirty := true })
  | remove {st f} : n.pc = .mirror st → f ∉ n.priv st → f ∈ (n.out st).files →
      Move (.remove f)
        (n.setOut st { n.out st with files := (n.out st).files.erase f, dirty := true })
  | removeMarker {st} : n.pc = .mirror st → (n.out st).success = true →
      Move .removeMarker (n.setOut st { n.out st with success := false, dirty := true })
  | endMirror {st} : n.pc = .mirror st → (n.out st).files = n.priv st →
      (n.out st).success = false → Move .mirrorEnd { n with pc := .marker st }
  | mark {st t} : n.pc = .marker st → st.next = some t →
      Move .cpMarker { n.setOut st { n.out st with success := true, dirty := false } with
        pc := .wait t 0 }

end Steps

section Moves

variable {c : Cfg β} {s : ServerId} {n n' : Node β} {peerOut : Stage → Shared β} {a : Act β}

theorem act_move (h : act c s n peerOut a = some n') : Move c s n peerOut a n' := by
  unfold act at h
  cases a with
  | poll =>
    dsimp only at h
    split at h
    · rename_i st r hpc
      split at h
      · rename_i hr; cases h; exact .pass hpc hr
      · rename_i hr
        have hr := Bool.not_eq_true _ ▸ hr
        split at h
        · rename_i hlt; cases h; exact .giveUp hpc hr hlt
        · rename_i hle; cases h; exact .retry hpc hr (by omega)
    · cases h
  | check =>
    dsimp only at h
    split at h
    · rename_i st b todo hpc
      split at h
      · rename_i hp; cases h; exact .found hpc hp
      · rename_i hp; cases h; exact .skip hpc (Bool.not_eq_true _ ▸ hp)
    · cases h
  | job k =>
    dsimp only at h
    split at h
    · rename_i st b todo hpc
      split at h
      · rename_i hi; cases h; exact .ran k hpc hi
      · rename_i hi; cases h; exact .failed k hpc (Bool.not_eq_true _ ▸ hi)
    · cases h
  | loopEnd =>
    dsimp only at h
    split at h
    · rename_i st hpc
      split at h
      · rename_i hn; cases h; exact .finish hpc hn
      · rename_i t hn
        split at h
        · rename_i he; cases h; exact .noOutput hpc hn he
        · rename_i he; cases h; exact .startMirror hpc hn he
    · cases h
  | copy f =>
    dsimp only at h
    split at h
    · rename_i st hpc
      split at h
      · rename_i hf; cases h; exact .copy hpc hf.1 hf.2
      · cases h
    · cases h
  | remove f =>
    dsimp only at h
    split at h
    · rename_i st hpc
      split at h
      · rename_i hf; cases h; exact .remove hpc hf.1 hf.2
      · cases h
    · cases h
  | removeMarker =>
    dsimp only at h
    split at h
    · rename_i st hpc
      split at h
      · rename_i hm; cases h; exact .removeMarker hpc hm
      · cases h
    · cases h
  | mirrorEnd =>
    dsimp only at h
    split at h
    · rename_i st hpc
      split at h
      · rename_i hf; cases h; exact .endMirror hpc hf.1 hf.2
      · cases h
    · cases h
  | cpMarker =>
    dsimp only at h
    split at h
    · rename_i st hpc
      split at h
      · rename_i t hn; cases h; exact .mark hpc hn
      · cases h
    · cases h

theorem move_act (h : Move c s n peerOut a n') : act c s n peerOut a = some n' := by
  unfold act
  cases h with
  | pass hpc hr => simp only [hpc, hr, if_true]
  | giveUp hpc hr hlt => simp only [hpc, hr, hlt, if_true, Bool.false_eq_true, if_false]
  | retry hpc hr hle =>
    simp only [hpc, hr, Bool.false_eq_true, if_false, if_neg (Nat.not_lt.2 hle)]
  | found hpc hp => simp only [hpc, hp, if_true]
  | skip hpc hp => simp only [hpc, hp, Bool.false_eq_true, if_false]
  | ran k hpc hi => simp only [hpc, hi, if_true]
  | failed k hpc hi => simp only [hpc, hi, Bool.false_eq_true, if_false]
  | finish hpc hn => simp only [hpc, hn]
  | noOutput hpc hn he => simp only [hpc, hn, he, if_true]
  | startMirror hpc hn he => simp only [hpc, hn, he, if_false]
  | copy hpc hf hf' => simp only [hpc, hf, hf', not_false_eq_true, and_self, if_true]
  | remove hpc hf hf' => simp only [hpc, hf, hf', not_false_eq_true, and_self, if_true]
  | removeMarker hpc hm => simp only [hpc, hm, if_true]
  | endMirror hpc hf hm => simp only [hpc, hf, hm, and_self, if_true]
  | mark hpc hn => simp only [hpc, hn]

/-! ## The external directory of a stage -/

omit [DecidableEq β] in
theorem ready_eq {st p : Stage} (h : st.prev = some p) :
    ready c s peerOut st = (peerOut p).success := by
  cases st <;> cases h <;> rfl

theorem present_eq {st p : Stage} (h : st.prev = some p) (b : β) :
    present c s peerOut st b = visible (peerOut p).files b := by
  cases st <;> cases h <;> rfl

theorem jobReads_eq {st p : Stage} (h : st.prev = some p) (b : β) :
    jobReads peerOut st b = (peerOut p).files.filter fun f => f.batch = b := by
  cases st <;> cases h <;> rfl

theorem inputs_eq {st p : Stage} (h : st.prev = some p) (b : β) : inputs c s n peerOut st b =
    ((decide (st = .publish) || decide (b ∈ c.raw s)) && visible (n.priv p) b &&
      visible (peerOut p).files b) := by
  cases st <;> cases h <;> simp [inputs]

end Moves

/-! ## The two servers -/

/-- The state of both servers. -/
abbrev Sys (β : Type) := ServerId → Node β

/-- A server takes a step; the peer mirrors into the directories it reads. -/
def step (c : Cfg β) (σ : Sys β) (l : ServerId × Act β) : Option (Sys β) :=
  (act c l.1 (σ l.1) (σ (peer l.1)).out l.2).map fun n => Function.update σ l.1 n

/-- A server before its run, with empty buckets. -/
def Node.start : Node β where
  pc := .wait .verify1 0
  priv _ := ∅
  out _ := .empty
  jobs := 0
  made := ∅
  outputs _ := []
  read := ∅

/-- One run of bin/process on each server, from empty private and shared
buckets. -/
def process (c : Cfg β) : LTS (Sys β) (ServerId × Act β) :=
  .ofFn (fun σ => σ = fun _ => Node.start) (step c)

theorem step_move {c : Cfg β} {σ σ' : Sys β} {s : ServerId} {a : Act β}
    (h : step c σ (s, a) = some σ') :
    Move c s (σ s) (σ (peer s)).out a (σ' s) ∧ σ' (peer s) = σ (peer s) := by
  unfold step at h
  obtain ⟨n, hn, rfl⟩ := Option.map_eq_some_iff.1 h
  refine ⟨?_, Function.update_of_ne (peer_ne s) _ _⟩
  dsimp only
  rw [Function.update_self]
  exact act_move hn

theorem move_step {c : Cfg β} {σ : Sys β} {s : ServerId} {a : Act β} {n : Node β}
    (h : Move c s (σ s) (σ (peer s)).out a n) :
    step c σ (s, a) = some (Function.update σ s n) := by
  unfold step
  rw [move_act h]; rfl

end PrioProcessor.L4
