import PrioProcessor.L4Bucket.HandOff

/-!
# bin/process on the keys of an object store

`Process` keeps the files of every directory in a variable of its own. Here
both servers work on the keys of one object store: a step reads and writes the
keys below the paths of the script, `mc stat` on a directory finds any key below
it, and `mc mirror` copies and removes whatever keys it finds
(src/bin/process:56-215).

The directories being apart (`dirs_apart`), a step changes the keys of the one
directory it writes (`SameBut`), and every run on keys is a run of `Process`
(`reachable_stored`). What holds of the directories of `Process` then holds of
the keys: `objects_complete`, `objects_published`.
-/
namespace PrioProcessor.L4

open ObjectStore
open L1 (ServerId)

/-! ## Keys of files -/

/-- A batch id names one level of a path. -/
abbrev BatchId : Type := { s : String // '/' ∉ s.toList }

theorem batch_ne_success (p : String) : "batch_id=" ++ p ≠ "_SUCCESS" := by
  intro h
  have hhead := congrArg (fun s => s.toList.head?) h
  simp only [String.toList_append] at hhead
  exact absurd hhead (by simp)

/-- How Spark names the part files of its jobs. -/
structure PartNames where
  part : ℕ → ℕ → String
  fresh : ∀ {job k job' k'}, part job k = part job' k' → job = job' ∧ k = k'
  ne_success : ∀ job k, part job k ≠ "_SUCCESS"

namespace PartNames

variable (N : PartNames)

def name : Name → String
  | .success => "_SUCCESS"
  | .part job k => N.part job k

/-- The key of a file below the directory of its stage. -/
def key (f : File BatchId) : String := "batch_id=" ++ f.batch.1 ++ "/" ++ N.name f.name

theorem name_inj {x y : Name} (h : N.name x = N.name y) : x = y := by
  cases x with
  | success =>
    cases y with
    | success => rfl
    | part job k => exact absurd h.symm (N.ne_success job k)
  | part job k =>
    cases y with
    | success => exact absurd h (N.ne_success job k)
    | part job' k' =>
      obtain ⟨rfl, rfl⟩ := N.fresh h
      rfl

theorem component_slashFree (b : BatchId) : '/' ∉ ("batch_id=" ++ b.1).toList := by
  have hb := b.2
  rw [String.toList_append, List.mem_append]
  intro h
  rcases h with h | h
  · exact absurd h (by decide)
  · exact hb h

/-- The keys below the directory of a batch. -/
theorem key_eq_iff {f : File BatchId} {b : BatchId} {y : String} :
    "batch_id=" ++ b.1 ++ "/" ++ y = N.key f ↔ f.batch = b ∧ y = N.name f.name := by
  constructor
  · intro h
    obtain ⟨hb, hy⟩ := component_inj (component_slashFree b) (component_slashFree f.batch) h
    exact ⟨(Subtype.ext (append_left_inj hb)).symm, hy⟩
  · intro h
    obtain ⟨rfl, rfl⟩ := h
    rfl

theorem key_inj {f g : File BatchId} (h : N.key f = N.key g) : f = g := by
  obtain ⟨hb, hn⟩ := N.key_eq_iff.1 h
  obtain ⟨b, x⟩ := f
  obtain ⟨b', y⟩ := g
  cases hb
  cases N.name_inj hn
  rfl

theorem key_ne_success (f : File BatchId) : N.key f ≠ "_SUCCESS" := by
  have hne := batch_ne_success (f.batch.1 ++ "/" ++ N.name f.name)
  unfold key
  simp only [← String.append_assoc] at hne
  exact hne

/-- The job and the number of the part in unary. -/
def unary (job k : ℕ) : List Char := List.replicate job '0' ++ '-' :: List.replicate k '0'

theorem unary_inj {job k job' k' : ℕ} (h : unary job k = unary job' k') : job = job' ∧ k = k' := by
  unfold unary at h
  induction job generalizing job' with
  | zero =>
    cases job' with
    | zero =>
      have hlen := congrArg List.length h
      simp only [List.length_append, List.length_cons, List.length_replicate] at hlen
      exact ⟨rfl, by omega⟩
    | succ job' => simp [List.replicate_succ] at h
  | succ job ih =>
    cases job' with
    | zero => simp [List.replicate_succ] at h
    | succ job' =>
      rw [List.replicate_succ, List.replicate_succ, List.cons_append, List.cons_append] at h
      obtain ⟨rfl, rfl⟩ := ih (List.cons.inj h).2
      exact ⟨rfl, rfl⟩

instance : Inhabited PartNames where
  default :=
    { part := fun job k => String.ofList (unary job k)
      fresh := fun h => unary_inj (String.ofList_injective h)
      ne_success := fun job k h => by
        have hlist := congrArg String.toList h
        rw [String.toList_ofList] at hlist
        cases job with
        | zero => exact absurd hlist (by simp [unary])
        | succ job => exact absurd hlist (by simp [unary, List.replicate_succ]) }

end PartNames

/-! ## The directories of a stage -/

/-- The directory whose marker a stage waits for and whose batches it checks.
mirrors src/bin/process:109,118,141,146,171,176,199,204 -/
def Env.waits (e : Env) : Stage → String
  | .verify1 => e.verify1Input
  | .verify2 => e.verify2InputExternal
  | .aggregate => e.aggregateInputExternal
  | .publish => e.publishInputExternal

/-- The directories a job of a stage reads.
mirrors src/bin/process:122-126,150-156,180-186,208-213 -/
def Env.jobInputs (e : Env) : Stage → List String
  | .verify1 => [e.verify1Input]
  | .verify2 => [e.verify2Input, e.verify2InputInternal, e.verify2InputExternal]
  | .aggregate => [e.aggregateInput, e.aggregateInputInternal, e.aggregateInputExternal]
  | .publish => [e.publishInputInternal, e.publishInputExternal]

/-- The directory the jobs of a stage write. -/
def Env.output (e : Env) : Stage → String
  | .verify1 => e.verify1OutputInternal
  | .verify2 => e.verify2OutputInternal
  | .aggregate => e.aggregateOutputInternal
  | .publish => e.publishOutput

/-- The directory a stage mirrors its output into. -/
def Env.mirrored (e : Env) : Stage → Option String
  | .verify1 => some e.verify1OutputExternal
  | .verify2 => some e.verify2OutputExternal
  | .aggregate => some e.aggregateOutputExternal
  | .publish => none

/-! ## Steps -/

variable {γ : Type}

/-- Some key is below the directory. -/
def Occupied (d : String) (s : Store γ) : Prop := ∃ k, Within d k ∧ (s k).isSome = true

/-- A server: its program counter and the number of its jobs. -/
structure Site where
  pc : Pc BatchId
  jobs : ℕ

/-- The steps of a run; `mc mirror` copies and removes the keys `dir/x`. -/
inductive ObjectAct where
  | poll
  | check
  | job (n : ℕ)
  | loopEnd
  | copy (x : String)
  | remove (x : String)
  | mirrorEnd
  | cpMarker
  deriving DecidableEq, Repr

/-- A step of the server with the environment `e`.
mirrors src/bin/process:56-90,102-215 -/
inductive ObjectMove (c : Cfg BatchId) (N : PartNames) (e : Env) (n : Site) (s : Store γ) :
    ObjectAct → Site → Store γ → Prop
  | pass {st r} : n.pc = .wait st r → (s (successPath (e.waits st))).isSome = true →
      ObjectMove c N e n s .poll { n with pc := .loop st c.config } s
  | giveUp {st r} : n.pc = .wait st r → s (successPath (e.waits st)) = none →
      c.retryLimit < r + 1 → ObjectMove c N e n s .poll { n with pc := .gaveUp } s
  | retry {st r} : n.pc = .wait st r → s (successPath (e.waits st)) = none →
      r + 1 ≤ c.retryLimit → ObjectMove c N e n s .poll { n with pc := .wait st (r + 1) } s
  | found {st b todo} : n.pc = .loop st (b :: todo) → Occupied (batchDir (e.waits st) b.1) s →
      ObjectMove c N e n s .check { n with pc := .submit st b todo } s
  | skip {st b todo} : n.pc = .loop st (b :: todo) → ¬ Occupied (batchDir (e.waits st) b.1) s →
      ObjectMove c N e n s .check { n with pc := .loop st todo } s
  | ran {st b todo} (k : ℕ) (new : String → Option γ) : n.pc = .submit st b todo →
      (∀ d ∈ e.jobInputs st, Occupied (batchDir d b.1) s) →
      (∀ x, (new x).isSome = true ↔ x = "_SUCCESS" ∨ ∃ i < k, x = N.part n.jobs i) →
      ObjectMove c N e n s (.job k) ⟨.loop st todo, n.jobs + 1⟩
        (replaceDir (batchDir (e.output st) b.1) new s)
  | failed {st b todo} (k : ℕ) : n.pc = .submit st b todo →
      (¬ ∀ d ∈ e.jobInputs st, Occupied (batchDir d b.1) s) →
      ObjectMove c N e n s (.job k) { n with pc := .aborted } s
  | finish {st} : n.pc = .loop st [] → e.mirrored st = none →
      ObjectMove c N e n s .loopEnd { n with pc := .done } s
  | noOutput {st dst} : n.pc = .loop st [] → e.mirrored st = some dst →
      ¬ Occupied (e.output st) s → ObjectMove c N e n s .loopEnd { n with pc := .aborted } s
  | startMirror {st dst} : n.pc = .loop st [] → e.mirrored st = some dst →
      Occupied (e.output st) s → ObjectMove c N e n s .loopEnd { n with pc := .mirror st } s
  | copy {st dst x v} : n.pc = .mirror st → e.mirrored st = some dst →
      s (e.output st ++ "/" ++ x) = some v → s (dst ++ "/" ++ x) ≠ some v →
      ObjectMove c N e n s (.copy x) n (put (dst ++ "/" ++ x) v s)
  | remove {st dst x} : n.pc = .mirror st → e.mirrored st = some dst →
      s (e.output st ++ "/" ++ x) = none → (s (dst ++ "/" ++ x)).isSome = true →
      ObjectMove c N e n s (.remove x) n (erase (dst ++ "/" ++ x) s)
  | endMirror {st dst} : n.pc = .mirror st → e.mirrored st = some dst →
      (∀ x, s (dst ++ "/" ++ x) = s (e.output st ++ "/" ++ x)) →
      ObjectMove c N e n s .mirrorEnd { n with pc := .marker st } s
  | mark {st dst t} (v : γ) : n.pc = .marker st → e.mirrored st = some dst → st.next = some t →
      ObjectMove c N e n s .cpMarker { n with pc := .wait t 0 } (put (successPath dst) v s)

/-- Both servers and the store. -/
structure Buckets (γ : Type) where
  site : ServerId → Site
  store : Store γ

/-- The path of a directory of a server. -/
def slot (a b : Env) (x : ServerId × Dir) : String := (envOf a b x.1).dir x.2

/-- The raw shares are as `c` says, and the other directories are empty. -/
structure Fresh (c : Cfg BatchId) (a b : Env) (s : Store γ) : Prop where
  marked : ∀ i, (s (successPath (envOf a b i).rawShares)).isSome = c.rawSuccess i
  raw : ∀ i (batch : BatchId),
    Occupied (batchDir (envOf a b i).rawShares batch.1) s ↔ batch ∈ c.raw i
  empty : ∀ x : ServerId × Dir, x.2 ≠ .rawShares → ∀ y, s (slot a b x ++ "/" ++ y) = none

/-- One run of bin/process on each server. -/
def objectProcess (γ : Type) (c : Cfg BatchId) (N : PartNames) (a b : Env) :
    LTS (Buckets γ) (ServerId × ObjectAct) where
  init κ := (∀ i, κ.site i = ⟨.wait .verify1 0, 0⟩) ∧ Fresh c a b κ.store
  step κ l κ' := ObjectMove c N (envOf a b l.1) (κ.site l.1) κ.store l.2 (κ'.site l.1) κ'.store ∧
    κ'.site (peer l.1) = κ.site (peer l.1)

/-! ## The directories of `Process` as keys -/

def Round.stage : Round → Stage
  | .verify1 => .verify1
  | .verify2 => .verify2
  | .aggregate => .aggregate

/-- The directory the jobs of a stage write. -/
def Stage.outDir : Stage → Dir
  | .verify1 => .internal .verify1
  | .verify2 => .internal .verify2
  | .aggregate => .internal .aggregate
  | .publish => .publish

theorem output_eq (e : Env) (st : Stage) : e.output st = e.dir st.outDir := by cases st <;> rfl

theorem outDir_ne (st : Stage) : st.outDir ≠ .rawShares := by cases st <;> decide

theorem mirrored_eq {a b : Env} (h : Peers a b) {s : ServerId} {st : Stage} {dst : String}
    (hdst : (envOf a b s).mirrored st = some dst) :
    ∃ r : Round, r.stage = st ∧ dst = slot a b (peer s, .external r) := by
  have hext := outputExternal_eq h s
  cases st with
  | verify1 => exact ⟨.verify1, rfl, (Option.some.inj hdst).symm.trans (hext .verify1)⟩
  | verify2 => exact ⟨.verify2, rfl, (Option.some.inj hdst).symm.trans (hext .verify2)⟩
  | aggregate => exact ⟨.aggregate, rfl, (Option.some.inj hdst).symm.trans (hext .aggregate)⟩
  | publish => cases hdst

theorem mirrored_none_iff {e : Env} {st : Stage} : e.mirrored st = none ↔ st.next = none := by
  cases st <;> simp [Env.mirrored, Stage.next]

/-- The files of a directory, and whether it has a marker. -/
def contents (σ : Sys BatchId) : ServerId × Dir → Finset (File BatchId) × Bool
  | (_, .rawShares) => (∅, false)
  | (s, .internal r) => ((σ s).priv r.stage, false)
  | (s, .external r) => (((σ (peer s)).out r.stage).files, ((σ (peer s)).out r.stage).success)
  | (s, .publish) => ((σ s).priv .publish, false)

theorem contents_outDir (σ : Sys BatchId) (s : ServerId) (st : Stage) :
    contents σ (s, st.outDir) = ((σ s).priv st, false) := by
  cases st <;> rfl

theorem contents_external (σ : Sys BatchId) (s : ServerId) (r : Round) :
    contents σ (peer s, .external r) =
      (((σ s).out r.stage).files, ((σ s).out r.stage).success) := by
  cases s <;> rfl

/-- The keys below a directory with the files `C.1` and, if `C.2`, a marker. -/
def Lists (N : PartNames) (C : Finset (File BatchId) × Bool) (y : String) : Prop :=
  (y = "_SUCCESS" ∧ C.2 = true) ∨ ∃ f ∈ C.1, y = N.key f

theorem lists_key {N : PartNames} {C : Finset (File BatchId) × Bool} {f : File BatchId} :
    Lists N C (N.key f) ↔ f ∈ C.1 := by
  unfold Lists
  constructor
  · intro h
    rcases h with ⟨h, -⟩ | ⟨g, hg, h⟩
    · exact absurd h (N.key_ne_success f)
    · exact N.key_inj h ▸ hg
  · exact fun h => .inr ⟨f, h, rfl⟩

theorem lists_success {N : PartNames} {C : Finset (File BatchId) × Bool} :
    Lists N C "_SUCCESS" ↔ C.2 = true := by
  unfold Lists
  constructor
  · intro h
    rcases h with ⟨-, h⟩ | ⟨g, -, h⟩
    · exact h
    · exact absurd h.symm (N.key_ne_success g)
  · exact fun h => .inl ⟨rfl, h⟩

/-- A directory that lists the keys of a set of files alone holds these files
and no marker. -/
theorem lists_files {N : PartNames} {C : Finset (File BatchId) × Bool}
    {F : Finset (File BatchId)} (h : ∀ y, Lists N C y ↔ ∃ f ∈ F, y = N.key f) :
    C.1 = F ∧ C.2 = false := by
  refine ⟨?_, Bool.eq_false_iff.2 fun hs => ?_⟩
  · ext f
    rw [← lists_key, h]
    exact ⟨fun ⟨g, hg, heq⟩ => N.key_inj heq ▸ hg, fun hf => ⟨f, hf, rfl⟩⟩
  · obtain ⟨f, -, hf⟩ := (h "_SUCCESS").1 (lists_success.2 hs)
    exact N.key_ne_success f hf.symm

theorem lists_insert {N : PartNames} {F : Finset (File BatchId)} {m : Bool} {f : File BatchId}
    {y : String} : Lists N (insert f F, m) y ↔ y = N.key f ∨ Lists N (F, m) y := by
  unfold Lists
  simp only [Finset.mem_insert]
  constructor
  · intro h
    rcases h with h | ⟨g, rfl | hg, hy⟩
    · exact .inr (.inl h)
    · exact .inl hy
    · exact .inr (.inr ⟨g, hg, hy⟩)
  · intro h
    rcases h with hy | h | ⟨g, hg, hy⟩
    · exact .inr ⟨f, .inl rfl, hy⟩
    · exact .inl h
    · exact .inr ⟨g, .inr hg, hy⟩

theorem lists_erase {N : PartNames} {F : Finset (File BatchId)} {m : Bool} {f : File BatchId}
    {y : String} : Lists N (F.erase f, m) y ↔ y ≠ N.key f ∧ Lists N (F, m) y := by
  unfold Lists
  simp only [Finset.mem_erase]
  constructor
  · intro h
    rcases h with ⟨rfl, hm⟩ | ⟨g, ⟨hne, hg⟩, rfl⟩
    · exact ⟨(N.key_ne_success f).symm, .inl ⟨rfl, hm⟩⟩
    · exact ⟨fun heq => hne (N.key_inj heq), .inr ⟨g, hg, rfl⟩⟩
  · intro h
    obtain ⟨hne, h | ⟨g, hg, rfl⟩⟩ := h
    · exact .inl h
    · exact .inr ⟨g, ⟨fun heq => hne (heq ▸ rfl), hg⟩, rfl⟩

theorem lists_mark {N : PartNames} {F : Finset (File BatchId)} {m : Bool} {y : String} :
    Lists N (F, true) y ↔ y = "_SUCCESS" ∨ Lists N (F, m) y := by
  unfold Lists
  constructor
  · intro h
    rcases h with ⟨hy, -⟩ | h
    · exact .inl hy
    · exact .inr (.inr h)
  · intro h
    rcases h with hy | ⟨hy, -⟩ | h
    · exact .inl ⟨hy, rfl⟩
    · exact .inl ⟨hy, rfl⟩
    · exact .inr h

theorem lists_unmark {N : PartNames} {F : Finset (File BatchId)} {m : Bool} {y : String} :
    Lists N (F, false) y ↔ y ≠ "_SUCCESS" ∧ Lists N (F, m) y := by
  unfold Lists
  constructor
  · intro h
    rcases h with ⟨-, hf⟩ | ⟨g, hg, rfl⟩
    · cases hf
    · exact ⟨N.key_ne_success g, .inr ⟨g, hg, rfl⟩⟩
  · intro h
    obtain ⟨hne, ⟨hy, -⟩ | h⟩ := h
    · exact absurd hy hne
    · exact .inr h

/-- The keys below the directory of a batch after a job has overwritten it. -/
theorem exists_writeBatch {N : PartNames} {F : Finset (File BatchId)} {b : BatchId} {job k : ℕ}
    {z : String} : (∃ f ∈ writeBatch F b (jobFiles b job k),
      "batch_id=" ++ b.1 ++ "/" ++ z = N.key f) ↔
      z = "_SUCCESS" ∨ ∃ i < k, z = N.part job i := by
  constructor
  · intro h
    obtain ⟨f, hf, hz⟩ := h
    obtain ⟨hb, rfl⟩ := N.key_eq_iff.1 hz
    rcases mem_writeBatch.1 hf with ⟨-, hne⟩ | hf
    · exact absurd hb hne
    · unfold jobFiles parts at hf
      rcases Finset.mem_insert.1 hf with rfl | hf
      · exact .inl rfl
      · obtain ⟨i, hi, rfl⟩ := Finset.mem_image.1 hf
        exact .inr ⟨i, Finset.mem_range.1 hi, rfl⟩
  · intro h
    rcases h with rfl | ⟨i, hi, rfl⟩
    · exact ⟨⟨b, .success⟩, mem_writeBatch.2 (.inr (Finset.mem_insert_self _ _)), rfl⟩
    · refine ⟨⟨b, .part job i⟩, mem_writeBatch.2 (.inr (Finset.mem_insert_of_mem ?_)), rfl⟩
      exact Finset.mem_image.2 ⟨i, Finset.mem_range.2 hi, rfl⟩

theorem lists_batch {N : PartNames} {C : Finset (File BatchId) × Bool} {b : BatchId} :
    (∃ y, Lists N C ("batch_id=" ++ b.1 ++ "/" ++ y)) ↔ visible C.1 b = true := by
  rw [visible_iff]
  constructor
  · intro h
    obtain ⟨y, h | ⟨f, hf, hy⟩⟩ := h
    · have hne := batch_ne_success (b.1 ++ "/" ++ y)
      simp only [← String.append_assoc] at hne
      exact absurd h.1 hne
    · exact ⟨f, hf, (N.key_eq_iff.1 hy).1⟩
  · intro h
    obtain ⟨f, hf, rfl⟩ := h
    exact ⟨N.name f.name, .inr ⟨f, hf, rfl⟩⟩

/-- The keys are those of the files of `Process`. -/
structure Stored (c : Cfg BatchId) (N : PartNames) (a b : Env) (σ : Sys BatchId) (κ : Buckets γ) :
    Prop where
  site : ∀ i, κ.site i = ⟨(σ i).pc, (σ i).jobs⟩
  marked : ∀ i, (κ.store (successPath (envOf a b i).rawShares)).isSome = c.rawSuccess i
  raw : ∀ i (batch : BatchId),
    Occupied (batchDir (envOf a b i).rawShares batch.1) κ.store ↔ batch ∈ c.raw i
  dirs : ∀ x : ServerId × Dir, x.2 ≠ .rawShares → ∀ y,
    (κ.store (slot a b x ++ "/" ++ y)).isSome = true ↔ Lists N (contents σ x) y

/-! ## A step writes one directory -/

/-- No key of another directory changes. -/
def SameBut (a b : Env) (x₀ : ServerId × Dir) (s s' : Store γ) : Prop :=
  ∀ x, x ≠ x₀ → ∀ k, Within (slot a b x) k → s' k = s k

section Frame

variable {a b : Env} {s : Store γ}

theorem sameBut_put (h : Peers a b) (x₀ : ServerId × Dir) (y : String) (v : γ) :
    SameBut a b x₀ s (put (slot a b x₀ ++ "/" ++ y) v s) :=
  fun _ hx _ hk => put_apart (dirs_apart h hx) hk y v s

theorem sameBut_erase (h : Peers a b) (x₀ : ServerId × Dir) (y : String) :
    SameBut a b x₀ s (erase (slot a b x₀ ++ "/" ++ y) s) :=
  fun _ hx _ hk => erase_apart (dirs_apart h hx) hk y s

theorem sameBut_replace (h : Peers a b) (x₀ : ServerId × Dir) (batch : String)
    (new : String → Option γ) :
    SameBut a b x₀ s (replaceDir (batchDir (slot a b x₀) batch) new s) := by
  intro x hx k hk
  have hout : ¬ Within (batchDir (slot a b x₀) batch) k := by
    rw [batchDir_eq]
    exact fun hw => (dirs_apart h hx).key hk (within_sub hw)
  unfold replaceDir
  rw [if_neg hout]

theorem occupied_batch {d batch : String} {s : Store γ} : Occupied (batchDir d batch) s ↔
    ∃ y, (s (d ++ "/" ++ ("batch_id=" ++ batch ++ "/" ++ y))).isSome = true := by
  have hkey : ∀ y, batchDir d batch ++ "/" ++ y =
      d ++ "/" ++ ("batch_id=" ++ batch ++ "/" ++ y) := fun y => by
    rw [batchDir_eq]
    simp only [String.append_assoc]
  unfold Occupied
  constructor
  · intro h
    obtain ⟨k, hk, hs⟩ := h
    obtain ⟨y, rfl⟩ := within_iff.1 hk
    exact ⟨y, hkey y ▸ hs⟩
  · intro h
    obtain ⟨y, hs⟩ := h
    exact ⟨_, within_append _ y, (hkey y).symm ▸ hs⟩

theorem replace_batch (d batch z : String) (new : String → Option γ) (s : Store γ) :
    replaceDir (batchDir d batch) new s (d ++ "/" ++ ("batch_id=" ++ batch ++ "/" ++ z)) =
      new z := by
  have hkey : d ++ "/" ++ ("batch_id=" ++ batch ++ "/" ++ z) = batchDir d batch ++ "/" ++ z := by
    rw [batchDir_eq]
    simp only [String.append_assoc]
  rw [hkey, replaceDir_in]

theorem replace_other {d batch y : String} (h : ∀ z, y ≠ "batch_id=" ++ batch ++ "/" ++ z)
    (new : String → Option γ) (s : Store γ) :
    replaceDir (batchDir d batch) new s (d ++ "/" ++ y) = s (d ++ "/" ++ y) := by
  have hout : ¬ Within (batchDir d batch) (d ++ "/" ++ y) := by
    intro hw
    obtain ⟨z, hz⟩ := within_iff.1 hw
    rw [batchDir_eq] at hz
    simp only [String.append_assoc] at hz
    refine h z ?_
    simp only [String.append_assoc]
    exact append_left_inj (append_left_inj hz)
  unfold replaceDir
  rw [if_neg hout]

theorem occupied_congr {d : String} {s s' : Store γ} (h : ∀ k, Within d k → s' k = s k) :
    Occupied d s' ↔ Occupied d s := by
  unfold Occupied
  constructor
  · intro ho
    obtain ⟨k, hk, hs⟩ := ho
    exact ⟨k, hk, h k hk ▸ hs⟩
  · intro ho
    obtain ⟨k, hk, hs⟩ := ho
    exact ⟨k, hk, (h k hk).symm ▸ hs⟩

end Frame

section Simulation

variable {c : Cfg BatchId} {N : PartNames} {a b : Env} {σ σ' : Sys BatchId} {κ κ' : Buckets γ}

/-- What a step has to establish: the program counters, and the keys of the
directory it writes. -/
theorem Stored.update (h : Stored c N a b σ κ) (x₀ : ServerId × Dir) (hx₀ : x₀.2 ≠ .rawShares)
    (hsame : SameBut a b x₀ κ.store κ'.store)
    (hsite : ∀ i, κ'.site i = ⟨(σ' i).pc, (σ' i).jobs⟩)
    (hother : ∀ x, x ≠ x₀ → contents σ' x = contents σ x)
    (hkeys : ∀ y, (κ'.store (slot a b x₀ ++ "/" ++ y)).isSome = true ↔
      Lists N (contents σ' x₀) y) : Stored c N a b σ' κ' := by
  have hraw : ∀ i k, Within (envOf a b i).rawShares k → κ'.store k = κ.store k := by
    intro i k hk
    refine hsame (i, .rawShares) (fun heq => hx₀ ?_) k hk
    rw [← heq]
  refine ⟨hsite, fun i => ?_, fun i batch => ?_, fun x hx y => ?_⟩
  · rw [hraw i _ (by rw [successPath_eq]; exact within_append _ _)]
    exact h.marked i
  · rw [← h.raw i batch]
    refine occupied_congr fun k hk => hraw i k ?_
    rw [batchDir_eq] at hk
    exact within_sub hk
  · by_cases heq : x = x₀
    · rw [heq]; exact hkeys y
    · rw [hsame x heq _ (within_append _ y), hother x heq]
      exact h.dirs x hx y

/-- A step that writes nothing. -/
theorem Stored.still (h : Stored c N a b σ κ) (hstore : κ'.store = κ.store)
    (hsite : ∀ i, κ'.site i = ⟨(σ' i).pc, (σ' i).jobs⟩)
    (hcontents : ∀ x, contents σ' x = contents σ x) : Stored c N a b σ' κ' where
  site := hsite
  marked i := by rw [hstore]; exact h.marked i
  raw i batch := by rw [hstore]; exact h.raw i batch
  dirs x hx y := by rw [hstore, hcontents]; exact h.dirs x hx y

/-! ### What a step reads -/

theorem Stored.marker (h : Stored c N a b σ κ) {x : ServerId × Dir} (hx : x.2 ≠ .rawShares) :
    (κ.store (successPath (slot a b x))).isSome = (contents σ x).2 := by
  rw [Bool.eq_iff_iff, successPath_eq, h.dirs x hx, lists_success]

theorem Stored.occupied (h : Stored c N a b σ κ) {x : ServerId × Dir} (hx : x.2 ≠ .rawShares)
    (batch : BatchId) : Occupied (batchDir (slot a b x) batch.1) κ.store ↔
      visible (contents σ x).1 batch = true := by
  rw [occupied_batch, ← lists_batch (N := N)]
  exact exists_congr fun y => h.dirs x hx _

theorem Stored.ready (h : Stored c N a b σ κ) (s : ServerId) (st : Stage) :
    (κ.store (successPath ((envOf a b s).waits st))).isSome = ready c s (σ (peer s)).out st := by
  cases st with
  | verify1 => exact h.marked s
  | verify2 => exact h.marker (x := (s, .external .verify1)) nofun
  | aggregate => exact h.marker (x := (s, .external .verify2)) nofun
  | publish => exact h.marker (x := (s, .external .aggregate)) nofun

theorem Stored.present (h : Stored c N a b σ κ) (s : ServerId) (st : Stage) (batch : BatchId) :
    Occupied (batchDir ((envOf a b s).waits st) batch.1) κ.store ↔
      present c s (σ (peer s)).out st batch = true := by
  cases st with
  | verify1 => exact (h.raw s batch).trans decide_eq_true_iff.symm
  | verify2 => exact h.occupied (x := (s, .external .verify1)) nofun batch
  | aggregate => exact h.occupied (x := (s, .external .verify2)) nofun batch
  | publish => exact h.occupied (x := (s, .external .aggregate)) nofun batch

theorem Stored.inputs (h : Stored c N a b σ κ) (s : ServerId) (st : Stage) (batch : BatchId) :
    (∀ d ∈ (envOf a b s).jobInputs st, Occupied (batchDir d batch.1) κ.store) ↔
      inputs c s (σ s) (σ (peer s)).out st batch = true := by
  have hraw := (h.raw s batch).trans (decide_eq_true_iff (p := batch ∈ c.raw s)).symm
  have hin := fun r : Round => h.occupied (x := (s, .internal r)) nofun batch
  have hout := fun r : Round => h.occupied (x := (s, .external r)) nofun batch
  unfold Env.jobInputs L4.inputs
  cases st with
  | verify1 => rw [List.forall_mem_singleton]; exact hraw
  | verify2 =>
    rw [List.forall_mem_cons, List.forall_mem_cons, List.forall_mem_singleton, Bool.and_eq_true,
      Bool.and_eq_true, and_assoc]
    exact and_congr hraw (and_congr (hin .verify1) (hout .verify1))
  | aggregate =>
    rw [List.forall_mem_cons, List.forall_mem_cons, List.forall_mem_singleton, Bool.and_eq_true,
      Bool.and_eq_true, and_assoc]
    exact and_congr hraw (and_congr (hin .verify2) (hout .verify2))
  | publish =>
    rw [List.forall_mem_cons, List.forall_mem_singleton, Bool.and_eq_true]
    exact and_congr (hin .aggregate) (hout .aggregate)

/-- The keys a stage's jobs wrote. -/
theorem Stored.written (h : Stored c N a b σ κ) (s : ServerId) (st : Stage) (y : String) :
    (κ.store ((envOf a b s).output st ++ "/" ++ y)).isSome = true ↔
      ∃ f ∈ (σ s).priv st, y = N.key f := by
  have hdir := h.dirs (s, st.outDir) (outDir_ne st) y
  rw [contents_outDir] at hdir
  rw [output_eq]
  refine hdir.trans ⟨fun hl => ?_, .inr⟩
  rcases hl with ⟨-, hf⟩ | hl
  · cases hf
  · exact hl

theorem Stored.noOutput (h : Stored c N a b σ κ) (s : ServerId) (st : Stage) :
    Occupied ((envOf a b s).output st) κ.store ↔ (σ s).priv st ≠ ∅ := by
  rw [← Finset.nonempty_iff_ne_empty]
  constructor
  · intro ho
    obtain ⟨k, hk, hs⟩ := ho
    obtain ⟨y, rfl⟩ := within_iff.1 hk
    obtain ⟨f, hf, -⟩ := (h.written s st y).1 hs
    exact ⟨f, hf⟩
  · intro hne
    obtain ⟨f, hf⟩ := hne
    exact ⟨_, within_append _ (N.key f), (h.written s st _).2 ⟨f, hf, rfl⟩⟩

/-! ### What a step does -/

theorem contents_congr {x : ServerId × Dir}
    (hpriv : ∀ i st, (i, Stage.outDir st) = x → (σ' i).priv st = (σ i).priv st)
    (hout : ∀ i r, (peer i, .external r) = x → (σ' i).out r.stage = (σ i).out r.stage) :
    contents σ' x = contents σ x := by
  obtain ⟨i, d⟩ := x
  cases d with
  | rawShares => rfl
  | internal r =>
    have hr : Stage.outDir r.stage = .internal r := by cases r <;> rfl
    have h := hpriv i r.stage (by rw [hr])
    simp only [contents, h]
  | external r =>
    have h := hout (peer i) r (by rw [peer_peer])
    simp only [contents, h]
  | publish =>
    have h := hpriv i .publish rfl
    simp only [contents, h]

/-- The program counters and job numbers after a step of `s`. -/
theorem Stored.sites (h : Stored c N a b σ κ) {s : ServerId} {n : Node BatchId}
    (hs : κ'.site s = ⟨n.pc, n.jobs⟩) (hpeer : κ'.site (peer s) = κ.site (peer s)) (i : ServerId) :
    κ'.site i = ⟨(Function.update σ s n i).pc, (Function.update σ s n i).jobs⟩ := by
  rcases eq_or_peer s i with rfl | rfl
  · rw [Function.update_self]; exact hs
  · rw [Function.update_of_ne (peer_ne s), hpeer]; exact h.site (peer s)

/-- A step of `s` that changes no directory. -/
theorem Stored.stay (h : Stored c N a b σ κ) {s : ServerId} {n : Node BatchId}
    (hpriv : n.priv = (σ s).priv) (hout : n.out = (σ s).out) (hstore : κ'.store = κ.store)
    (hs : κ'.site s = ⟨n.pc, n.jobs⟩) (hpeer : κ'.site (peer s) = κ.site (peer s)) :
    Stored c N a b (Function.update σ s n) κ' := by
  refine h.still hstore (h.sites hs hpeer) fun x =>
    contents_congr (fun i st _ => ?_) fun i r _ => ?_
  · rcases eq_or_peer s i with rfl | rfl
    · rw [Function.update_self, hpriv]
    · rw [Function.update_of_ne (peer_ne s)]
  · rcases eq_or_peer s i with rfl | rfl
    · rw [Function.update_self, hout]
    · rw [Function.update_of_ne (peer_ne s)]

/-- A step of `s` that writes the output of the stage `st`. -/
theorem Stored.writes (h : Stored c N a b σ κ) {s : ServerId} {n : Node BatchId} (st : Stage)
    (hpriv : ∀ t, t ≠ st → n.priv t = (σ s).priv t) (hout : n.out = (σ s).out)
    (hsame : SameBut a b (s, st.outDir) κ.store κ'.store)
    (hs : κ'.site s = ⟨n.pc, n.jobs⟩) (hpeer : κ'.site (peer s) = κ.site (peer s))
    (hkeys : ∀ y, (κ'.store (slot a b (s, st.outDir) ++ "/" ++ y)).isSome = true ↔
      ∃ f ∈ n.priv st, y = N.key f) : Stored c N a b (Function.update σ s n) κ' := by
  refine h.update (s, st.outDir) (outDir_ne st) hsame (h.sites hs hpeer)
    (fun x hx => ?_) fun y => ?_
  · refine contents_congr (fun i t ht => ?_) fun i r _ => ?_
    · rcases eq_or_peer s i with rfl | rfl
      · rw [Function.update_self]
        refine hpriv t fun heq => hx ?_
        rw [← ht, heq]
      · rw [Function.update_of_ne (peer_ne s)]
    · rcases eq_or_peer s i with rfl | rfl
      · rw [Function.update_self, hout]
      · rw [Function.update_of_ne (peer_ne s)]
  · rw [hkeys, contents_outDir, Function.update_self]
    exact ⟨.inr, fun hl => hl.resolve_left fun hf => Bool.false_ne_true hf.2⟩

/-- A step of `s` that changes the directory it mirrors the round `r` into. -/
theorem Stored.mirrors (h : Stored c N a b σ κ) {s : ServerId} {n : Node BatchId} (r : Round)
    (hpriv : n.priv = (σ s).priv) (hout : ∀ t, t ≠ r.stage → n.out t = (σ s).out t)
    (hsame : SameBut a b (peer s, .external r) κ.store κ'.store)
    (hs : κ'.site s = ⟨n.pc, n.jobs⟩) (hpeer : κ'.site (peer s) = κ.site (peer s))
    (hkeys : ∀ y, (κ'.store (slot a b (peer s, .external r) ++ "/" ++ y)).isSome = true ↔
      Lists N ((n.out r.stage).files, (n.out r.stage).success) y) :
    Stored c N a b (Function.update σ s n) κ' := by
  refine h.update (peer s, .external r) nofun hsame (h.sites hs hpeer) (fun x hx => ?_)
    fun y => ?_
  · refine contents_congr (fun i t _ => ?_) fun i t ht => ?_
    · rcases eq_or_peer s i with rfl | rfl
      · rw [Function.update_self, hpriv]
      · rw [Function.update_of_ne (peer_ne s)]
    · rcases eq_or_peer s i with rfl | rfl
      · rw [Function.update_self]
        refine hout t.stage fun heq => hx ?_
        have hr : t = r := by cases t <;> cases r <;> first | rfl | cases heq
        rw [← ht, hr]
      · rw [Function.update_of_ne (peer_ne s)]
  · rw [hkeys, contents_external, Function.update_self]

/-- The keys after a job of the stage. -/
theorem Stored.ran_keys (h : Stored c N a b σ κ) (s : ServerId) {st : Stage} {batch : BatchId}
    {job k : ℕ} {new : String → Option γ}
    (hnew : ∀ x, (new x).isSome = true ↔ x = "_SUCCESS" ∨ ∃ i < k, x = N.part job i) (y : String) :
    (replaceDir (batchDir (slot a b (s, st.outDir)) batch.1) new κ.store
      (slot a b (s, st.outDir) ++ "/" ++ y)).isSome = true ↔
    ∃ f ∈ writeBatch ((σ s).priv st) batch (jobFiles batch job k), y = N.key f := by
  by_cases hy : ∃ z, y = "batch_id=" ++ batch.1 ++ "/" ++ z
  · obtain ⟨z, rfl⟩ := hy
    rw [replace_batch, hnew, exists_writeBatch]
  · have hother : ∀ z, y ≠ "batch_id=" ++ batch.1 ++ "/" ++ z := fun z heq => hy ⟨z, heq⟩
    have hold := h.written s st y
    rw [output_eq] at hold
    rw [replace_other hother]
    refine hold.trans (exists_congr fun f => and_congr_left fun hf => ?_)
    have hne : f.batch ≠ batch := fun heq => hother (N.name f.name) (by rw [hf, ← heq]; rfl)
    rw [mem_writeBatch]
    exact ⟨fun hin => .inl ⟨hin, hne⟩, fun hin =>
      hin.elim And.left fun hj => absurd (jobFiles_batch hj) hne⟩

/-- Every step on keys is a step of `Process`, or overwrites a key with another
object and changes no set of files. -/
theorem object_step (hp : Peers a b) (h : Stored c N a b σ κ) {s : ServerId} {act : ObjectAct}
    (hm : ObjectMove c N (envOf a b s) (κ.site s) κ.store act (κ'.site s) κ'.store)
    (hpeer : κ'.site (peer s) = κ.site (peer s)) :
    Stored c N a b σ κ' ∨ ∃ x σ', step c σ (s, x) = some σ' ∧ Stored c N a b σ' κ' := by
  have hready := h.ready s
  have hpc : (κ.site s).pc = (σ s).pc := by rw [h.site s]
  have hjobs : (κ.site s).jobs = (σ s).jobs := by rw [h.site s]
  have hmove : ∀ {x n}, Move c s (σ s) (σ (peer s)).out x n →
      Stored c N a b (Function.update σ s n) κ' →
      Stored c N a b σ κ' ∨ ∃ x σ', step c σ (s, x) = some σ' ∧ Stored c N a b σ' κ' :=
    fun hx hs => .inr ⟨_, _, move_step hx, hs⟩
  generalize hsite : κ'.site s = n' at hm
  generalize hstore : κ'.store = s' at hm
  cases hm with
  | @pass st r hat hmark =>
    rw [hready] at hmark
    exact hmove (.pass (hpc ▸ hat) hmark) (h.stay rfl rfl hstore (by rw [hsite, hjobs]) hpeer)
  | @giveUp st r hat hmark hlt =>
    have hno := hready st
    rw [hmark] at hno
    exact hmove (.giveUp (hpc ▸ hat) hno.symm hlt)
      (h.stay rfl rfl hstore (by rw [hsite, hjobs]) hpeer)
  | @retry st r hat hmark hle =>
    have hno := hready st
    rw [hmark] at hno
    exact hmove (.retry (hpc ▸ hat) hno.symm hle)
      (h.stay rfl rfl hstore (by rw [hsite, hjobs]) hpeer)
  | @found st batch todo hat hocc =>
    rw [h.present] at hocc
    exact hmove (.found (hpc ▸ hat) hocc) (h.stay rfl rfl hstore (by rw [hsite, hjobs]) hpeer)
  | @skip st batch todo hat hocc =>
    rw [h.present, Bool.not_eq_true] at hocc
    exact hmove (.skip (hpc ▸ hat) hocc) (h.stay rfl rfl hstore (by rw [hsite, hjobs]) hpeer)
  | @ran st batch todo k new hat hin hnew =>
    rw [h.inputs] at hin
    rw [hjobs] at hnew
    rw [output_eq] at hstore
    refine hmove (.ran k (hpc ▸ hat) hin) (h.writes st (fun t ht => Node.ran_ne _ _ ht _ _ _) rfl
      ?_ (by rw [hsite, hjobs]; rfl) hpeer fun y => ?_)
    · rw [hstore]; exact sameBut_replace hp (s, st.outDir) batch.1 new
    · rw [hstore, Node.ran_self]; exact h.ran_keys s hnew y
  | @failed st batch todo k hat hin =>
    rw [h.inputs, Bool.not_eq_true] at hin
    exact hmove (.failed k (hpc ▸ hat) hin) (h.stay rfl rfl hstore (by rw [hsite, hjobs]) hpeer)
  | @finish st hat hdst =>
    exact hmove (.finish (hpc ▸ hat) (mirrored_none_iff.1 hdst))
      (h.stay rfl rfl hstore (by rw [hsite, hjobs]) hpeer)
  | @noOutput st dst hat hdst hocc =>
    rw [h.noOutput, not_not] at hocc
    obtain ⟨t, ht⟩ := Option.ne_none_iff_exists'.1 fun hn => by
      rw [mirrored_none_iff.2 hn] at hdst; cases hdst
    exact hmove (.noOutput (hpc ▸ hat) ht hocc)
      (h.stay rfl rfl hstore (by rw [hsite, hjobs]) hpeer)
  | @startMirror st dst hat hdst hocc =>
    rw [h.noOutput] at hocc
    obtain ⟨t, ht⟩ := Option.ne_none_iff_exists'.1 fun hn => by
      rw [mirrored_none_iff.2 hn] at hdst; cases hdst
    exact hmove (.startMirror (hpc ▸ hat) ht hocc)
      (h.stay rfl rfl hstore (by rw [hsite, hjobs]) hpeer)
  | @copy st dst x v hat hdst hsrc hnew =>
    obtain ⟨r, rfl, rfl⟩ := mirrored_eq hp hdst
    obtain ⟨f, hf, rfl⟩ := (h.written s r.stage x).1 (by rw [hsrc]; rfl)
    have hold := h.dirs (peer s, .external r) nofun
    rw [contents_external] at hold
    have hsame : SameBut a b (peer s, .external r) κ.store κ'.store := by
      rw [hstore]; exact sameBut_put hp _ _ v
    by_cases hin : f ∈ ((σ s).out r.stage).files
    · -- the key is there with another object
      refine .inl (h.update (peer s, .external r) nofun hsame (fun i => ?_)
        (fun _ _ => rfl) fun y => ?_)
      · rcases eq_or_peer s i with rfl | rfl
        · exact hsite.trans (h.site i)
        · rw [hpeer]; exact h.site (peer s)
      · rw [hstore, isSome_put_dst, contents_external, hold]
        exact or_iff_right_of_imp fun hy => hy ▸ lists_key.2 hin
    · refine hmove (.copy (hpc ▸ hat) hf hin) (h.mirrors r rfl
        (fun t ht => Node.setOut_ne _ ht _) hsame (hsite.trans (h.site s)) hpeer fun y => ?_)
      rw [hstore, isSome_put_dst, Node.setOut_self, lists_insert, hold]
  | @remove st dst x hat hdst hsrc hsome =>
    obtain ⟨r, rfl, rfl⟩ := mirrored_eq hp hdst
    have hold := h.dirs (peer s, .external r) nofun
    rw [contents_external] at hold
    have hsame : SameBut a b (peer s, .external r) κ.store κ'.store := by
      rw [hstore]; exact sameBut_erase hp _ _
    rcases (hold x).1 hsome with ⟨rfl, hmark⟩ | ⟨f, hf, rfl⟩
    · refine hmove (.removeMarker (hpc ▸ hat) hmark) (h.mirrors r rfl
        (fun t ht => Node.setOut_ne _ ht _) hsame (hsite.trans (h.site s)) hpeer fun y => ?_)
      rw [hstore, isSome_erase_dst, Node.setOut_self, lists_unmark, hold]
    · have hpriv : f ∉ (σ s).priv r.stage := by
        intro hin
        have hsrc' := (h.written s r.stage _).2 ⟨f, hin, rfl⟩
        rw [hsrc] at hsrc'
        cases hsrc'
      refine hmove (.remove (hpc ▸ hat) hpriv hf) (h.mirrors r rfl
        (fun t ht => Node.setOut_ne _ ht _) hsame (hsite.trans (h.site s)) hpeer fun y => ?_)
      rw [hstore, isSome_erase_dst, Node.setOut_self, lists_erase, hold]
  | @endMirror st dst hat hdst hsync =>
    obtain ⟨r, rfl, rfl⟩ := mirrored_eq hp hdst
    have hold := h.dirs (peer s, .external r) nofun
    rw [contents_external] at hold
    obtain ⟨hfiles, hmark⟩ := lists_files fun y => by rw [← hold, hsync, h.written]
    exact hmove (.endMirror (hpc ▸ hat) hfiles hmark)
      (h.stay rfl rfl hstore (by rw [hsite, hjobs]) hpeer)
  | @mark st dst t v hat hdst hnext =>
    obtain ⟨r, rfl, rfl⟩ := mirrored_eq hp hdst
    have hold := h.dirs (peer s, .external r) nofun
    rw [contents_external] at hold
    rw [successPath_eq] at hstore
    refine hmove (.mark (hpc ▸ hat) hnext) (h.mirrors r rfl
      (fun t ht => Node.setOut_ne _ ht _) ?_ (by rw [hsite, hjobs]; rfl) hpeer fun y => ?_)
    · rw [hstore]; exact sameBut_put hp _ _ v
    · rw [hstore, isSome_put_dst]
      dsimp only
      rw [Node.setOut_self, lists_mark (m := ((σ s).out r.stage).success), hold]

/-! ## Runs -/

/-- Every configuration has a store to start from. -/
theorem exists_fresh (hp : Peers a b) (c : Cfg BatchId) (N : PartNames) (v : γ) :
    ∃ s : Store γ, Fresh c a b s := by
  classical
  let C : ServerId → Finset (File BatchId) × Bool := fun i =>
    ((c.raw i).image fun batch => ⟨batch, .success⟩, c.rawSuccess i)
  let there : String → Prop := fun k =>
    ∃ i y, k = slot a b (i, .rawShares) ++ "/" ++ y ∧ Lists N (C i) y
  have hslot : ∀ {i : ServerId} {x : ServerId × Dir} {y z : String},
      slot a b x ++ "/" ++ y = slot a b (i, .rawShares) ++ "/" ++ z → x = (i, .rawShares) := by
    intro i x y z heq
    by_contra hne
    exact (dirs_apart hp hne).key_ne (within_append (slot a b x) y) z heq
  have hkeys : ∀ i y, ((if there (slot a b (i, .rawShares) ++ "/" ++ y) then some v
      else none : Option γ)).isSome = true ↔ Lists N (C i) y := by
    intro i y
    by_cases hk : there (slot a b (i, .rawShares) ++ "/" ++ y)
    · rw [if_pos hk]
      obtain ⟨j, z, heq, hl⟩ := hk
      cases hslot heq
      rw [append_left_inj heq]
      exact iff_of_true rfl hl
    · rw [if_neg hk]
      exact iff_of_false nofun fun hl => hk ⟨i, y, rfl, hl⟩
  refine ⟨fun k => if there k then some v else none, fun i => ?_, fun i batch => ?_,
    fun x hx y => if_neg fun hk => ?_⟩
  · rw [Bool.eq_iff_iff, successPath_eq]
    exact (hkeys i "_SUCCESS").trans lists_success
  · rw [occupied_batch]
    refine (exists_congr fun y => hkeys i _).trans (lists_batch.trans ?_)
    rw [visible_iff]
    constructor
    · intro h
      obtain ⟨f, hf, rfl⟩ := h
      obtain ⟨batch, hb, rfl⟩ := Finset.mem_image.1 hf
      exact hb
    · exact fun hb => ⟨_, Finset.mem_image_of_mem _ hb, rfl⟩
  · obtain ⟨i, z, heq, -⟩ := hk
    exact hx (congrArg Prod.snd (hslot heq))

theorem stored_init (h : (objectProcess γ c N a b).init κ) :
    Stored c N a b (fun _ => Node.start) κ := by
  obtain ⟨hsite, hfresh⟩ := h
  refine ⟨hsite, hfresh.marked, hfresh.raw, fun x hx y => ?_⟩
  have hnone : contents (fun _ => (Node.start : Node BatchId)) x = (∅, false) := by
    obtain ⟨i, d⟩ := x
    cases d <;> rfl
  rw [hfresh.empty x hx y, hnone]
  refine iff_of_false nofun fun hl => ?_
  rcases hl with ⟨-, hl⟩ | ⟨f, hf, -⟩
  · cases hl
  · cases hf

/-- Every run on keys is a run of `Process`. -/
theorem reachable_stored (hp : Peers a b) (h : (objectProcess γ c N a b).Reachable κ) :
    ∃ σ, (process c).Reachable σ ∧ Stored c N a b σ κ := by
  refine LTS.Inductive.reachable (P := fun κ => ∃ σ, (process c).Reachable σ ∧ Stored c N a b σ κ)
    ⟨fun κ hκ => ?_, fun κ l κ' hκ hs => ?_⟩ κ h
  · exact ⟨_, LTS.reachable_init rfl, stored_init hκ⟩
  · obtain ⟨σ, hσ, hst⟩ := hκ
    obtain ⟨s, act⟩ := l
    rcases object_step hp hst hs.1 hs.2 with hst' | ⟨x, σ', hx, hst'⟩
    · exact ⟨σ, hσ, hst'⟩
    · exact ⟨σ', hσ.step hx, hst'⟩

/-- A server in the batch loop of a stage finds in its external directory the
keys of the peer's output, beside the marker. -/
theorem objects_complete (hp : Peers a b) (h : (objectProcess γ c N a b).Reachable κ)
    {s : ServerId} {st p : Stage} (hpc : (κ.site s).pc.readsIn = some st) (hprev : st.prev = some p)
    {y : String} (hy : y ≠ "_SUCCESS") :
    (κ.store ((envOf a b s).waits st ++ "/" ++ y)).isSome = true ↔
      (κ.store ((envOf a b (peer s)).output p ++ "/" ++ y)).isSome = true := by
  obtain ⟨σ, hσ, hst⟩ := reachable_stored hp h
  have hinv := inv_reachable hσ
  rw [hst.site s] at hpc
  have hfiles := ((hinv (peer s)).sent p ((hinv s).reading st p hpc hprev)).files
  have hlists : ∀ m, Lists N (((σ (peer s)).out p).files, m) y ↔
      ∃ f ∈ (σ (peer s)).priv p, y = N.key f := fun m => by
    rw [hfiles]
    exact or_iff_right fun hl => hy hl.1
  rw [hst.written, ← hlists ((σ (peer s)).out p).success]
  cases st with
  | verify1 => cases hprev
  | verify2 => cases hprev; exact hst.dirs (s, .external .verify1) nofun y
  | aggregate => cases hprev; exact hst.dirs (s, .external .verify2) nofun y
  | publish => cases hprev; exact hst.dirs (s, .external .aggregate) nofun y

/-- A server that has finished has published the configured raw batches. -/
theorem objects_published (hp : Peers a b) (hraws : c.raw .A = c.raw .B)
    (h : (objectProcess γ c N a b).Reachable κ) {s : ServerId} (hpc : (κ.site s).pc = .done)
    (batch : BatchId) : Occupied (batchDir (envOf a b s).publishOutput batch.1) κ.store ↔
      batch ∈ c.config ∧ batch ∈ c.raw s := by
  obtain ⟨σ, hσ, hst⟩ := reachable_stored hp h
  rw [hst.site s] at hpc
  exact (hst.occupied (x := (s, .publish)) nofun batch).trans
    (HandOff.published (HandOff.raw_same hraws) hσ hpc batch)

end Simulation

end PrioProcessor.L4
