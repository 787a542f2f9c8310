import PrioProcessor.Core.ObjectStore
import PrioProcessor.L1Prio.Libprio

/-!
# The bucket paths of bin/process

The directories of `verify1`, `verify2`, `aggregate` and `publish`
(src/bin/process:102-215) as functions of a server's environment. The `mc`
aliases `internal` and `external` are left out: paths are compared as if both
servers used one storage endpoint, where a clash is easiest.

* `routes`: the directory a stage mirrors into is the one the peer's next stage
  waits on and reads.
* `dirs_apart`: the eight directories of each server are pairwise different and
  not nested, whatever buckets coincide.
* `paths_route_and_never_clash`: both, and no stage of a server changes an
  object outside the two directories it writes.
-/
namespace PrioProcessor.L4

open ObjectStore
open L1 (ServerId)

/-- The server the other one exchanges packets with. -/
def peer : ServerId → ServerId
  | .A => .B
  | .B => .A

@[simp] theorem peer_peer (s : ServerId) : peer (peer s) = s := by cases s <;> rfl

theorem peer_ne (s : ServerId) : peer s ≠ s := by cases s <;> decide

theorem eq_or_peer (s t : ServerId) : t = s ∨ t = peer s := by cases s <;> cases t <;> decide

/-- The environment of bin/process that its paths read.
mirrors src/bin/process:19-43 -/
structure Env where
  publicKeyHexInternal : String
  publicKeyHexExternal : String
  appName : String
  bucketInternalIngest : String
  bucketInternalPrivate : String
  bucketInternalShared : String
  bucketExternalShared : String
  submissionDate : String
  bucketPrefix : String
  deriving DecidableEq, Repr

namespace Env

/-- mirrors src/bin/process:42 -/
def internalPrefix (e : Env) : String :=
  e.bucketPrefix ++ "/" ++ e.publicKeyHexExternal ++ "/" ++ e.appName ++ "/" ++ e.submissionDate

/-- mirrors src/bin/process:43 -/
def externalPrefix (e : Env) : String :=
  e.bucketPrefix ++ "/" ++ e.publicKeyHexInternal ++ "/" ++ e.appName ++ "/" ++ e.submissionDate

/-- `${BUCKET_INTERNAL_INGEST}/${INTERNAL_PREFIX}/raw/shares` -/
def rawShares (e : Env) : String :=
  e.bucketInternalIngest ++ "/" ++ e.internalPrefix ++ "/raw/shares"

/-- `${BUCKET_INTERNAL_PRIVATE}/${INTERNAL_PREFIX}/intermediate/internal/<stage>` -/
def intermediateInternal (e : Env) (stage : String) : String :=
  e.bucketInternalPrivate ++ "/" ++ e.internalPrefix ++ "/intermediate/internal/" ++ stage

/-- `${BUCKET_INTERNAL_SHARED}/${INTERNAL_PREFIX}/intermediate/external/<stage>` -/
def intermediateExternal (e : Env) (stage : String) : String :=
  e.bucketInternalShared ++ "/" ++ e.internalPrefix ++ "/intermediate/external/" ++ stage

/-- `${BUCKET_EXTERNAL_SHARED}/${EXTERNAL_PREFIX}/intermediate/external/<stage>` -/
def intermediatePeer (e : Env) (stage : String) : String :=
  e.bucketExternalShared ++ "/" ++ e.externalPrefix ++ "/intermediate/external/" ++ stage

/-! mirrors src/bin/process:105-107 -/

def verify1Input (e : Env) : String := e.rawShares
def verify1OutputInternal (e : Env) : String := e.intermediateInternal "verify1"
def verify1OutputExternal (e : Env) : String := e.intermediatePeer "verify1"

/-! mirrors src/bin/process:135-139 -/

def verify2Input (e : Env) : String := e.rawShares
def verify2InputInternal (e : Env) : String := e.intermediateInternal "verify1"
def verify2InputExternal (e : Env) : String := e.intermediateExternal "verify1"
def verify2OutputInternal (e : Env) : String := e.intermediateInternal "verify2"
def verify2OutputExternal (e : Env) : String := e.intermediatePeer "verify2"

/-! mirrors src/bin/process:165-169 -/

def aggregateInput (e : Env) : String := e.rawShares
def aggregateInputInternal (e : Env) : String := e.intermediateInternal "verify2"
def aggregateInputExternal (e : Env) : String := e.intermediateExternal "verify2"
def aggregateOutputInternal (e : Env) : String := e.intermediateInternal "aggregate"
def aggregateOutputExternal (e : Env) : String := e.intermediatePeer "aggregate"

/-! mirrors src/bin/process:195-197 -/

def publishInputInternal (e : Env) : String := e.intermediateInternal "aggregate"
def publishInputExternal (e : Env) : String := e.intermediateExternal "aggregate"
def publishOutput (e : Env) : String :=
  e.bucketInternalPrivate ++ "/" ++ e.internalPrefix ++ "/processed/publish"

/-- The directories the four functions name. -/
def uses (e : Env) : List String :=
  [e.verify1Input, e.verify1OutputInternal, e.verify1OutputExternal,
    e.verify2Input, e.verify2InputInternal, e.verify2InputExternal, e.verify2OutputInternal,
    e.verify2OutputExternal,
    e.aggregateInput, e.aggregateInputInternal, e.aggregateInputExternal,
    e.aggregateOutputInternal, e.aggregateOutputExternal,
    e.publishInputInternal, e.publishInputExternal, e.publishOutput]

end Env

/-- The path `wait_for_data` stats.
mirrors src/bin/process:109,141,171,199 -/
def successPath (dir : String) : String := dir ++ "/_SUCCESS"

/-! ## What a stage writes -/

variable {β : Type}

/-- `"${dir}/batch_id=${batch_id}"` -/
def batchDir (dir batchId : String) : String := dir ++ "/batch_id=" ++ batchId

/-- mirrors src/bin/process:56-66; `v` is the empty file that `touch` makes -/
def rsyncDelete (v : β) (src dst : String) (s : Store β) : Store β :=
  put (successPath dst) v (mirror src dst s)

/-- The jobs of a stage, each with its batch and what it writes into the
batch's directory (mode `overwrite`). -/
def submitAll (output : String) (jobs : List (String × (String → Option β))) (s : Store β) :
    Store β :=
  jobs.foldl (fun s job => replaceDir (batchDir output job.1) job.2 s) s

/-- mirrors src/bin/process:115-129,143-159,173-189: the batch loop and
`rsync_delete` -/
def stage (v : β) (outputInternal outputExternal : String)
    (jobs : List (String × (String → Option β))) (s : Store β) : Store β :=
  rsyncDelete v outputInternal outputExternal (submitAll outputInternal jobs s)

/-- The marker that `rsync_delete` copies is what `wait_for_data` stats. -/
theorem rsyncDelete_marker (v : β) (src dst : String) (s : Store β) :
    rsyncDelete v src dst s (successPath dst) = some v := by
  unfold rsyncDelete put
  rw [if_pos rfl]

theorem successPath_eq (dir : String) : successPath dir = dir ++ "/" ++ "_SUCCESS" := by
  have h : "/_SUCCESS" = "/" ++ "_SUCCESS" := by decide
  unfold successPath
  rw [h, String.append_assoc]

theorem batchDir_eq (dir batchId : String) :
    batchDir dir batchId = dir ++ "/" ++ ("batch_id=" ++ batchId) := by
  have h : "/batch_id=" = "/" ++ "batch_id=" := by decide
  unfold batchDir
  rw [h]
  simp only [String.append_assoc]

/-- Beside the marker, `rsync_delete` leaves the source's objects in the
destination and nothing else. -/
theorem rsyncDelete_dst (v : β) (src dst : String) (s : Store β) {x : String}
    (hx : x ≠ "_SUCCESS") : rsyncDelete v src dst s (dst ++ "/" ++ x) = s (src ++ "/" ++ x) := by
  unfold rsyncDelete
  rw [successPath_eq, put_dst, if_neg hx, mirror_dst]

theorem submitAll_apart {d out k : String} (h : Apart d out) (hk : Within d k)
    (jobs : List (String × (String → Option β))) (s : Store β) :
    submitAll out jobs s k = s k := by
  unfold submitAll
  induction jobs generalizing s with
  | nil => rfl
  | cons job jobs ih =>
    rw [List.foldl_cons, ih]
    have hout : ¬ Within (batchDir out job.1) k := by
      rw [batchDir_eq]
      exact fun hw => h.key hk (within_sub hw)
    unfold replaceDir
    rw [if_neg hout]

/-- A stage changes no object outside the two directories it writes. -/
theorem stage_apart {d out outExt k : String} (h : Apart d out) (h' : Apart d outExt)
    (hk : Within d k) (v : β) (jobs : List (String × (String → Option β))) (s : Store β) :
    stage v out outExt jobs s k = s k := by
  unfold stage rsyncDelete
  rw [successPath_eq, put_apart h' hk, mirror_apart h' hk, submitAll_apart h hk]

/-! ## Two servers -/

/-- The environments of two servers that exchange packets. -/
structure Peers (a b : Env) : Prop where
  bucketPrefix : b.bucketPrefix = a.bucketPrefix
  appName : b.appName = a.appName
  submissionDate : b.submissionDate = a.submissionDate
  keyInternal : b.publicKeyHexInternal = a.publicKeyHexExternal
  keyExternal : b.publicKeyHexExternal = a.publicKeyHexInternal
  keys : a.publicKeyHexInternal ≠ a.publicKeyHexExternal
  length : a.publicKeyHexInternal.length = a.publicKeyHexExternal.length
  sharedA : a.bucketExternalShared = b.bucketInternalShared
  sharedB : b.bucketExternalShared = a.bucketInternalShared
  slashFree : ∀ e ∈ [a, b], ∀ bucket ∈ [e.bucketInternalIngest, e.bucketInternalPrivate,
    e.bucketInternalShared], '/' ∉ bucket.toList

theorem Peers.symm {a b : Env} (h : Peers a b) : Peers b a where
  bucketPrefix := h.bucketPrefix.symm
  appName := h.appName.symm
  submissionDate := h.submissionDate.symm
  keyInternal := h.keyExternal.symm
  keyExternal := h.keyInternal.symm
  keys := by rw [h.keyInternal, h.keyExternal]; exact h.keys.symm
  length := by rw [h.keyInternal, h.keyExternal, h.length]
  sharedA := h.sharedB
  sharedB := h.sharedA
  slashFree e he := h.slashFree e (by simpa [or_comm] using he)

/-- The stages whose output the peer reads. -/
inductive Round where
  | verify1 | verify2 | aggregate
  deriving DecidableEq, Repr

def Round.name : Round → String
  | .verify1 => "verify1"
  | .verify2 => "verify2"
  | .aggregate => "aggregate"

/-- The directories a server reads or writes in its own buckets. -/
inductive Dir where
  | rawShares
  | internal (r : Round)
  | external (r : Round)
  | publish
  deriving DecidableEq, Repr

/-- The environment of a server. -/
def envOf (a b : Env) : ServerId → Env
  | .A => a
  | .B => b

def Env.dir (e : Env) : Dir → String
  | .rawShares => e.rawShares
  | .internal r => e.intermediateInternal r.name
  | .external r => e.intermediateExternal r.name
  | .publish => e.publishOutput

/-- Where `wait_for_data` and the jobs of the stage after a round look. -/
def Env.nextInputExternal (e : Env) : Round → String
  | .verify1 => e.verify2InputExternal
  | .verify2 => e.aggregateInputExternal
  | .aggregate => e.publishInputExternal

/-- Where a round's `rsync_delete` reads and writes. -/
def Env.outputInternal (e : Env) : Round → String
  | .verify1 => e.verify1OutputInternal
  | .verify2 => e.verify2OutputInternal
  | .aggregate => e.aggregateOutputInternal

def Env.outputExternal (e : Env) : Round → String
  | .verify1 => e.verify1OutputExternal
  | .verify2 => e.verify2OutputExternal
  | .aggregate => e.aggregateOutputExternal

theorem outputInternal_eq (e : Env) (r : Round) : e.outputInternal r = e.dir (.internal r) := by
  cases r <;> rfl

theorem nextInputExternal_eq (e : Env) (r : Round) :
    e.nextInputExternal r = e.dir (.external r) := by
  cases r <;> rfl

section Paths

variable {a b : Env}

/-- The directory a stage mirrors into is the one the peer's next stage
reads. -/
theorem routes (h : Peers a b) (r : Round) : a.outputExternal r = b.nextInputExternal r := by
  have hpre : a.externalPrefix = b.internalPrefix := by
    unfold Env.externalPrefix Env.internalPrefix
    rw [h.bucketPrefix, h.appName, h.submissionDate, h.keyExternal]
  have hpath : a.intermediatePeer r.name = b.intermediateExternal r.name := by
    unfold Env.intermediatePeer Env.intermediateExternal
    rw [hpre, h.sharedA]
  cases r <;> exact hpath

/-! ## No two directories clash -/

def Env.bucket (e : Env) : Dir → String
  | .rawShares => e.bucketInternalIngest
  | .internal _ => e.bucketInternalPrivate
  | .external _ => e.bucketInternalShared
  | .publish => e.bucketInternalPrivate

/-- The part of a directory below the submission date. -/
def Dir.leaf : Dir → String
  | .rawShares => "raw/shares"
  | .internal r => "intermediate/internal/" ++ r.name
  | .external r => "intermediate/external/" ++ r.name
  | .publish => "processed/publish"

/-- A directory by its components: bucket, prefix, key and the rest. -/
theorem dir_eq (e : Env) (d : Dir) : e.dir d = e.bucket d ++ "/" ++ e.bucketPrefix ++ "/" ++
    e.publicKeyHexExternal ++ "/" ++ e.appName ++ "/" ++ e.submissionDate ++ "/" ++ d.leaf := by
  have hsplit : e.dir d = e.bucket d ++ "/" ++ e.internalPrefix ++ ("/" ++ d.leaf) := by
    cases d with
    | rawShares =>
      have h : "/raw/shares" = "/" ++ Dir.rawShares.leaf := by decide
      exact congrArg (e.bucketInternalIngest ++ "/" ++ e.internalPrefix ++ ·) h
    | internal r =>
      have h : "/intermediate/internal/" ++ r.name = "/" ++ (Dir.internal r).leaf := by
        cases r <;> decide
      exact String.append_assoc.trans
        (congrArg (e.bucketInternalPrivate ++ "/" ++ e.internalPrefix ++ ·) h)
    | external r =>
      have h : "/intermediate/external/" ++ r.name = "/" ++ (Dir.external r).leaf := by
        cases r <;> decide
      exact String.append_assoc.trans
        (congrArg (e.bucketInternalShared ++ "/" ++ e.internalPrefix ++ ·) h)
    | publish =>
      have h : "/processed/publish" = "/" ++ Dir.publish.leaf := by decide
      exact congrArg (e.bucketInternalPrivate ++ "/" ++ e.internalPrefix ++ ·) h
  rw [hsplit]
  unfold Env.internalPrefix
  simp only [String.append_assoc]

theorem leaf_not_under : ∀ d d' : Dir, d ≠ d' → ¬ Under d.leaf d'.leaf := by
  have h : ∀ r r' : Round, r ≠ r' → ¬ Under r.name r'.name := by
    intro r r'
    cases r <;> cases r' <;> decide
  intro d d' hne
  cases d with
  | rawShares => cases d' with
    | rawShares => exact absurd rfl hne
    | internal r => cases r <;> decide
    | external r => cases r <;> decide
    | publish => decide
  | internal r => cases d' with
    | rawShares => cases r <;> decide
    | internal r' =>
      exact fun hu => h r r' (fun heq => hne (heq ▸ rfl)) ((under_append_left _ _ _).1 hu)
    | external r' => cases r <;> cases r' <;> decide
    | publish => cases r <;> decide
  | external r => cases d' with
    | rawShares => cases r <;> decide
    | internal r' => cases r <;> cases r' <;> decide
    | external r' =>
      exact fun hu => h r r' (fun heq => hne (heq ▸ rfl)) ((under_append_left _ _ _).1 hu)
    | publish => cases r <;> decide
  | publish => cases d' with
    | rawShares => decide
    | internal r => cases r <;> decide
    | external r => cases r <;> decide
    | publish => exact absurd rfl hne

theorem bucket_slashFree (h : Peers a b) (s : ServerId) (d : Dir) :
    '/' ∉ ((envOf a b s).bucket d).toList := by
  have he : envOf a b s ∈ [a, b] := by cases s <;> simp [envOf]
  refine h.slashFree _ he _ ?_
  cases d <;> simp [Env.bucket]

/-- The key component tells the servers apart. -/
theorem key_eq_iff (h : Peers a b) (s t : ServerId) :
    (envOf a b s).publicKeyHexExternal = (envOf a b t).publicKeyHexExternal ↔ s = t := by
  have hk := h.keys
  cases s <;> cases t <;> simp [envOf, h.keyExternal, hk, hk.symm]

theorem key_length (h : Peers a b) (s t : ServerId) :
    (envOf a b s).publicKeyHexExternal.length = (envOf a b t).publicKeyHexExternal.length := by
  cases s <;> cases t <;> simp [envOf, h.keyExternal, h.length]

/-- A directory under another one has its bucket, its key and its leaf. -/
theorem dir_under (h : Peers a b) {s t : ServerId} {d d' : Dir}
    (hu : Under ((envOf a b s).dir d) ((envOf a b t).dir d')) : s = t ∧ d = d' := by
  have hpre : (envOf a b t).bucketPrefix = (envOf a b s).bucketPrefix := by
    cases s <;> cases t <;> simp [envOf, h.bucketPrefix]
  have happ : (envOf a b t).appName = (envOf a b s).appName := by
    cases s <;> cases t <;> simp [envOf, h.appName]
  have hdate : (envOf a b t).submissionDate = (envOf a b s).submissionDate := by
    cases s <;> cases t <;> simp [envOf, h.submissionDate]
  rw [dir_eq, dir_eq, hpre, happ, hdate] at hu
  simp only [String.append_assoc] at hu
  have hbucket := hu.bucket_eq (bucket_slashFree h s d) (bucket_slashFree h t d')
  rw [hbucket] at hu
  simp only [under_append_left] at hu
  have hkey := hu.component_eq (key_length h s t)
  rw [hkey] at hu
  simp only [under_append_left] at hu
  refine ⟨(key_eq_iff h s t).1 hkey, ?_⟩
  by_contra hne
  exact leaf_not_under d d' hne hu

/-- The sixteen directories are pairwise different and not nested. -/
theorem dirs_apart (h : Peers a b) {x y : ServerId × Dir} (hne : x ≠ y) :
    Apart ((envOf a b x.1).dir x.2) ((envOf a b y.1).dir y.2) := by
  refine apart_of_not_under (fun hu => ?_) (fun hu => ?_)
  · obtain ⟨hs, hd⟩ := dir_under h hu
    exact hne (Prod.ext hs hd)
  · obtain ⟨hs, hd⟩ := dir_under h hu
    exact hne (Prod.ext hs.symm hd.symm)

theorem outputExternal_eq (h : Peers a b) (s : ServerId) (r : Round) :
    (envOf a b s).outputExternal r = (envOf a b (peer s)).dir (.external r) := by
  rw [← nextInputExternal_eq]
  cases s with
  | A => exact routes h r
  | B => exact routes h.symm r

/-- No server names a directory besides the sixteen. -/
theorem uses_dir (h : Peers a b) (s : ServerId) {d : String} (hd : d ∈ (envOf a b s).uses) :
    ∃ x : ServerId × Dir, d = (envOf a b x.1).dir x.2 := by
  have hext := outputExternal_eq h s
  unfold Env.uses at hd
  simp only [List.mem_cons, List.not_mem_nil, or_false] at hd
  rcases hd with rfl | rfl | rfl | rfl | rfl | rfl | rfl | rfl | rfl | rfl | rfl | rfl | rfl | rfl |
    rfl | rfl
  · exact ⟨(s, .rawShares), rfl⟩
  · exact ⟨(s, .internal .verify1), rfl⟩
  · exact ⟨(peer s, .external .verify1), hext .verify1⟩
  · exact ⟨(s, .rawShares), rfl⟩
  · exact ⟨(s, .internal .verify1), rfl⟩
  · exact ⟨(s, .external .verify1), rfl⟩
  · exact ⟨(s, .internal .verify2), rfl⟩
  · exact ⟨(peer s, .external .verify2), hext .verify2⟩
  · exact ⟨(s, .rawShares), rfl⟩
  · exact ⟨(s, .internal .verify2), rfl⟩
  · exact ⟨(s, .external .verify2), rfl⟩
  · exact ⟨(s, .internal .aggregate), rfl⟩
  · exact ⟨(peer s, .external .aggregate), hext .aggregate⟩
  · exact ⟨(s, .internal .aggregate), rfl⟩
  · exact ⟨(s, .external .aggregate), rfl⟩
  · exact ⟨(s, .publish), rfl⟩

end Paths

/-- Every stage mirrors into the directory the peer's next stage waits on and
reads, the directories the two servers name are sixteen, pairwise different and
not nested, and no stage changes an object of a directory other than the two it
writes. -/
theorem paths_route_and_never_clash {a b : Env} (h : Peers a b) :
    (∀ s r, (envOf a b s).outputExternal r = (envOf a b (peer s)).nextInputExternal r) ∧
    (∀ (β : Type) (v : β) (s : ServerId) (r : Round) (store : Store β),
      let mirrored := rsyncDelete v ((envOf a b s).outputInternal r)
        ((envOf a b s).outputExternal r) store
      let next := (envOf a b (peer s)).nextInputExternal r
      mirrored (successPath next) = some v ∧ ∀ x, x ≠ "_SUCCESS" →
        mirrored (next ++ "/" ++ x) = store ((envOf a b s).outputInternal r ++ "/" ++ x)) ∧
    (∀ s, ∀ d ∈ (envOf a b s).uses, ∃ x : ServerId × Dir, d = (envOf a b x.1).dir x.2) ∧
    (∀ x y : ServerId × Dir, x ≠ y →
      Apart ((envOf a b x.1).dir x.2) ((envOf a b y.1).dir y.2)) ∧
    (∀ (β : Type) (v : β) (s : ServerId) (r : Round) (x : ServerId × Dir),
      x ≠ (s, .internal r) → x ≠ (peer s, .external r) → ∀ jobs store k,
      Within ((envOf a b x.1).dir x.2) k → stage v ((envOf a b s).outputInternal r)
        ((envOf a b s).outputExternal r) jobs store k = store k) ∧
    (∀ (β : Type) (s : ServerId) (x : ServerId × Dir), x ≠ (s, .publish) →
      ∀ (jobs : List (String × (String → Option β))) (store : Store β) (k : String),
      Within ((envOf a b x.1).dir x.2) k →
        submitAll (envOf a b s).publishOutput jobs store k = store k) := by
  have hroute : ∀ s r,
      (envOf a b s).outputExternal r = (envOf a b (peer s)).nextInputExternal r := by
    intro s r
    rw [outputExternal_eq h, nextInputExternal_eq]
  refine ⟨hroute, fun β v s r store => ?_, fun s d hd => uses_dir h s hd,
    fun x y hne => dirs_apart h hne, fun β v s r x hint hext jobs store k hk => ?_,
    fun β s x hne jobs store k hk => ?_⟩
  · dsimp only
    rw [← hroute]
    exact ⟨rsyncDelete_marker v _ _ store, fun x hx => rsyncDelete_dst v _ _ store hx⟩
  · rw [outputExternal_eq h, outputInternal_eq]
    exact stage_apart (dirs_apart h hint) (dirs_apart h hext) hk v jobs store
  · exact submitAll_apart (dirs_apart h hne) hk jobs store

/-- One bucket for everything. -/
def sampleEnv (internal external : String) : Env :=
  ⟨internal, external, "app", "bucket", "bucket", "bucket", "bucket", "2021-04-27", "data/v1"⟩

theorem paths_one_bucket :
    let a := sampleEnv "C6" "E5"
    let b := sampleEnv "E5" "C6"
    (∀ s r, (envOf a b s).outputExternal r = (envOf a b (peer s)).nextInputExternal r) ∧
      ∀ x y : ServerId × Dir, x ≠ y →
        Apart ((envOf a b x.1).dir x.2) ((envOf a b y.1).dir y.2) := by
  intro a b
  have h : Peers a b := ⟨rfl, rfl, rfl, rfl, rfl, by decide, by decide, rfl, rfl, by decide⟩
  obtain ⟨hroute, -, -, hapart, -, -⟩ := paths_route_and_never_clash h
  exact ⟨hroute, hapart⟩

end PrioProcessor.L4
