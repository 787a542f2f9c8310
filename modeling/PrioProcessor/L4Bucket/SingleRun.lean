import PrioProcessor.L4Bucket.Process
import Mathlib.Data.Prod.Lex
import Mathlib.Order.WellFounded

/-!
# One run on each server: what every reachable state looks like

`Good` is the invariant of a server in the system `process`: the stages before
the current one are mirrored with their markers, the directories of the stages
after it are empty, and the current stage has written the batches it passed.
The batches of a stage are those the first stage of one of the servers found
(`Wanted`): verify2 and publish follow the peer's raw batches, verify1 and
aggregate the server's own.

* `move_good`, `move_frame`: what one step preserves, and that a directory with
  its marker never changes again; `inv_reachable` for whole runs.
* `rank`: every step lowers it (`step_rank`), so every run ends.
* `exists_step`: a server that has not ended has a step, and as long as nobody
  gave up some server has one that is not a failed poll.
* `runs_to_done`: so both servers can finish, if no job lacks an input.
-/
namespace PrioProcessor.L4

open L1 (ServerId)

variable {β : Type} [DecidableEq β]

/-- The server whose raw batches decide the batches of a stage. -/
def origin (s : ServerId) : Stage → ServerId
  | .verify1 => s
  | .verify2 => peer s
  | .aggregate => s
  | .publish => peer s

theorem origin_prev (s : ServerId) {st p : Stage} (h : st.prev = some p) :
    origin (peer s) p = origin s st := by
  cases st <;> cases h <;> simp [origin]

/-- The batches of a stage. -/
def Wanted (c : Cfg β) (s : ServerId) (st : Stage) (b : β) : Prop :=
  b ∈ c.config ∧ b ∈ c.raw (origin s st)

section Disk

variable (c : Cfg β) (s : ServerId) (priv : Stage → Finset (File β)) (out : Stage → Shared β)

/-- The private directory of a stage has the wanted batches of `pre`. -/
def Written (st : Stage) (pre : List β) : Prop :=
  ∀ b, visible (priv st) b = true ↔ b ∈ pre ∧ b ∈ c.raw (origin s st)

/-- The stage is mirrored completely, with its marker. -/
structure Sent (st : Stage) : Prop where
  success : (out st).success = true
  files : (out st).files = priv st
  batches : Written c s priv st c.config

structure Clean (st : Stage) : Prop where
  priv : priv st = ∅
  out : out st = .empty

/-- The directories of a server in a stage. -/
structure InStage (st : Stage) : Prop where
  before : ∀ t, t.idx < st.idx → Sent c s priv out t
  after : ∀ t, st.idx < t.idx → Clean priv out t
  unsent : (out st).success = false

def AtPc : Pc β → Prop
  | .wait st _ => InStage c s priv out st ∧ Clean priv out st
  | .loop st todo => InStage c s priv out st ∧ (out st).files = ∅ ∧
      ∃ pre, c.config = pre ++ todo ∧ Written c s priv st pre
  | .submit st b todo => InStage c s priv out st ∧ (out st).files = ∅ ∧
      b ∈ c.raw (origin s st) ∧ ∃ pre, c.config = pre ++ b :: todo ∧ Written c s priv st pre
  | .mirror st => InStage c s priv out st ∧ st ≠ .publish ∧ (out st).files ⊆ priv st ∧
      Written c s priv st c.config
  | .marker st => InStage c s priv out st ∧ st ≠ .publish ∧ (out st).files = priv st ∧
      Written c s priv st c.config
  | .done => (∀ t, t.idx < Stage.publish.idx → Sent c s priv out t) ∧
      Written c s priv .publish c.config
  | .gaveUp => True
  | .aborted => True

end Disk

/-- The stage in which a server reads the peer's directory. -/
def Pc.readsIn : Pc β → Option Stage
  | .loop st _ => some st
  | .submit st _ _ => some st
  | _ => none

/-- The invariant of a server whose peer mirrors into `peerOut`. -/
structure Good (c : Cfg β) (s : ServerId) (n : Node β) (peerOut : Stage → Shared β) : Prop where
  atPc : AtPc c s n.priv n.out n.pc
  sent : ∀ t, (n.out t).success = true → Sent c s n.priv n.out t
  used : ∀ t, t ≠ .publish → ∀ b, visible (n.priv t) b = true → b ∈ c.raw s
  reading : ∀ st p, n.pc.readsIn = some st → st.prev = some p → (peerOut p).success = true

/-! ## Writes of the current stage -/

section Writes

variable {c : Cfg β} {s : ServerId} {priv : Stage → Finset (File β)} {out : Stage → Shared β}
  {st t : Stage}

theorem Sent.updateOut (h : Sent c s priv out t) (hne : t ≠ st) (d : Shared β) :
    Sent c s priv (Function.update out st d) t where
  success := by rw [Function.update_of_ne hne]; exact h.success
  files := by rw [Function.update_of_ne hne]; exact h.files
  batches := h.batches

theorem Sent.updatePriv (h : Sent c s priv out t) (hne : t ≠ st) (x : Finset (File β)) :
    Sent c s (Function.update priv st x) out t where
  success := h.success
  files := by rw [Function.update_of_ne hne]; exact h.files
  batches := by
    unfold Written
    rw [Function.update_of_ne hne]; exact h.batches

omit [DecidableEq β] in
theorem Clean.updateOut (h : Clean priv out t) (hne : t ≠ st) (d : Shared β) :
    Clean priv (Function.update out st d) t :=
  ⟨h.priv, by rw [Function.update_of_ne hne]; exact h.out⟩

omit [DecidableEq β] in
theorem Clean.updatePriv (h : Clean priv out t) (hne : t ≠ st) (x : Finset (File β)) :
    Clean (Function.update priv st x) out t :=
  ⟨by rw [Function.update_of_ne hne]; exact h.priv, h.out⟩

theorem ne_of_idx_lt (h : t.idx < st.idx) : t ≠ st := fun heq => by
  rw [heq] at h; exact Nat.lt_irrefl _ h

theorem ne_of_idx_gt (h : st.idx < t.idx) : t ≠ st := fun heq => by
  rw [heq] at h; exact Nat.lt_irrefl _ h

theorem InStage.updateOut (h : InStage c s priv out st) {d : Shared β} (hd : d.success = false) :
    InStage c s priv (Function.update out st d) st where
  before t ht := (h.before t ht).updateOut (ne_of_idx_lt ht) d
  after t ht := (h.after t ht).updateOut (ne_of_idx_gt ht) d
  unsent := by rw [Function.update_self]; exact hd

theorem InStage.updatePriv (h : InStage c s priv out st) (x : Finset (File β)) :
    InStage c s (Function.update priv st x) out st where
  before t ht := (h.before t ht).updatePriv (ne_of_idx_lt ht) x
  after t ht := (h.after t ht).updatePriv (ne_of_idx_gt ht) x
  unsent := h.unsent

/-- The stages with a marker are the ones before the current stage. -/
theorem InStage.sent_iff (h : InStage c s priv out st) :
    (out t).success = true ↔ t.idx < st.idx := by
  constructor
  · intro ht
    by_contra hlt
    rcases Nat.lt_or_eq_of_le (Nat.not_lt.1 hlt) with hgt | heq
    · rw [(h.after t hgt).out] at ht; cases ht
    · rw [← Stage.idx_inj heq, h.unsent] at ht; cases ht
  · intro ht
    exact (h.before t ht).success

theorem Written.skip {pre : List β} {b : β} (h : Written c s priv st pre)
    (hb : b ∉ c.raw (origin s st)) : Written c s priv st (pre ++ [b]) := by
  intro b'
  rw [h b', List.mem_append, List.mem_singleton]
  constructor
  · intro h; exact ⟨.inl h.1, h.2⟩
  · intro h
    refine ⟨h.1.resolve_right fun heq => ?_, h.2⟩
    rw [heq] at h; exact hb h.2

theorem Written.write {pre : List β} {b : β} (h : Written c s priv st pre)
    (hb : b ∈ c.raw (origin s st)) (job k : ℕ) :
    Written c s (Function.update priv st (writeBatch (priv st) b (jobFiles b job k))) st
      (pre ++ [b]) := by
  intro b'
  rw [Function.update_self, visible_writeBatch, h b', List.mem_append, List.mem_singleton]
  constructor
  · intro h
    rcases h with rfl | h
    · exact ⟨.inr rfl, hb⟩
    · exact ⟨.inl h.1, h.2⟩
  · intro h
    rcases h.1 with hin | heq
    · exact .inr ⟨hin, h.2⟩
    · exact .inl heq

theorem Clean.written (h : Clean priv out st) : Written c s priv st [] := by
  intro b
  rw [h.priv]
  simp

end Writes

/-! ## One step -/

section Steps

variable {c : Cfg β} {s : ServerId} {n n' : Node β} {peerOut : Stage → Shared β} {a : Act β}

/-- The peer's directories with a marker have the batches the stage after them
wants. -/
def Feeds (c : Cfg β) (s : ServerId) (peerOut : Stage → Shared β) : Prop :=
  ∀ p, (peerOut p).success = true → ∀ b, visible (peerOut p).files b = true ↔ Wanted c (peer s) p b

/-- The existence check finds the wanted batches. -/
theorem present_iff (hfeeds : Feeds c s peerOut) {st : Stage}
    (hread : ∀ p, st.prev = some p → (peerOut p).success = true) {b : β} (hb : b ∈ c.config) :
    present c s peerOut st b = true ↔ b ∈ c.raw (origin s st) := by
  cases hp : st.prev with
  | none =>
    rw [Stage.prev_eq_none hp]
    exact decide_eq_true_iff
  | some p =>
    rw [present_eq hp, hfeeds p (hread p hp) b]
    unfold Wanted
    rw [origin_prev s hp]
    exact and_iff_right hb

theorem inputs_raw {st : Stage} (hst : st ≠ .publish) {b : β}
    (h : inputs c s n peerOut st b = true) : b ∈ c.raw s := by
  cases hp : st.prev with
  | none =>
    rw [Stage.prev_eq_none hp] at h
    exact decide_eq_true_iff.1 h
  | some p =>
    rw [inputs_eq hp] at h
    simp only [Bool.and_eq_true, Bool.or_eq_true, decide_eq_true_eq] at h
    exact h.1.1.resolve_left hst

/-- A directory with its marker is not changed by a step, and neither is the
output it was copied from. -/
theorem move_frame (hn : Good c s n peerOut) (h : Move c s n peerOut a n') {t : Stage}
    (ht : (n.out t).success = true) : n'.out t = n.out t ∧ n'.priv t = n.priv t := by
  have hat := hn.atPc
  cases h with
  | pass | giveUp | retry | found | skip | failed | finish | noOutput | startMirror | endMirror =>
    exact ⟨rfl, rfl⟩
  | ran k hpc hi =>
    rw [hpc] at hat
    exact ⟨rfl, Function.update_of_ne (ne_of_idx_lt (hat.1.sent_iff.1 ht)) _ _⟩
  | copy hpc hf hf' =>
    rw [hpc] at hat
    exact ⟨Function.update_of_ne (ne_of_idx_lt (hat.1.sent_iff.1 ht)) _ _, rfl⟩
  | remove hpc hf hf' =>
    rw [hpc] at hat
    exact ⟨Function.update_of_ne (ne_of_idx_lt (hat.1.sent_iff.1 ht)) _ _, rfl⟩
  | removeMarker hpc hm =>
    rw [hpc] at hat
    exact ⟨Function.update_of_ne (ne_of_idx_lt (hat.1.sent_iff.1 ht)) _ _, rfl⟩
  | mark hpc hnext =>
    rw [hpc] at hat
    exact ⟨Function.update_of_ne (ne_of_idx_lt (hat.1.sent_iff.1 ht)) _ _, rfl⟩

theorem move_atPc (hn : Good c s n peerOut) (hfeeds : Feeds c s peerOut)
    (h : Move c s n peerOut a n') :
    AtPc c s n'.priv n'.out n'.pc := by
  have hat := hn.atPc
  cases h with
  | pass hpc hr =>
    rw [hpc] at hat
    obtain ⟨hin, hclean⟩ := hat
    exact ⟨hin, by rw [hclean.out]; rfl, [], rfl, hclean.written⟩
  | giveUp | failed | noOutput => exact trivial
  | retry hpc hr hle => rw [hpc] at hat; exact hat
  | found hpc hp =>
    have hread := hn.reading
    rw [hpc] at hat hread
    obtain ⟨hin, hfiles, pre, hcfg, hw⟩ := hat
    have hb := (present_iff hfeeds (fun p hp => hread _ p rfl hp) (by rw [hcfg]; simp)).1 hp
    exact ⟨hin, hfiles, hb, pre, hcfg, hw⟩
  | @skip st b todo hpc hp =>
    have hread := hn.reading
    rw [hpc] at hat hread
    obtain ⟨hin, hfiles, pre, hcfg, hw⟩ := hat
    have hb : b ∉ c.raw (origin s st) := by
      rw [← present_iff hfeeds (fun p hp => hread _ p rfl hp) (by rw [hcfg]; simp), hp]
      exact Bool.false_ne_true
    exact ⟨hin, hfiles, pre ++ [b], by rw [hcfg]; simp, hw.skip hb⟩
  | ran k hpc hi =>
    rw [hpc] at hat
    obtain ⟨hin, hfiles, hb, pre, hcfg, hw⟩ := hat
    exact ⟨hin.updatePriv _, hfiles, pre ++ [_], by rw [hcfg]; simp, hw.write hb _ _⟩
  | finish hpc hnext =>
    rw [hpc, Stage.next_eq_none hnext] at hat
    obtain ⟨hin, -, pre, hcfg, hw⟩ := hat
    rw [List.append_nil] at hcfg
    exact ⟨hin.before, hcfg ▸ hw⟩
  | startMirror hpc hnext hne =>
    rw [hpc] at hat
    obtain ⟨hin, hfiles, pre, hcfg, hw⟩ := hat
    rw [List.append_nil] at hcfg
    refine ⟨hin, fun heq => ?_, by rw [hfiles]; exact Finset.empty_subset _, hcfg ▸ hw⟩
    rw [heq] at hnext; cases hnext
  | copy hpc hf hf' =>
    rw [hpc] at hat
    obtain ⟨hin, hst, hsub, hw⟩ := hat
    rw [Node.setOut_pc, hpc]
    refine ⟨hin.updateOut hin.unsent, hst, ?_, hw⟩
    rw [Node.setOut_self]
    exact Finset.insert_subset hf hsub
  | remove hpc hf hf' =>
    rw [hpc] at hat
    exact absurd (hat.2.2.1 hf') hf
  | removeMarker hpc hm =>
    rw [hpc] at hat
    rw [hat.1.unsent] at hm; cases hm
  | endMirror hpc hf hm =>
    rw [hpc] at hat
    exact ⟨hat.1, hat.2.1, hf, hat.2.2.2⟩
  | @mark st t hpc hnext =>
    rw [hpc] at hat
    obtain ⟨hin, -, hfiles, hw⟩ := hat
    have hidx := Stage.idx_next hnext
    have hclean := hin.after t (by omega)
    have hne : t ≠ st := ne_of_idx_gt (by omega)
    have hin' : InStage c s n.priv
        (Function.update n.out st { n.out st with success := true, dirty := false }) t := by
      refine ⟨fun u hu => ?_, fun u hu => ?_, ?_⟩
      · by_cases hus : u = st
        · rw [hus]
          exact ⟨by rw [Function.update_self], by rw [Function.update_self]; exact hfiles, hw⟩
        · have hlt : u.idx < st.idx := by
            have := mt Stage.idx_inj hus
            omega
          exact (hin.before u hlt).updateOut hus _
      · exact (hin.after u (by omega)).updateOut (ne_of_idx_gt (by omega)) _
      · rw [Function.update_of_ne hne, hclean.out]; rfl
    exact ⟨hin', hclean.updateOut hne _⟩

/-- What one step preserves of a server. -/
theorem move_good (hn : Good c s n peerOut) (hfeeds : Feeds c s peerOut)
    (h : Move c s n peerOut a n') :
    Good c s n' peerOut := by
  have hat := hn.atPc
  have hat' := move_atPc hn hfeeds h
  refine ⟨hat', fun t ht => ?_, fun t hst b hb => ?_, fun st p hst hp => ?_⟩
  · by_cases hold : (n.out t).success = true
    · obtain ⟨hout, hpriv⟩ := move_frame hn h hold
      have hs := hn.sent t hold
      refine ⟨ht, by rw [hout, hpriv]; exact hs.files, ?_⟩
      unfold Written
      rw [hpriv]; exact hs.batches
    · -- the marker was just copied
      cases h with
      | pass | giveUp | retry | found | skip | ran | failed | finish | noOutput | startMirror |
        endMirror => exact absurd ht hold
      | @copy st f hpc hf hf' =>
        rw [hpc] at hat
        by_cases hts : t = st
        · rw [hts, Node.setOut_self] at ht
          exact absurd (hts ▸ ht) hold
        · rw [Node.setOut_ne n hts] at ht
          exact absurd ht hold
      | remove hpc hf hf' => rw [hpc] at hat; exact absurd (hat.2.2.1 hf') hf
      | removeMarker hpc hm => rw [hpc] at hat; rw [hat.1.unsent] at hm; cases hm
      | @mark st u hpc hnext =>
        have hidx := Stage.idx_next hnext
        exact hat'.1.before t (hat'.1.sent_iff.1 ht)
  · cases h with
    | pass | giveUp | retry | found | skip | failed | finish | noOutput | startMirror | copy |
      remove | removeMarker | endMirror | mark => exact hn.used t hst b hb
    | @ran st b' todo k hpc hi =>
      by_cases hts : t = st
      · rw [hts, Node.ran_self, visible_writeBatch] at hb
        rcases hb with rfl | hb
        · exact inputs_raw (hts ▸ hst) hi
        · exact hn.used st (hts ▸ hst) b hb
      · rw [Node.ran_ne n peerOut hts] at hb
        exact hn.used t hst b hb
  · have hread := hn.reading
    cases h with
    | pass hpc hr =>
      cases hst
      rw [← ready_eq hp]; exact hr
    | giveUp | retry | failed | finish | noOutput | startMirror | endMirror | mark => cases hst
    | found hpc _ => rw [hpc] at hread; exact hread st p hst hp
    | skip hpc _ => rw [hpc] at hread; exact hread st p hst hp
    | ran k hpc _ => rw [hpc] at hread; exact hread st p hst hp
    | copy hpc | remove hpc | removeMarker hpc =>
      rw [Node.setOut_pc, hpc] at hst; cases hst

end Steps

/-! ## Whole runs -/

section Runs

variable {c : Cfg β} {σ σ' : Sys β}

/-- The invariant of the two servers. -/
def Inv (c : Cfg β) (σ : Sys β) : Prop := ∀ s, Good c s (σ s) (σ (peer s)).out

theorem Inv.feeds (h : Inv c σ) (s : ServerId) : Feeds c s (σ (peer s)).out := by
  intro p hp
  have hsent := (h (peer s)).sent p hp
  rw [hsent.files]
  exact hsent.batches

theorem inv_init (c : Cfg β) : Inv c fun _ => Node.start := by
  intro s
  have hclean : ∀ t, Clean (Node.start : Node β).priv Node.start.out t := fun t => ⟨rfl, rfl⟩
  exact
    { atPc := ⟨⟨fun t ht => absurd ht (Nat.not_lt_zero _), fun t _ => hclean t, rfl⟩, hclean _⟩
      sent := fun t ht => nomatch ht
      used := fun t _ b hb => by simp [Node.start] at hb
      reading := fun st p h => nomatch h }

/-- A directory with its marker is not changed by any step. -/
theorem step_frame (h : Inv c σ) {l : ServerId × Act β} (hs : step c σ l = some σ') (t : ServerId)
    (st : Stage) (hst : ((σ t).out st).success = true) :
    (σ' t).out st = (σ t).out st ∧ (σ' t).priv st = (σ t).priv st := by
  obtain ⟨s, a⟩ := l
  obtain ⟨hmove, hpeer⟩ := step_move hs
  rcases eq_or_peer s t with rfl | rfl
  · exact move_frame (h t) hmove hst
  · rw [hpeer]; exact ⟨rfl, rfl⟩

theorem inv_step (h : Inv c σ) {l : ServerId × Act β} (hs : step c σ l = some σ') : Inv c σ' := by
  have hframe := fun t p hp => (step_frame h hs t p hp).1
  obtain ⟨s, a⟩ := l
  obtain ⟨hmove, hpeer⟩ := step_move hs
  intro t
  rcases eq_or_peer s t with rfl | rfl
  · rw [hpeer]
    exact move_good (h t) (h.feeds t) hmove
  · have hg := h (peer s)
    rw [hpeer]
    refine ⟨hg.atPc, hg.sent, hg.used, fun st p hst hp => ?_⟩
    have hread := hg.reading st p hst hp
    rw [hframe _ p hread]; exact hread

theorem inv_reachable (h : (process c).Reachable σ) : Inv c σ := by
  refine LTS.Inductive.reachable (P := Inv c) ⟨fun τ hτ => ?_, fun τ l τ' hi hs => inv_step hi hs⟩
    σ h
  have hstart : τ = fun _ => Node.start := hτ
  rw [hstart]
  exact inv_init c

/-- In every continuation of a run a directory with its marker stays as it
is. -/
theorem run_frame (h : Inv c σ) {ls : List (ServerId × Act β)} {τ : Sys β}
    (hr : (process c).Run σ ls τ) {t : ServerId} {st : Stage}
    (hst : ((σ t).out st).success = true) :
    (τ t).out st = (σ t).out st ∧ (τ t).priv st = (σ t).priv st := by
  have hrun := hr.preserves (P := fun τ => Inv c τ ∧ (τ t).out st = (σ t).out st ∧
    (τ t).priv st = (σ t).priv st) (fun τ l τ' hτ hs => ?_) ⟨h, rfl, rfl⟩
  · exact hrun.2
  · obtain ⟨hinv, hout, hpriv⟩ := hτ
    obtain ⟨ho, hp⟩ := step_frame hinv hs t st (by rw [hout]; exact hst)
    exact ⟨inv_step hinv hs, ho.trans hout, hp.trans hpriv⟩

end Runs

/-! ## Every run ends -/

section Rank

/-- The steps a server has left in its stages, apart from single files and
polls. -/
def weight (len : ℕ) : Pc β → ℕ
  | .wait st _ => (3 - st.idx) * (2 * len + 6) + (2 * len + 5)
  | .loop st todo => (3 - st.idx) * (2 * len + 6) + (2 * todo.length + 3)
  | .submit st _ todo => (3 - st.idx) * (2 * len + 6) + (2 * todo.length + 4)
  | .mirror st => (3 - st.idx) * (2 * len + 6) + 2
  | .marker st => (3 - st.idx) * (2 * len + 6) + 1
  | .done => 0
  | .gaveUp => 0
  | .aborted => 0

/-- The files a mirror has left to copy and to remove. -/
def pending (n : Node β) : ℕ :=
  match n.pc with
  | .mirror st => (n.priv st \ (n.out st).files).card + ((n.out st).files \ n.priv st).card +
      if (n.out st).success then 1 else 0
  | _ => 0

def retriesLeft (c : Cfg β) (n : Node β) : ℕ :=
  match n.pc with
  | .wait _ retries => c.retryLimit + 1 - retries
  | _ => 0

def total (f : Node β → ℕ) (σ : Sys β) : ℕ := f (σ .A) + f (σ .B)

omit [DecidableEq β] in
theorem total_eq (f : Node β → ℕ) (σ : Sys β) (s : ServerId) :
    total f σ = f (σ s) + f (σ (peer s)) := by
  cases s with
  | A => rfl
  | B => exact Nat.add_comm _ _

/-- Lexicographic: the stages left, the files left, the polls left. -/
def rank (c : Cfg β) (σ : Sys β) : ℕ ×ₗ ℕ ×ₗ ℕ :=
  toLex (total (fun n => weight c.config.length n.pc) σ,
    toLex (total pending σ, total (retriesLeft c) σ))

variable {c : Cfg β} {s : ServerId} {n n' : Node β} {peerOut : Stage → Shared β} {a : Act β}

/-- `n'` is below `n` in the order of the three ranks. -/
def Lower (c : Cfg β) (n' n : Node β) : Prop :=
  weight c.config.length n'.pc < weight c.config.length n.pc ∨
    weight c.config.length n'.pc = weight c.config.length n.pc ∧
      (pending n' < pending n ∨ pending n' = pending n ∧ retriesLeft c n' < retriesLeft c n)

theorem move_lower (h : Move c s n peerOut a n') : Lower c n' n := by
  cases h with
  | pass hpc hr => left; rw [hpc]; simp only [weight]; omega
  | giveUp hpc hr hlt => left; rw [hpc]; simp only [weight]; omega
  | retry hpc hr hle =>
    right
    refine ⟨by rw [hpc]; rfl, .inr ⟨?_, ?_⟩⟩
    · unfold pending; rw [hpc]
    · unfold retriesLeft; rw [hpc]; dsimp only; omega
  | found hpc hp => left; rw [hpc]; simp only [weight, List.length_cons]; omega
  | skip hpc hp => left; rw [hpc]; simp only [weight, List.length_cons]; omega
  | ran k hpc hi => left; rw [hpc]; simp only [Node.ran, weight]; omega
  | failed k hpc hi => left; rw [hpc]; simp only [weight]; omega
  | finish hpc hn => left; rw [hpc]; simp only [weight]; omega
  | noOutput hpc hn he => left; rw [hpc]; simp only [weight]; omega
  | startMirror hpc hn he => left; rw [hpc]; simp only [weight]; omega
  | @copy st f hpc hf hf' =>
    right
    refine ⟨rfl, .inl ?_⟩
    have hlt :
        (n.priv st \ insert f (n.out st).files).card < (n.priv st \ (n.out st).files).card := by
      refine Finset.card_lt_card ⟨Finset.sdiff_subset_sdiff subset_rfl (Finset.subset_insert _ _),
        fun hsub => ?_⟩
      have hmem := hsub (Finset.mem_sdiff.2 ⟨hf, hf'⟩)
      exact (Finset.mem_sdiff.1 hmem).2 (Finset.mem_insert_self _ _)
    have hpriv : (n.setOut st { n.out st with
        files := insert f (n.out st).files, dirty := true }).priv st = n.priv st := rfl
    unfold pending
    rw [Node.setOut_pc, hpc]
    dsimp only
    rw [Node.setOut_self, hpriv, Finset.insert_sdiff_of_mem _ hf]
    dsimp only
    omega
  | @remove st f hpc hf hf' =>
    right
    refine ⟨rfl, .inl ?_⟩
    have hlt :
        ((n.out st).files.erase f \ n.priv st).card < ((n.out st).files \ n.priv st).card := by
      refine Finset.card_lt_card ⟨Finset.sdiff_subset_sdiff (Finset.erase_subset _ _) subset_rfl,
        fun hsub => ?_⟩
      have hmem := hsub (Finset.mem_sdiff.2 ⟨hf', hf⟩)
      exact Finset.notMem_erase f _ (Finset.mem_sdiff.1 hmem).1
    have hsame : n.priv st \ (n.out st).files.erase f = n.priv st \ (n.out st).files := by
      ext g
      simp only [Finset.mem_sdiff, Finset.mem_erase]
      constructor
      · intro h; exact ⟨h.1, fun hg => h.2 ⟨fun heq => hf (heq ▸ h.1), hg⟩⟩
      · intro h; exact ⟨h.1, fun hg => h.2 hg.2⟩
    have hpriv : (n.setOut st { n.out st with
        files := (n.out st).files.erase f, dirty := true }).priv st = n.priv st := rfl
    unfold pending
    rw [Node.setOut_pc, hpc]
    dsimp only
    rw [Node.setOut_self, hpriv]
    dsimp only
    rw [hsame]
    omega
  | @removeMarker st hpc hm =>
    right
    refine ⟨rfl, .inl ?_⟩
    have hpriv : (n.setOut st { n.out st with success := false, dirty := true }).priv st =
      n.priv st := rfl
    unfold pending
    rw [Node.setOut_pc, hpc]
    dsimp only
    rw [Node.setOut_self, hpriv, hm]
    exact Nat.lt_succ_self _
  | endMirror hpc hf hm => left; rw [hpc]; simp only [weight]; omega
  | @mark st t hpc hn =>
    left
    rw [hpc]
    have hidx := Stage.idx_next hn
    have hle := Stage.idx_le t
    have hsub : 3 - st.idx = (3 - t.idx) + 1 := by omega
    simp only [weight]
    rw [hsub, Nat.add_mul]
    omega

theorem step_rank {σ σ' : Sys β} {l : ServerId × Act β} (h : step c σ l = some σ') :
    rank c σ' < rank c σ := by
  obtain ⟨s, a⟩ := l
  obtain ⟨hmove, hpeer⟩ := step_move h
  have hlow := move_lower hmove
  unfold Lower at hlow
  unfold rank
  rw [Prod.Lex.toLex_lt_toLex, Prod.Lex.toLex_lt_toLex]
  dsimp only
  simp only [total_eq _ _ s, hpeer]
  omega

end Rank

/-! ## Which steps there are -/

section Progress

variable {c : Cfg β} {s : ServerId} {n n' : Node β} {peerOut : Stage → Shared β} {a : Act β}

/-- The run is over. -/
def Pc.Ended (pc : Pc β) : Prop := pc = .done ∨ pc = .gaveUp ∨ pc = .aborted

/-- The run ended without publishing. -/
def Pc.Stopped (pc : Pc β) : Prop := pc = .gaveUp ∨ pc = .aborted

/-- The server waits for a marker that is not there. -/
def Blocked (c : Cfg β) (s : ServerId) (n : Node β) (peerOut : Stage → Shared β) : Prop :=
  ∃ st r, n.pc = .wait st r ∧ ready c s peerOut st = false

theorem Blocked.exists_poll (h : Blocked c s n peerOut) : ∃ n', Move c s n peerOut .poll n' := by
  obtain ⟨st, r, hpc, hr⟩ := h
  by_cases hlt : c.retryLimit < r + 1
  · exact ⟨_, .giveUp hpc hr hlt⟩
  · exact ⟨_, .retry hpc hr (Nat.not_lt.1 hlt)⟩

/-- A server has ended, is blocked, or can move on. -/
theorem exists_move (peerOut : Stage → Shared β) (hat : AtPc c s n.priv n.out n.pc) :
    n.pc.Ended ∨ Blocked c s n peerOut ∨
      ∃ a n', Move c s n peerOut a n' ∧ ¬ Blocked c s n peerOut := by
  have hopen : ∀ {pc}, n.pc = pc → (∀ st r, pc ≠ .wait st r) → ¬ Blocked c s n peerOut := by
    intro pc hpc hne hb
    obtain ⟨st, r, hw, -⟩ := hb
    exact hne st r (hpc ▸ hw)
  cases hpc : n.pc with
  | wait st r =>
    cases hr : ready c s peerOut st with
    | false => exact .inr (.inl ⟨st, r, hpc, hr⟩)
    | true =>
      refine .inr (.inr ⟨_, _, .pass hpc hr, fun hb => ?_⟩)
      obtain ⟨st', r', hw, hr'⟩ := hb
      rw [hpc] at hw
      cases hw
      rw [hr] at hr'; cases hr'
  | loop st todo =>
    have hb := hopen hpc fun _ _ => nofun
    cases todo with
    | nil =>
      cases hn : st.next with
      | none => exact .inr (.inr ⟨_, _, .finish hpc hn, hb⟩)
      | some t =>
        by_cases he : n.priv st = ∅
        · exact .inr (.inr ⟨_, _, .noOutput hpc hn he, hb⟩)
        · exact .inr (.inr ⟨_, _, .startMirror hpc hn he, hb⟩)
    | cons b todo =>
      cases hp : present c s peerOut st b with
      | true => exact .inr (.inr ⟨_, _, .found hpc hp, hb⟩)
      | false => exact .inr (.inr ⟨_, _, .skip hpc hp, hb⟩)
  | submit st b todo =>
    have hb := hopen hpc fun _ _ => nofun
    cases hi : inputs c s n peerOut st b with
    | true => exact .inr (.inr ⟨_, _, .ran 0 hpc hi, hb⟩)
    | false => exact .inr (.inr ⟨_, _, .failed 0 hpc hi, hb⟩)
  | mirror st =>
    have hb := hopen hpc fun _ _ => nofun
    by_cases hcopy : ∃ f ∈ n.priv st, f ∉ (n.out st).files
    · obtain ⟨f, hf, hf'⟩ := hcopy
      exact .inr (.inr ⟨_, _, .copy hpc hf hf', hb⟩)
    · by_cases hremove : ∃ f ∈ (n.out st).files, f ∉ n.priv st
      · obtain ⟨f, hf, hf'⟩ := hremove
        exact .inr (.inr ⟨_, _, .remove hpc hf' hf, hb⟩)
      · cases hm : (n.out st).success with
        | true => exact .inr (.inr ⟨_, _, .removeMarker hpc hm, hb⟩)
        | false =>
          have heq : (n.out st).files = n.priv st := by
            ext f
            constructor
            · intro hf; by_contra hne; exact hremove ⟨f, hf, hne⟩
            · intro hf; by_contra hne; exact hcopy ⟨f, hf, hne⟩
          exact .inr (.inr ⟨_, _, .endMirror hpc heq hm, hb⟩)
  | marker st =>
    have hb := hopen hpc fun _ _ => nofun
    rw [hpc] at hat
    cases hn : st.next with
    | none => exact absurd (Stage.next_eq_none hn) hat.2.1
    | some t => exact .inr (.inr ⟨_, _, .mark hpc hn, hb⟩)
  | done => exact .inl (.inl rfl)
  | gaveUp => exact .inl (.inr (.inl rfl))
  | aborted => exact .inl (.inr (.inr rfl))

/-- A server that has not sent a stage and did not stop is still in this stage
or before it. -/
theorem waits_before (hat : AtPc c s n.priv n.out n.pc) {p : Stage} (hp : p ≠ .publish)
    (hunsent : (n.out p).success = false) :
    n.pc ≠ .done ∧ ∀ st r, n.pc = .wait st r → st.idx ≤ p.idx := by
  have hnot : ∀ {P : Prop}, Sent c s n.priv n.out p → P := fun h => by
    rw [h.success] at hunsent; cases hunsent
  constructor
  · intro hpc
    rw [hpc] at hat
    have hidx : p.idx < Stage.publish.idx := by cases p <;> first | decide | exact absurd rfl hp
    exact hnot (hat.1 p hidx)
  · intro st r hpc
    rw [hpc] at hat
    by_contra hlt
    exact hnot (hat.1.before p (by omega))

variable {σ : Sys β}

/-- Two servers that did not stop never wait for each other. -/
theorem not_both_blocked (h : Inv c σ) (hraw : ∀ s, c.rawSuccess s = true) {s : ServerId}
    (hs : Blocked c s (σ s) (σ (peer s)).out) :
    (σ (peer s)).pc ≠ .done ∧ ¬ Blocked c (peer s) (σ (peer s)) (σ s).out := by
  have hprev : ∀ {t peerOut st r}, (σ t).pc = .wait st r → ready c t peerOut st = false →
      ∃ p, st.prev = some p ∧ p ≠ .publish ∧ (peerOut p).success = false := by
    intro t peerOut st r hpc hr
    cases hp : st.prev with
    | none =>
      rw [Stage.prev_eq_none hp] at hr
      exact absurd ((hraw t).symm.trans hr) (by decide)
    | some p =>
      refine ⟨p, rfl, fun heq => ?_, by rw [← ready_eq hp]; exact hr⟩
      rw [heq] at hp
      cases st <;> cases hp
  obtain ⟨st, r, hpc, hr⟩ := hs
  obtain ⟨p, hp, hpp, hunsent⟩ := hprev hpc hr
  obtain ⟨hdone, hwait⟩ := waits_before (h (peer s)).atPc hpp hunsent
  refine ⟨hdone, fun hb => ?_⟩
  obtain ⟨st', r', hpc', hr'⟩ := hb
  obtain ⟨p', hp', hpp', hunsent'⟩ := hprev hpc' hr'
  obtain ⟨-, hwait'⟩ := waits_before (h s).atPc hpp' hunsent'
  have h₁ := hwait st' r' hpc'
  have h₂ := hwait' st r hpc
  have h₃ := Stage.idx_prev hp
  have h₄ := Stage.idx_prev hp'
  omega

/-- As long as some server has not ended there is a step; if no server stopped,
one of a server that is not blocked. -/
theorem exists_step (h : Inv c σ) (hraw : ∀ s, c.rawSuccess s = true)
    (hopen : ∃ s, ¬ (σ s).pc.Ended) : ∃ l σ', step c σ l = some σ' ∧
      ((∀ s, ¬ (σ s).pc.Stopped) → ¬ Blocked c l.1 (σ l.1) (σ (peer l.1)).out) := by
  obtain ⟨s, hs⟩ := hopen
  rcases exists_move (σ (peer s)).out (h s).atPc with hend | hb | ⟨a, n', hmove, hfree⟩
  · exact absurd hend hs
  · rcases exists_move (σ (peer (peer s))).out (h (peer s)).atPc with
      hend | hb' | ⟨a, n', hmove, hfree⟩
    · -- the peer has ended without sending what `s` waits for, so it stopped
      obtain ⟨n', hmove⟩ := hb.exists_poll
      refine ⟨_, _, move_step hmove, fun hstop => ?_⟩
      rcases hend with hdone | hgave
      · exact absurd hdone (not_both_blocked h hraw hb).1
      · exact absurd hgave (hstop (peer s))
    · rw [peer_peer] at hb'
      exact absurd hb' (not_both_blocked h hraw hb).2
    · exact ⟨_, _, move_step hmove, fun _ => hfree⟩
  · exact ⟨_, _, move_step hmove, fun _ => hfree⟩

/-! ## Both servers finish -/

/-- Some configured batch is in the raw shares of both servers. -/
def Common (c : Cfg β) : Prop := ∃ b ∈ c.config, ∀ s, b ∈ c.raw s

theorem Common.written {s : ServerId} {priv : Stage → Finset (File β)} {st : Stage}
    (h : Common c) (hw : Written c s priv st c.config) : priv st ≠ ∅ := by
  obtain ⟨b, hb, hraw⟩ := h
  obtain ⟨f, hf, -⟩ := visible_iff.1 ((hw b).2 ⟨hb, hraw _⟩)
  exact Finset.ne_empty_of_mem hf

/-- A step of a server that is not blocked does not stop it, if its job has its
inputs. -/
theorem move_not_stopped (hc : Common c) (hat : AtPc c s n.priv n.out n.pc)
    (hinputs : ∀ st b todo, n.pc = .submit st b todo → inputs c s n peerOut st b = true)
    (hn : ¬ n.pc.Stopped) (hfree : ¬ Blocked c s n peerOut) (h : Move c s n peerOut a n') :
    ¬ n'.pc.Stopped := by
  cases h with
  | giveUp hpc hr hlt => exact absurd ⟨_, _, hpc, hr⟩ hfree
  | retry hpc hr hle => exact absurd ⟨_, _, hpc, hr⟩ hfree
  | failed k hpc hi =>
    rw [hinputs _ _ _ hpc] at hi; cases hi
  | noOutput hpc hnext he =>
    rw [hpc] at hat
    obtain ⟨-, -, pre, hcfg, hw⟩ := hat
    rw [List.append_nil] at hcfg
    exact absurd he (hc.written (hcfg ▸ hw))
  | pass | found | skip | ran | finish | startMirror | endMirror | mark => exact nofun
  | copy hpc | remove hpc | removeMarker hpc => rw [Node.setOut_pc]; exact hn

/-- If no job lacks an input, two servers that did not stop can finish. -/
theorem runs_to_done (hraw : ∀ s, c.rawSuccess s = true) (hc : Common c)
    (hinputs : ∀ τ, (process c).Reachable τ → ∀ s st b todo, (τ s).pc = .submit st b todo →
      inputs c s (τ s) (τ (peer s)).out st b = true)
    (hσ : (process c).Reachable σ) (hrun : ∀ s, ¬ (σ s).pc.Stopped) :
    ∃ ls τ, (process c).Run σ ls τ ∧ (process c).Reachable τ ∧ ∀ s, (τ s).pc = .done := by
  have hprogress : ∀ σ, ((process c).Reachable σ ∧ ∀ s, ¬ (σ s).pc.Stopped) →
      (¬ ∀ s, (σ s).pc = .done) → ∃ l σ', (process c).step σ l σ' ∧
        ((process c).Reachable σ' ∧ ∀ s, ¬ (σ' s).pc.Stopped) ∧ rank c σ' < rank c σ := by
    intro σ hσ hnot
    obtain ⟨hreach, hstop⟩ := hσ
    have hinv := inv_reachable hreach
    have hopen : ∃ s, ¬ (σ s).pc.Ended := by
      by_contra hall
      refine hnot fun s => ?_
      have hend : (σ s).pc.Ended := by
        by_contra hne; exact hall ⟨s, hne⟩
      exact hend.resolve_right (hstop s)
    obtain ⟨⟨s, a⟩, σ', hstep, hfree⟩ := exists_step hinv hraw hopen
    obtain ⟨hmove, hpeer⟩ := step_move hstep
    refine ⟨(s, a), σ', hstep, ⟨hreach.step hstep, fun t => ?_⟩, step_rank hstep⟩
    rcases eq_or_peer s t with rfl | rfl
    · exact move_not_stopped hc (hinv t).atPc (hinputs σ hreach t) (hstop t) (hfree hstop) hmove
    · rw [hpeer]; exact hstop (peer s)
  obtain ⟨ls, τ, hls, hτ, hdone⟩ :=
    LTS.reaches_goal (rank c) _ (fun σ => ∀ s, (σ s).pc = .done) hprogress σ ⟨hσ, hrun⟩
  exact ⟨ls, τ, hls, hτ.1, hdone⟩

end Progress

end PrioProcessor.L4
