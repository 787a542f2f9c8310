import PrioProcessor.L4Bucket.SingleRun

/-!
# Any number of runs of bin/process

A run can end at any step, by a failed command or from outside (`crash`), or in
the middle of a Spark job, which leaves some part files and no marker of its own
(`jobDie`); a server that has ended can be started again (`restart`). Nothing
removes files between the runs: `bin/cleanup` is a separate script.

`undisturbed` is a condition on the state before a step: `wait_for_data` lets
the server pass only when no mirror into the directory is unfinished, and no
mirror copies or removes a file of a batch that the peer has yet to read. Along
the runs whose steps meet it, every stage reads the output of one run of the
peer's preceding stage (`rerunInv_reachable`).
-/
namespace PrioProcessor.L4

open L1 (ServerId)

variable {β : Type} [DecidableEq β]

/-- The ways a run ends early, and the start of the next one. -/
inductive Fault where
  | crash
  | jobDie (k : ℕ)
  | restart
  deriving DecidableEq, Repr

instance (pc : Pc β) : Decidable pc.Ended := inferInstanceAs (Decidable (_ ∨ _ ∨ _))

def fault (n : Node β) : Fault → Option (Node β)
  | .crash => if n.pc.Ended then none else some { n with pc := .aborted }
  | .jobDie k =>
    match n.pc with
    | .submit st b _ => some { n with
        pc := .aborted
        priv := Function.update n.priv st (writeBatch (n.priv st) b (parts b n.jobs k))
        jobs := n.jobs + 1 }
    | _ => none
  | .restart => if n.pc.Ended then some { n with pc := .wait .verify1 0 } else none

/-- A step of a run, or a fault. -/
def stepAny (c : Cfg β) (σ : Sys β) : ServerId × (Act β ⊕ Fault) → Option (Sys β)
  | (s, .inl a) => step c σ (s, a)
  | (s, .inr f) => (fault (σ s) f).map fun n => Function.update σ s n

/-- Runs and re-runs of bin/process on both servers. -/
def reruns (c : Cfg β) : LTS (Sys β) (ServerId × (Act β ⊕ Fault)) :=
  .ofFn (fun σ => σ = fun _ => Node.start) (stepAny c)

/-- The batches of the current stage that are yet to be checked and read. -/
def Pc.left : Pc β → List β
  | .loop _ todo => todo
  | .submit _ b todo => b :: todo
  | _ => []

/-- The server is in the stage after `p` and has yet to read the batch. -/
def Pc.reads (pc : Pc β) (p : Stage) (b : β) : Bool :=
  match pc.readsIn with
  | some st => decide (st.prev = some p) && decide (b ∈ pc.left)
  | none => false

/-- The peer has no use for the file a mirror is about to change. -/
def calm (σ : Sys β) (s : ServerId) (f : File β) : Bool :=
  match (σ s).pc with
  | .mirror st => !(σ (peer s)).pc.reads st f.batch
  | _ => true

/-- The condition on a step. -/
def undisturbed (σ : Sys β) : ServerId × (Act β ⊕ Fault) → Bool
  | (s, .inl .poll) =>
    match (σ s).pc with
    | .wait st _ =>
      match st.prev with
      | some p => !((σ (peer s)).out p).success || !((σ (peer s)).out p).dirty
      | none => true
    | _ => true
  | (s, .inl (.copy f)) => calm σ s f
  | (s, .inl (.remove f)) => calm σ s f
  | _ => true

/-- The re-runs whose steps meet the condition. -/
def calmReruns (c : Cfg β) : LTS (Sys β) (ServerId × (Act β ⊕ Fault)) :=
  (reruns c).guard fun σ l => undisturbed σ l = true

/-! ## What a server keeps -/

/-- The current stage has passed the batches of `pre`: the files of its jobs
are those of these batches, and none that is wanted is missing. -/
structure Passed (c : Cfg β) (s : ServerId) (n : Node β) (st : Stage) (pre : List β) : Prop where
  made : ∀ f, f ∈ n.made ↔ f ∈ n.priv st ∧ f.batch ∈ pre
  wanted : ∀ b ∈ pre, Wanted c s st b → ∃ f ∈ n.made, f.batch = b

def RerunAt (c : Cfg β) (s : ServerId) (n : Node β) : Pc β → Prop
  | .loop st todo => ∃ pre, c.config = pre ++ todo ∧ Passed c s n st pre
  | .submit st b todo => Wanted c s st b ∧ ∃ pre, c.config = pre ++ b :: todo ∧ Passed c s n st pre
  | .mirror st => n.priv st ∈ n.outputs st
  | .marker st => (n.out st).files ∈ n.outputs st
  | _ => True

/-- The invariant of a server's own directories. -/
structure Kept (c : Cfg β) (s : ServerId) (n : Node β) : Prop where
  priv : ∀ t, ∀ f ∈ n.priv t, Wanted c s t f.batch
  out : ∀ t, ∀ f ∈ (n.out t).files, Wanted c s t f.batch
  outputs : ∀ t, ∀ O ∈ n.outputs t, (∀ f ∈ O, Wanted c s t f.batch) ∧
    ∀ b, Wanted c s t b → ∃ f ∈ O, f.batch = b
  marked : ∀ t, (n.out t).dirty = false → (n.out t).success = true →
    (n.out t).files ∈ n.outputs t
  atPc : RerunAt c s n n.pc

/-- What a server has read of the peer's directory, and what it has yet to
read, is one output `O` of the peer. -/
structure ReadsFrom (n m : Node β) (p : Stage) (O : Finset (File β)) : Prop where
  mem : O ∈ m.outputs p
  read : ∀ f ∈ n.read, f ∈ O
  rest : ∀ f ∈ O, f.batch ∈ n.pc.left ∨ f ∈ n.read
  left : ∀ f, f.batch ∈ n.pc.left → (f ∈ (m.out p).files ↔ f ∈ O)

def Reading (n m : Node β) : Prop :=
  ∀ st p, n.pc.readsIn = some st → st.prev = some p → ∃ O, ReadsFrom n m p O

section Own

variable {c : Cfg β} {s : ServerId} {n n' m : Node β} {a : Act β}

/-- In a batch that is left, the directory has what the output has. -/
theorem present_iff_wanted (hm : Kept c (peer s) m) (hr : Reading n m) {st : Stage} {b : β}
    (hst : n.pc.readsIn = some st) (hleft : b ∈ n.pc.left) (hb : b ∈ c.config) :
    present c s m.out st b = true ↔ Wanted c s st b := by
  cases hp : st.prev with
  | none =>
    rw [Stage.prev_eq_none hp]
    unfold Wanted
    exact decide_eq_true_iff.trans (iff_and_self.2 fun _ => hb)
  | some p =>
    obtain ⟨O, hO⟩ := hr st p hst hp
    obtain ⟨hwanted, hfull⟩ := hm.outputs p O hO.mem
    have horigin : Wanted c (peer s) p b ↔ Wanted c s st b := by
      unfold Wanted; rw [origin_prev s hp]
    rw [present_eq hp, visible_iff, ← horigin]
    constructor
    · intro h
      obtain ⟨f, hf, rfl⟩ := h
      exact hwanted f ((hO.left f hleft).1 hf)
    · intro h
      obtain ⟨f, hf, rfl⟩ := hfull b h
      exact ⟨f, (hO.left f hleft).2 hf, rfl⟩

omit [DecidableEq β] in
theorem Passed.skip {st : Stage} {pre : List β} {b : β} (h : Passed c s n st pre)
    (hpriv : ∀ f ∈ n.priv st, Wanted c s st f.batch) (hb : ¬ Wanted c s st b) :
    Passed c s n st (pre ++ [b]) where
  made f := by
    rw [h.made f, List.mem_append, List.mem_singleton]
    refine and_congr_right fun hf => ⟨.inl, fun hin => hin.resolve_right fun heq => ?_⟩
    exact hb (heq ▸ hpriv f hf)
  wanted b' hin hw := by
    rcases List.mem_append.1 hin with hin | hin
    · exact h.wanted b' hin hw
    · rw [List.mem_singleton.1 hin] at hw
      exact absurd hw hb

theorem Passed.write {st : Stage} {pre todo : List β} {b : β} (h : Passed c s n st pre) (k : ℕ)
    (peerOut : Stage → Shared β) : Passed c s (n.ran peerOut st b todo k) st (pre ++ [b]) where
  made f := by
    have hmade : (n.ran peerOut st b todo k).made = writeBatch n.made b (jobFiles b n.jobs k) := rfl
    rw [Node.ran_self, hmade, mem_writeBatch, mem_writeBatch, h.made f, List.mem_append,
      List.mem_singleton]
    have hnew : f ∈ jobFiles b n.jobs k → f.batch = b := jobFiles_batch
    by_cases hb : f.batch = b
    · simp [hb]
    · have hout : f ∉ jobFiles b n.jobs k := fun hf => hb (hnew hf)
      simp [hb, hout]
  wanted b' hin hw := by
    have hmade : (n.ran peerOut st b todo k).made = writeBatch n.made b (jobFiles b n.jobs k) := rfl
    rw [hmade]
    by_cases hb : b' = b
    · exact ⟨⟨b, .success⟩, mem_writeBatch.2 (.inr (Finset.mem_insert_self _ _)), hb.symm⟩
    · rcases List.mem_append.1 hin with hin | hin
      · obtain ⟨f, hf, rfl⟩ := h.wanted b' hin hw
        exact ⟨f, mem_writeBatch.2 (.inl ⟨hf, hb⟩), rfl⟩
      · exact absurd (List.mem_singleton.1 hin) hb

omit [DecidableEq β] in
/-- A loop that passed every batch has rewritten the whole private directory. -/
theorem Passed.complete {st : Stage} (h : Passed c s n st c.config)
    (hpriv : ∀ f ∈ n.priv st, Wanted c s st f.batch) : n.made = n.priv st := by
  ext f
  rw [h.made f]
  exact and_iff_left_of_imp fun hf => (hpriv f hf).1

omit [DecidableEq β] in
/-- Changing a mirrored directory. -/
theorem Kept.setOut (hn : Kept c s n) (st : Stage) {d : Shared β}
    (hfiles : ∀ f ∈ d.files, Wanted c s st f.batch)
    (hmarked : d.dirty = false → d.success = true → d.files ∈ n.outputs st) :
    (∀ t, ∀ f ∈ ((n.setOut st d).out t).files, Wanted c s t f.batch) ∧
      ∀ t, ((n.setOut st d).out t).dirty = false → ((n.setOut st d).out t).success = true →
        ((n.setOut st d).out t).files ∈ n.outputs t := by
  constructor
  · intro t f hf
    by_cases ht : t = st
    · rw [ht, Node.setOut_self] at hf
      rw [ht]; exact hfiles f hf
    · rw [Node.setOut_ne n ht] at hf
      exact hn.out t f hf
  · intro t hd hs
    by_cases ht : t = st
    · rw [ht, Node.setOut_self] at hd hs ⊢
      exact hmarked hd hs
    · rw [Node.setOut_ne n ht] at hd hs ⊢
      exact hn.marked t hd hs

theorem move_kept (hn : Kept c s n) (hm : Kept c (peer s) m) (hr : Reading n m)
    (h : Move c s n m.out a n') : Kept c s n' := by
  have hat := hn.atPc
  cases h with
  | pass hpc hready =>
    refine ⟨hn.priv, hn.out, hn.outputs, hn.marked, [], rfl, fun f => ?_, fun b hb => nomatch hb⟩
    simp
  | giveUp | retry | failed | noOutput | finish =>
    exact ⟨hn.priv, hn.out, hn.outputs, hn.marked, trivial⟩
  | @found st b todo hpc hp =>
    rw [hpc] at hat
    obtain ⟨pre, hcfg, hpassed⟩ := hat
    have hw := (present_iff_wanted hm hr (b := b) (by rw [hpc]; rfl)
      (by rw [hpc]; exact List.mem_cons_self) (by rw [hcfg]; simp)).1 hp
    exact ⟨hn.priv, hn.out, hn.outputs, hn.marked, hw, pre, hcfg, hpassed.made, hpassed.wanted⟩
  | @skip st b todo hpc hp =>
    rw [hpc] at hat
    obtain ⟨pre, hcfg, hpassed⟩ := hat
    have hw : ¬ Wanted c s st b := by
      rw [← present_iff_wanted hm hr (b := b) (by rw [hpc]; rfl)
        (by rw [hpc]; exact List.mem_cons_self) (by rw [hcfg]; simp), hp]
      exact Bool.false_ne_true
    have hskip := hpassed.skip (hn.priv st) hw
    exact ⟨hn.priv, hn.out, hn.outputs, hn.marked, pre ++ [b], by rw [hcfg]; simp, hskip.made,
      hskip.wanted⟩
  | @ran st b todo k hpc hi =>
    rw [hpc] at hat
    obtain ⟨hw, pre, hcfg, hpassed⟩ := hat
    refine ⟨fun t f hf => ?_, hn.out, hn.outputs, hn.marked, pre ++ [b], by rw [hcfg]; simp,
      hpassed.write k m.out⟩
    by_cases ht : t = st
    · rw [ht, Node.ran_self, mem_writeBatch] at hf
      rw [ht]
      rcases hf with hf | hf
      · exact hn.priv st f hf.1
      · rw [jobFiles_batch hf]; exact hw
    · rw [Node.ran_ne n m.out ht] at hf
      exact hn.priv t f hf
  | @startMirror st t hpc hnext hne =>
    rw [hpc] at hat
    obtain ⟨pre, hcfg, hpassed⟩ := hat
    rw [List.append_nil] at hcfg
    rw [← hcfg] at hpassed
    have hmade := hpassed.complete (hn.priv st)
    have hfull : (∀ f ∈ n.made, Wanted c s st f.batch) ∧
        ∀ b, Wanted c s st b → ∃ f ∈ n.made, f.batch = b :=
      ⟨fun f hf => hn.priv st f (hmade ▸ hf), fun b hw => hpassed.wanted b hw.1 hw⟩
    refine ⟨hn.priv, hn.out, fun u O hO => ?_, fun u hd hs => ?_, ?_⟩
    · by_cases hu : u = st
      · subst hu
        dsimp only at hO
        rw [Function.update_self] at hO
        rcases List.mem_cons.1 hO with rfl | hO
        · exact hfull
        · exact hn.outputs u O hO
      · dsimp only at hO
        rw [Function.update_of_ne hu] at hO
        exact hn.outputs u O hO
    · have hold := hn.marked u hd hs
      by_cases hu : u = st
      · subst hu
        dsimp only
        rw [Function.update_self]
        exact List.mem_cons_of_mem _ hold
      · dsimp only
        rw [Function.update_of_ne hu]
        exact hold
    · have hmem : n.priv st ∈ Function.update n.outputs st (n.made :: n.outputs st) st := by
        rw [Function.update_self, hmade]; exact List.mem_cons_self
      exact hmem
  | @copy st f hpc hf hf' =>
    rw [hpc] at hat
    obtain ⟨hout, hmarked⟩ := hn.setOut st
      (d := { n.out st with files := insert f (n.out st).files, dirty := true })
      (fun g hg => (Finset.mem_insert.1 hg).elim (fun heq => heq ▸ hn.priv st f hf) (hn.out st g))
      nofun
    exact ⟨hn.priv, hout, hn.outputs, hmarked, by rw [Node.setOut_pc, hpc]; exact hat⟩
  | @remove st f hpc hf hf' =>
    rw [hpc] at hat
    obtain ⟨hout, hmarked⟩ := hn.setOut st
      (d := { n.out st with files := (n.out st).files.erase f, dirty := true })
      (fun g hg => hn.out st g (Finset.mem_of_mem_erase hg)) nofun
    exact ⟨hn.priv, hout, hn.outputs, hmarked, by rw [Node.setOut_pc, hpc]; exact hat⟩
  | @removeMarker st hpc hmark =>
    rw [hpc] at hat
    obtain ⟨hout, hmarked⟩ := hn.setOut st
      (d := { n.out st with success := false, dirty := true }) (hn.out st) nofun
    exact ⟨hn.priv, hout, hn.outputs, hmarked, by rw [Node.setOut_pc, hpc]; exact hat⟩
  | @endMirror st hpc hf hmark =>
    rw [hpc] at hat
    refine ⟨hn.priv, hn.out, hn.outputs, hn.marked, ?_⟩
    have hmem : (n.out st).files ∈ n.outputs st := hf ▸ hat
    exact hmem
  | @mark st t hpc hnext =>
    rw [hpc] at hat
    obtain ⟨hout, hmarked⟩ := hn.setOut st
      (d := { n.out st with success := true, dirty := false }) (hn.out st) fun _ _ => hat
    exact ⟨hn.priv, hout, hn.outputs, hmarked, trivial⟩

theorem fault_kept (hn : Kept c s n) {x : Fault} (h : fault n x = some n') :
    Kept c s n' ∧ n'.out = n.out ∧ n'.outputs = n.outputs ∧ n'.pc.readsIn = none := by
  have hat := hn.atPc
  unfold fault at h
  cases x with
  | crash =>
    dsimp only at h
    split at h
    · cases h
    · cases h
      exact ⟨⟨hn.priv, hn.out, hn.outputs, hn.marked, trivial⟩, rfl, rfl, rfl⟩
  | jobDie k =>
    dsimp only at h
    split at h
    · rename_i st b todo hpc
      cases h
      rw [hpc] at hat
      refine ⟨⟨fun t f hf => ?_, hn.out, hn.outputs, hn.marked, trivial⟩, rfl, rfl, rfl⟩
      by_cases ht : t = st
      · subst ht
        dsimp only at hf
        rw [Function.update_self, mem_writeBatch] at hf
        rcases hf with hf | hf
        · exact hn.priv t f hf.1
        · rw [parts_batch hf]; exact hat.1
      · dsimp only at hf
        rw [Function.update_of_ne ht] at hf
        exact hn.priv t f hf
    · cases h
  | restart =>
    dsimp only at h
    split at h
    · cases h
      exact ⟨⟨hn.priv, hn.out, hn.outputs, hn.marked, trivial⟩, rfl, rfl, rfl⟩
    · cases h

/-! ## What a server has read -/

/-- A server's own step keeps what it has read within one output, if
`wait_for_data` only passes a finished mirror. -/
theorem move_reading (hm : Kept c (peer s) m) (hn : Kept c s n) (hr : Reading n m)
    (hcalm : a = .poll → ∀ st r p, n.pc = .wait st r → st.prev = some p →
      (m.out p).success = true → (m.out p).dirty = false) (h : Move c s n m.out a n') :
    Reading n' m := by
  have hat := hn.atPc
  intro st p hst hp
  cases h with
  | @pass st' r hpc hready =>
    cases hst
    rw [ready_eq hp] at hready
    refine ⟨(m.out p).files, hm.marked p (hcalm rfl _ _ p hpc hp hready) hready, nofun,
      fun f hf => ?_, fun f _ => Iff.rfl⟩
    exact .inl (hm.out p f hf).1
  | found hpc hpres =>
    unfold Reading at hr
    rw [hpc] at hr
    obtain ⟨O, hO⟩ := hr st p hst hp
    have hleft := hO.left
    have hrest := hO.rest
    rw [hpc] at hleft hrest
    exact ⟨O, hO.mem, hO.read, hrest, hleft⟩
  | @skip st' b todo hpc hpres =>
    cases hst
    obtain ⟨O, hO⟩ := hr st p (by rw [hpc]; rfl) hp
    have hleft := hO.left
    have hrest := hO.rest
    rw [hpc] at hleft hrest
    rw [present_eq hp, visible_false_iff] at hpres
    refine ⟨O, hO.mem, hO.read, fun f hf => ?_, fun f hf => hleft f (List.mem_cons_of_mem _ hf)⟩
    rcases hrest f hf with hin | hin
    · rcases List.mem_cons.1 hin with hb | hin
      · exact absurd hb (hpres f ((hleft f (hb ▸ List.mem_cons_self)).2 hf))
      · exact .inl hin
    · exact .inr hin
  | @ran st' b todo k hpc hi =>
    cases hst
    obtain ⟨O, hO⟩ := hr st p (by rw [hpc]; rfl) hp
    have hleft := hO.left
    have hrest := hO.rest
    rw [hpc] at hleft hrest
    have hread : (n.ran m.out st b todo k).read =
        n.read ∪ (m.out p).files.filter fun f => f.batch = b := by
      rw [← jobReads_eq hp]; rfl
    refine ⟨O, hO.mem, fun f hf => ?_, fun f hf => ?_, fun f hf =>
      hleft f (List.mem_cons_of_mem _ hf)⟩
    · rw [hread, Finset.mem_union, Finset.mem_filter] at hf
      rcases hf with hf | hf
      · exact hO.read f hf
      · exact (hleft f (hf.2 ▸ List.mem_cons_self)).1 hf.1
    · rw [hread, Finset.mem_union, Finset.mem_filter]
      rcases hrest f hf with hin | hin
      · rcases List.mem_cons.1 hin with hb | hin
        · exact .inr (.inr ⟨(hleft f (hb ▸ List.mem_cons_self)).2 hf, hb⟩)
        · exact .inl hin
      · exact .inr (.inl hin)
  | giveUp | retry | failed | finish | noOutput | startMirror | endMirror | mark => cases hst
  | copy hpc | remove hpc | removeMarker hpc => rw [Node.setOut_pc, hpc] at hst; cases hst

/-- The peer's step keeps it, if it changes no file of a batch that is left. -/
theorem Reading.peer {m' : Node β} (hr : Reading n m)
    (hout : ∀ p f, n.pc.reads p f.batch = true → (f ∈ (m'.out p).files ↔ f ∈ (m.out p).files))
    (houtputs : ∀ p, ∀ O ∈ m.outputs p, O ∈ m'.outputs p) : Reading n m' := by
  intro st p hst hp
  obtain ⟨O, hO⟩ := hr st p hst hp
  refine ⟨O, houtputs p O hO.mem, hO.read, hO.rest, fun f hf => ?_⟩
  have hreads : n.pc.reads p f.batch = true := by
    unfold Pc.reads
    rw [hst]
    simp [hp, hf]
  rw [hout p f hreads]
  exact hO.left f hf

/-- A mirror changes only the file of the step. -/
theorem move_files {peerOut : Stage → Shared β} (h : Move c s n peerOut a n') {p : Stage}
    {f : File β}
    (hf : ∀ st, n.pc = .mirror st → a = .copy f ∨ a = .remove f → p ≠ st) :
    f ∈ (n'.out p).files ↔ f ∈ (n.out p).files := by
  cases h with
  | pass | giveUp | retry | found | skip | ran | failed | finish | noOutput | startMirror |
    endMirror => exact Iff.rfl
  | @copy st g hpc hg hg' =>
    by_cases hp : p = st
    · have hne : f ≠ g := fun heq => hf st hpc (.inl (heq ▸ rfl)) hp
      rw [hp, Node.setOut_self, Finset.mem_insert]
      exact or_iff_right hne
    · rw [Node.setOut_ne n hp]
  | @remove st g hpc hg hg' =>
    by_cases hp : p = st
    · have hne : f ≠ g := fun heq => hf st hpc (.inr (heq ▸ rfl)) hp
      rw [hp, Node.setOut_self, Finset.mem_erase]
      exact and_iff_right hne
    · rw [Node.setOut_ne n hp]
  | @removeMarker st hpc hmark =>
    by_cases hp : p = st
    · rw [hp, Node.setOut_self]
    · rw [Node.setOut_ne n hp]
  | @mark st t hpc hnext =>
    dsimp only
    by_cases hp : p = st
    · rw [hp, Node.setOut_self]
    · rw [Node.setOut_ne n hp]

theorem move_outputs {peerOut : Stage → Shared β} (h : Move c s n peerOut a n') {p : Stage}
    {O : Finset (File β)} (hO : O ∈ n.outputs p) : O ∈ n'.outputs p := by
  cases h with
  | @startMirror st t hpc hnext hne =>
    dsimp only
    by_cases hp : p = st
    · subst hp
      rw [Function.update_self]
      exact List.mem_cons_of_mem _ hO
    · rw [Function.update_of_ne hp]; exact hO
  | pass | giveUp | retry | found | skip | ran | failed | finish | noOutput | copy | remove |
    removeMarker | endMirror | mark => exact hO

end Own

/-! ## Whole runs -/

section Runs

variable {c : Cfg β} {σ σ' : Sys β}

def RerunInv (c : Cfg β) (σ : Sys β) : Prop :=
  ∀ s, Kept c s (σ s) ∧ Reading (σ s) (σ (peer s))

omit [DecidableEq β] in
theorem rerunInv_init (c : Cfg β) : RerunInv c fun _ => Node.start := by
  intro s
  refine ⟨⟨fun t f hf => ?_, fun t f hf => ?_, fun t O hO => ?_, fun t hd hs => ?_, trivial⟩,
    fun st p hst => nomatch hst⟩
  · simp [Node.start] at hf
  · simp [Node.start, Shared.empty] at hf
  · simp [Node.start] at hO
  · simp [Node.start, Shared.empty] at hs

theorem undisturbed_poll {s : ServerId} (h : undisturbed σ (s, .inl .poll) = true) {st p : Stage}
    {r : ℕ} (hpc : (σ s).pc = .wait st r) (hp : st.prev = some p)
    (hs : ((σ (peer s)).out p).success = true) : ((σ (peer s)).out p).dirty = false := by
  unfold undisturbed at h
  simp only [hpc, hp, hs, Bool.not_true, Bool.false_or, Bool.not_eq_true'] at h
  exact h

theorem undisturbed_mirror {s : ServerId} {a : Act β} {f : File β}
    (h : undisturbed σ (s, .inl a) = true) (ha : a = .copy f ∨ a = .remove f) {st : Stage}
    (hpc : (σ s).pc = .mirror st) : (σ (peer s)).pc.reads st f.batch = false := by
  have hcalm : calm σ s f = true := by
    rcases ha with rfl | rfl
    · exact h
    · exact h
  unfold calm at hcalm
  rw [hpc] at hcalm
  exact Bool.not_eq_true' _ ▸ hcalm

theorem rerunInv_step (h : RerunInv c σ) {l : ServerId × (Act β ⊕ Fault)}
    (hs : stepAny c σ l = some σ') (hcalm : undisturbed σ l = true) : RerunInv c σ' := by
  obtain ⟨s, a | x⟩ := l
  · obtain ⟨hmove, hpeer⟩ := step_move (a := a) hs
    intro t
    rcases eq_or_peer s t with rfl | rfl
    · rw [hpeer]
      refine ⟨move_kept (h t).1 (h (peer t)).1 (h t).2 hmove,
        move_reading (h (peer t)).1 (h t).1 (h t).2 (fun ha st r p hpc hp hsuc => ?_) hmove⟩
      subst ha
      exact undisturbed_poll hcalm hpc hp hsuc
    · have hold := h (peer s)
      rw [peer_peer] at hold ⊢
      rw [hpeer]
      refine ⟨hold.1, hold.2.peer (fun p f hreads => ?_) fun p O hO => move_outputs hmove hO⟩
      refine move_files hmove fun st hpc ha heq => ?_
      rw [undisturbed_mirror hcalm ha (heq ▸ hpc)] at hreads
      cases hreads
  · obtain ⟨n, hn, rfl⟩ := Option.map_eq_some_iff.1 hs
    obtain ⟨hkept, hout, houtputs, hread⟩ := fault_kept (h s).1 hn
    intro t
    rcases eq_or_peer s t with rfl | rfl
    · rw [Function.update_self, Function.update_of_ne (peer_ne t)]
      exact ⟨hkept, fun st p hst => by rw [hread] at hst; cases hst⟩
    · have hold := h (peer s)
      rw [peer_peer] at hold
      rw [peer_peer, Function.update_self, Function.update_of_ne (peer_ne s)]
      exact ⟨hold.1, hold.2.peer (fun p f _ => by rw [hout]) fun p O hO => by
        rw [houtputs]; exact hO⟩

theorem rerunInv_reachable (h : (calmReruns c).Reachable σ) : RerunInv c σ := by
  refine LTS.Inductive.reachable (M := calmReruns c) (P := RerunInv c)
    ⟨fun τ hτ => ?_, fun τ l τ' hi hs => rerunInv_step hi hs.1 hs.2⟩ σ h
  have hstart : τ = fun _ => Node.start := hτ
  rw [hstart]
  exact rerunInv_init c

end Runs

end PrioProcessor.L4
