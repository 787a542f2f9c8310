import PrioProcessor.L4Bucket.SingleRun

/-!
# The bucket hand-off is safe and deadlock-free

One run of bin/process on each server, from empty private and shared buckets,
with the same raw batches at both servers. A stage that passes `wait_for_data`
reads the complete output of the peer's preceding stage, and nothing changes
this directory any more (`passed_complete`); no job and no mirror fails
(`not_aborted`); there is always a step until both servers have ended, every
step brings the end nearer, and the two servers never wait for each other.

The one way to stop early is to run out of polls: the servers have to come
online within the tolerances of the `RETRY_*` variables (docs/guide.md:473-477).
A server whose peer does not come online gives up (`gives_up`), and the peer
gives up after it if it starts later (`both_give_up`).
-/
namespace PrioProcessor.L4.HandOff

open L1 (ServerId)

variable {β : Type} [DecidableEq β] {c : Cfg β} {σ σ' : Sys β}

omit [DecidableEq β] in
theorem raw_same {c : Cfg β} (hraws : c.raw .A = c.raw .B) :
    ∀ b ∈ c.config, ∀ s t, b ∈ c.raw s → b ∈ c.raw t := by
  intro b _ s t hb
  cases s with
  | A => cases t with
    | A => exact hb
    | B => exact hraws ▸ hb
  | B => cases t with
    | A => exact hraws.symm ▸ hb
    | B => exact hb

/-- With the configured batches of both servers the same, a job has its
inputs. -/
theorem submit_inputs (h : Inv c σ) (hsame : ∀ b ∈ c.config, ∀ s t, b ∈ c.raw s → b ∈ c.raw t)
    {s : ServerId} {st : Stage} {b : β} {todo : List β} (hpc : (σ s).pc = .submit st b todo) :
    inputs c s (σ s) (σ (peer s)).out st b = true := by
  have hat := (h s).atPc
  have hread := (h s).reading
  rw [hpc] at hat hread
  obtain ⟨hin, -, hb, pre, hcfg, -⟩ := hat
  have hmem : b ∈ c.config := by rw [hcfg]; simp
  cases hp : st.prev with
  | none =>
    rw [Stage.prev_eq_none hp] at hb ⊢
    exact decide_eq_true hb
  | some p =>
    have hidx := Stage.idx_prev hp
    have hown : visible ((σ s).priv p) b = true :=
      ((hin.before p (by omega)).batches b).2 ⟨hmem, hsame b hmem _ _ hb⟩
    have hext : visible ((σ (peer s)).out p).files b = true :=
      (h.feeds s p (hread st p rfl hp) b).2 ⟨hmem, hsame b hmem _ _ hb⟩
    rw [inputs_eq hp, hown, hext]
    simp [hsame b hmem _ s hb]

/-- No run fails. -/
theorem not_aborted (hsame : ∀ b ∈ c.config, ∀ s t, b ∈ c.raw s → b ∈ c.raw t) (hc : Common c)
    (h : (process c).Reachable σ) (s : ServerId) : (σ s).pc ≠ .aborted := by
  refine (LTS.Inductive.reachable (P := fun σ => Inv c σ ∧ ∀ s, (σ s).pc ≠ .aborted)
    ⟨fun τ hτ => ?_, fun τ l τ' hτ hs => ?_⟩ σ h).2 s
  · have hstart : τ = fun _ => Node.start := hτ
    rw [hstart]
    exact ⟨inv_init c, fun _ => nofun⟩
  · obtain ⟨hinv, hne⟩ := hτ
    refine ⟨inv_step hinv hs, fun t => ?_⟩
    obtain ⟨s, a⟩ := l
    obtain ⟨hmove, hpeer⟩ := step_move hs
    rcases eq_or_peer s t with rfl | rfl
    · have hat := (hinv t).atPc
      generalize hn : τ' t = n' at hmove
      cases hmove with
      | failed k hpc hi =>
        rw [submit_inputs hinv hsame hpc] at hi; cases hi
      | noOutput hpc hnext he =>
        rw [hpc] at hat
        obtain ⟨-, -, pre, hcfg, hw⟩ := hat
        rw [List.append_nil] at hcfg
        exact absurd he (hc.written (hcfg ▸ hw))
      | pass | giveUp | retry | found | skip | ran | finish | startMirror | endMirror | mark =>
        exact nofun
      | copy hpc | remove hpc | removeMarker hpc => rw [Node.setOut_pc]; exact hne t
    · rw [hpeer]; exact hne (peer s)

/-- What a stage reads when `wait_for_data` lets it pass. -/
structure Complete (c : Cfg β) (σ : Sys β) (s : ServerId) (p : Stage) : Prop where
  /-- all files the peer produced in the preceding stage -/
  files : ((σ (peer s)).out p).files = (σ (peer s)).priv p
  batches : ∀ b, visible ((σ (peer s)).out p).files b = true ↔ b ∈ c.config ∧ b ∈ c.raw s
  /-- no later step changes the directory or the peer's output -/
  fixed : ∀ ls τ, (process c).Run σ ls τ →
    (τ (peer s)).out p = (σ (peer s)).out p ∧ (τ (peer s)).priv p = (σ (peer s)).priv p

theorem passed_complete (hsame : ∀ b ∈ c.config, ∀ s t, b ∈ c.raw s → b ∈ c.raw t)
    (h : (process c).Reachable σ) {s : ServerId} {st p : Stage} (hp : st.prev = some p)
    (hs : step c σ (s, .poll) = some σ') (hpc : (σ' s).pc = .loop st c.config) :
    Complete c σ' s p := by
  have hinv := inv_step (inv_reachable h) hs
  obtain ⟨hmove, hpeer⟩ := step_move hs
  have hsuccess : ((σ' (peer s)).out p).success = true :=
    (hinv s).reading st p (by rw [hpc]; rfl) hp
  refine ⟨((hinv (peer s)).sent p hsuccess).files, fun b => ?_, fun ls τ hr =>
    run_frame hinv hr hsuccess⟩
  rw [hinv.feeds s p hsuccess b]
  unfold Wanted
  refine and_congr_right fun hb => ?_
  exact ⟨hsame b hb _ _, hsame b hb _ _⟩

theorem published (hsame : ∀ b ∈ c.config, ∀ s t, b ∈ c.raw s → b ∈ c.raw t)
    (h : (process c).Reachable σ) {s : ServerId} (hpc : (σ s).pc = .done) (b : β) :
    visible ((σ s).priv .publish) b = true ↔ b ∈ c.config ∧ b ∈ c.raw s := by
  have hat := ((inv_reachable h) s).atPc
  rw [hpc] at hat
  rw [hat.2 b]
  exact and_congr_right fun hb => ⟨hsame b hb _ _, hsame b hb _ _⟩

/-- Every stage that passes `wait_for_data` reads the complete and final output
of the peer's preceding stage; no server fails, every step brings the end
nearer, there is a step until both servers have ended, and as long as none ran
out of polls one of a server that is not waiting in vain, so that both can
finish; and both publish exactly the configured raw batches. -/
theorem hand_off (c : Cfg β) (hraw : ∀ s, c.rawSuccess s = true) (hraws : c.raw .A = c.raw .B)
    (hc : Common c) :
    (∀ σ σ' s st p, (process c).Reachable σ → st.prev = some p →
      step c σ (s, .poll) = some σ' → (σ' s).pc = .loop st c.config → Complete c σ' s p) ∧
    ((∀ σ, (process c).Reachable σ → ∀ s, (σ s).pc ≠ .aborted) ∧
      (∀ σ l σ', step c σ l = some σ' → rank c σ' < rank c σ) ∧
      (∀ σ, (process c).Reachable σ → (∃ s, (σ s).pc ≠ .done ∧ (σ s).pc ≠ .gaveUp) →
        ∃ l σ', step c σ l = some σ' ∧
          ((∀ s, (σ s).pc ≠ .gaveUp) → ¬ Blocked c l.1 (σ l.1) (σ (peer l.1)).out)) ∧
      (∀ σ, (process c).Reachable σ → (∀ s, (σ s).pc ≠ .gaveUp) →
        ∃ ls τ, (process c).Run σ ls τ ∧ ∀ s, (τ s).pc = .done)) ∧
    (∀ σ, (process c).Reachable σ → (∀ s, (σ s).pc = .done) → ∀ s b,
      visible ((σ s).priv .publish) b = true ↔ b ∈ c.config ∧ b ∈ c.raw s) := by
  have hsame := raw_same hraws
  have hstop : ∀ σ, (process c).Reachable σ → (∀ s, (σ s).pc ≠ .gaveUp) →
      ∀ s, ¬ (σ s).pc.Stopped := by
    intro σ h hgave s hs
    rcases hs with hs | hs
    · exact hgave s hs
    · exact not_aborted hsame hc h s hs
  refine ⟨fun σ σ' s st p h hp hs hpc => passed_complete hsame h hp hs hpc,
    ⟨fun σ h s => not_aborted hsame hc h s, fun σ l σ' hs => step_rank hs, fun σ h hopen => ?_,
      fun σ h hgave => ?_⟩, fun σ h hdone s b => published hsame h (hdone s) b⟩
  · obtain ⟨s, hdone, hgave⟩ := hopen
    have hnot : ¬ (σ s).pc.Ended := by
      intro hend
      rcases hend with hend | hend | hend
      · exact hdone hend
      · exact hgave hend
      · exact not_aborted hsame hc h s hend
    obtain ⟨l, σ', hs, hfree⟩ := exists_step (inv_reachable h) hraw ⟨s, hnot⟩
    exact ⟨l, σ', hs, fun hg => hfree (hstop σ h hg)⟩
  · obtain ⟨ls, τ, hrun, -, hdone⟩ := runs_to_done hraw hc
      (fun τ hτ s st b todo hpc => submit_inputs (inv_reachable hτ) hsame hpc) h (hstop σ h hgave)
    exact ⟨ls, τ, hrun, hdone⟩

/-- Two configured batches, one of them in the raw shares. -/
def sampleCfg : Cfg String := ⟨["u", "v"], fun _ => {"u", "w"}, fun _ => true, 5⟩

theorem hand_off_sample : ∃ σ, (process sampleCfg).Reachable σ ∧
    ∀ s, (σ s).pc = .done ∧ ∀ b, visible ((σ s).priv .publish) b = true ↔
      b ∈ ["u", "v"] ∧ b ∈ ({"u", "w"} : Finset String) := by
  obtain ⟨-, ⟨-, -, -, hfinish⟩, hpublish⟩ :=
    hand_off sampleCfg (fun _ => rfl) rfl ⟨"u", by decide, fun s => by cases s <;> decide⟩
  have hinit : (process sampleCfg).Reachable fun _ => Node.start := LTS.reachable_init rfl
  obtain ⟨ls, τ, hrun, hdone⟩ := hfinish _ hinit fun _ => nofun
  exact ⟨τ, hinit.run hrun, fun s => ⟨hdone s, hpublish τ (hinit.run hrun) hdone s⟩⟩

/-! ## Out of polls -/

/-- The server has not gone past `wait_for_data` of a stage. -/
def UpTo (st : Stage) (n : Node β) : Prop :=
  match n.pc with
  | .wait t _ => t.idx ≤ st.idx
  | .loop t _ => t.idx < st.idx
  | .submit t _ _ => t.idx < st.idx
  | .mirror t => t.idx < st.idx
  | .marker t => t.idx < st.idx
  | .gaveUp => (n.out st).success = false
  | .done => False
  | .aborted => False

section OutOfPolls

variable {s : ServerId} {n n' : Node β} {peerOut : Stage → Shared β} {a : Act β} {st p : Stage}

theorem move_upTo (hn : Good c s n peerOut) (h : UpTo st n) (hr : ready c s peerOut st = false)
    (hmove : Move c s n peerOut a n') (hne : n'.pc ≠ .aborted) : UpTo st n' := by
  have hat := hn.atPc
  unfold UpTo at h
  cases hmove with
  | @pass t r hpc hready =>
    rw [hpc] at h
    refine Nat.lt_of_le_of_ne h fun heq => ?_
    rw [Stage.idx_inj heq, hr] at hready
    cases hready
  | @giveUp t r hpc hready hlt =>
    rw [hpc] at h hat
    refine Bool.eq_false_iff.2 fun hsent => ?_
    exact Nat.not_lt.2 h (hat.1.sent_iff.1 hsent)
  | retry hpc | found hpc | skip hpc | ran k hpc | startMirror hpc | endMirror hpc =>
    rw [hpc] at h
    exact h
  | failed | noOutput => exact absurd rfl hne
  | @finish t hpc hnext =>
    rw [hpc, Stage.next_eq_none hnext] at h
    exact absurd h (Nat.not_lt.2 (Stage.idx_le st))
  | copy hpc | remove hpc | removeMarker hpc =>
    unfold UpTo
    rw [hpc] at h
    rw [Node.setOut_pc, hpc]
    exact h
  | @mark t u hpc hnext =>
    rw [hpc] at h
    have hidx := Stage.idx_next hnext
    exact hidx.trans_le h

/-- A server whose peer takes no step and has not sent what it needs runs out of
polls. -/
theorem gives_up (hsame : ∀ b ∈ c.config, ∀ s t, b ∈ c.raw s → b ∈ c.raw t) (hc : Common c)
    (h : (process c).Reachable σ) (hp : st.prev = some p)
    (hunsent : ((σ (peer s)).out p).success = false) (hup : UpTo st (σ s)) :
    ∃ ls τ, (process c).Run σ ls τ ∧ (τ s).pc = .gaveUp ∧ ((τ s).out st).success = false ∧
      τ (peer s) = σ (peer s) := by
  have hprogress : ∀ τ, ((process c).Reachable τ ∧ UpTo st (τ s) ∧ τ (peer s) = σ (peer s)) →
      (τ s).pc ≠ .gaveUp → ∃ l τ', (process c).step τ l τ' ∧
        ((process c).Reachable τ' ∧ UpTo st (τ' s) ∧ τ' (peer s) = σ (peer s)) ∧
        rank c τ' < rank c τ := by
    intro τ hτ hopen
    obtain ⟨hreach, hup, hpeer⟩ := hτ
    have hgood := inv_reachable hreach s
    have hmove : ∃ a n', Move c s (τ s) (τ (peer s)).out a n' := by
      rcases exists_move (τ (peer s)).out hgood.atPc with hend | hb | ⟨a, n', hmove, -⟩
      · unfold UpTo at hup
        rcases hend with hpc | hpc | hpc
        · rw [hpc] at hup
          exact hup.elim
        · exact absurd hpc hopen
        · rw [hpc] at hup
          exact hup.elim
      · exact ⟨.poll, hb.exists_poll⟩
      · exact ⟨a, n', hmove⟩
    obtain ⟨a, n', hmove⟩ := hmove
    have hstep : (process c).step τ (s, a) _ := move_step hmove
    obtain ⟨hmove, hstay⟩ := step_move hstep
    have hready : ready c s (τ (peer s)).out st = false := by
      rw [ready_eq hp, hpeer]; exact hunsent
    exact ⟨(s, a), _, hstep, ⟨hreach.step hstep, move_upTo hgood hup hready hmove
      (not_aborted hsame hc (hreach.step hstep) s), hstay.trans hpeer⟩, step_rank hstep⟩
  obtain ⟨ls, τ, hrun, ⟨-, hup, hpeer⟩, hgave⟩ :=
    LTS.reaches_goal (rank c) _ (fun τ => (τ s).pc = .gaveUp) hprogress σ ⟨h, hup, rfl⟩
  unfold UpTo at hup
  rw [hgave] at hup
  exact ⟨ls, τ, hrun, hgave, hup, hpeer⟩

end OutOfPolls

/-- For every configuration there is a run after which both servers are out of
polls: server A ends before server B starts, and B waits for what A did not
send. -/
theorem both_give_up (hraws : c.raw .A = c.raw .B) (hc : Common c) :
    ∃ σ, (process c).Reachable σ ∧ ∀ s, (σ s).pc = .gaveUp := by
  have hsame := raw_same hraws
  have hinit : (process c).Reachable fun _ => Node.start := LTS.reachable_init rfl
  have hnext : Stage.prev .verify2 = some .verify1 := rfl
  obtain ⟨ls, σ, hrun, hA, hunsent, hB⟩ := gives_up (s := .A) hsame hc hinit hnext rfl
    (show UpTo .verify2 Node.start from Nat.zero_le 1)
  have hσ := hinit.run hrun
  have hstart : UpTo .aggregate (σ .B) := by
    rw [show σ .B = Node.start from hB]
    exact Nat.zero_le 2
  have hnext : Stage.prev .aggregate = some .verify2 := rfl
  obtain ⟨ls', τ, hrun', hB', -, hA'⟩ := gives_up (s := .B) hsame hc hσ hnext hunsent hstart
  refine ⟨τ, hσ.run hrun', fun s => ?_⟩
  cases s with
  | A => exact (congrArg Node.pc hA').trans hA
  | B => exact hB'

end PrioProcessor.L4.HandOff
