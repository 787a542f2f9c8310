import PrioProcessor.L4Bucket.Timed

/-!
# How patient wait_for_data has to be

The runs of `Timed`. If for each of the three hand-offs the polls span more
than the time by which the servers can have drifted apart (`Patient`), no
server gives up, and both have published by `deadline` (`in_time`).

The first of the three bounds is sharp: with polls that span no more than the
time the peer may need to start, to poll and to run verify1, some run ends in
`wait_for_data` (`impatient`).
-/
namespace PrioProcessor.L4.Patience

open L1 (ServerId)
open Timed

variable {β : Type} [DecidableEq β] {c : Cfg β} {P : Times} {κ κ' : State β}

/-- The polls of every hand-off span more than the drift of the servers. -/
structure Patient (c : Cfg β) (P : Times) : Prop extends Valid c P where
  enough : ∀ k < 3, window P k < Backoff.time P.delay P.exponent c.retryLimit

omit [DecidableEq β] in
/-- Sleeps of one length, as in docs/guide.md:138-140. -/
theorem patient_of_constant (hexponent : P.exponent = 1) (hfits : P.delay < 2 ^ 63)
    (hstart : P.skew + P.lag + P.work < c.retryLimit * P.delay)
    (hnext : P.delay + P.lag + P.work < c.retryLimit * P.delay) : Patient c P where
  exponent := hexponent ▸ Nat.le_refl 1
  fits := by rw [hexponent, Nat.one_pow, Nat.mul_one]; exact hfits
  enough k _ := by
    unfold window
    rw [hexponent, Backoff.time_one]
    exact lt_of_le_of_lt (Backoff.window_one_le _ _ _ _ _) (max_lt hstart hnext)

/-- The raw shares are ready, with the same batches at both servers, one of
them in the configuration. -/
structure Ingested (c : Cfg β) : Prop where
  success : ∀ s, c.rawSuccess s = true
  same : c.raw .A = c.raw .B
  common : Common c

/-- What holds in every state of a run. -/
structure Sound (c : Cfg β) (P : Times) (κ : State β) : Prop where
  reach : (process c).Reachable κ.sys
  stop : ∀ s, ¬ (κ.sys s).pc.Stopped
  clocks : OnTime c P κ
  inTime : InTime P κ

theorem Sound.inv (h : Sound c P κ) : Inv c κ.sys := inv_reachable h.reach

theorem Sound.ready_iff (h : Sound c P κ) (hc : Ingested c) (s : ServerId) {st : Stage} :
    ready c s (κ.sys (peer s)).out st = true ↔ st.idx ≤ place κ (peer s) :=
  Timed.ready_iff h.inv (hc.success s) (h.stop (peer s))

/-- A server that was waiting for its last poll finds the marker. -/
theorem Sound.found (h : Sound c P κ) (hp : Patient c P) {s : ServerId} {st : Stage} {r : ℕ}
    (hpc : (κ.sys s).pc = .wait st r) (hawake : (κ.clock s).wake ≤ κ.now)
    (hr : c.retryLimit < r + 1) : st.idx ≤ place κ (peer s) := by
  by_contra hready
  have hplace := place_waiting hpc
  have hlead := h.clocks.lead s
  obtain ⟨k, hk⟩ : ∃ k, st.idx = k + 1 := Nat.exists_eq_succ_of_ne_zero (by omega)
  have hpeer : place κ (peer s) = k := by omega
  have hidx := st.idx_le
  have hopen : ¬ (κ.sys (peer s)).pc.Ended := by
    rintro (hend | hend)
    · have hdone : place κ (peer s) = 3 := by unfold place; rw [hend]; rfl
      omega
    · exact h.stop (peer s) hend
  have hahead := ahead h.clocks h.inTime hopen (by omega) hpeer
  have hw := h.clocks.wait s st r k hpc hk
  have hpolls := hw.polls
  have hspan := Backoff.time_mono P.delay P.exponent (show c.retryLimit ≤ r by omega)
  have henough := hp.enough k (by omega)
  omega

/-- A step of a server keeps both on time, and it does not give up. -/
theorem Sound.act (h : Sound c P κ) (hp : Patient c P) (hc : Ingested c) {s : ServerId} {a : Act β}
    (hawake : asleep κ s a = false) (hst : Steps κ κ' s)
    (hmove : Move c s (κ.sys s) (κ.sys (peer s)).out a (κ'.sys s))
    (hclock : κ'.clock s = (κ.clock s).after P κ.now a (κ'.sys s).pc)
    (hne : (κ'.sys s).pc ≠ .aborted) : (κ'.sys s).pc ≠ .gaveUp ∧ OnTime c P κ' := by
  by_cases hpoll : a = .poll
  · subst hpoll
    have hawake : (κ.clock s).wake ≤ κ.now := by simpa [asleep] using hawake
    generalize hn : κ'.sys s = n' at hmove hclock
    cases hmove with
    | pass hpc hr =>
      have hready := (h.ready_iff hc s).1 hr
      exact ⟨by simp, h.clocks.pass h.inTime hst hpc hready (by rw [hn]) hclock⟩
    | giveUp hpc hr hlt =>
      rw [(h.ready_iff hc s).2 (h.found hp hpc hawake hlt)] at hr
      cases hr
    | @retry st r hpc hr hle =>
      have hready : ¬ st.idx ≤ place κ (peer s) := fun hready => by
        rw [(h.ready_iff hc s).2 hready] at hr
        cases hr
      exact ⟨by simp, h.clocks.retry hp.toValid hst hpc hawake hready hle (by rw [hn]) hclock⟩
  by_cases hmark : a = .cpMarker
  · subst hmark
    generalize hn : κ'.sys s = n' at hmove hclock
    cases hmove with
    | mark hpc hnext =>
      exact ⟨by simp, h.clocks.mark h.inTime hst hpc hnext (by rw [hn]) hclock⟩
  · obtain ⟨hold, hplace, hnew⟩ := move_stage hmove hpoll hmark hne
    rw [after_other hpoll hmark] at hclock
    refine ⟨fun hgave => ?_, h.clocks.stay ⟨hst, hplace, by rw [hclock]⟩ hclock hold hnew⟩
    rw [hgave] at hnew
    rcases hnew with hnew | hnew <;> cases hnew

theorem Sound.step (h : Sound c P κ) (hp : Patient c P) (hc : Ingested c) {l : Lbl β}
    (hs : Timed.step c P κ l = some κ') (ht : InTime P κ') : Sound c P κ' := by
  cases l with
  | tick =>
    cases hs
    exact ⟨h.reach, h.stop, h.clocks.tick, ht⟩
  | act s a =>
    obtain ⟨hawake, hstep, hst, hmove, hclock⟩ := step_act hs
    have hreach := h.reach.step hstep
    have hnever : ∀ t, (κ'.sys t).pc ≠ .aborted :=
      HandOff.not_aborted (HandOff.raw_same hc.same) hc.common hreach
    obtain ⟨hgave, hclocks⟩ := h.act hp hc hawake hst hmove hclock (hnever s)
    refine ⟨hreach, fun t hend => ?_, hclocks, ht⟩
    rcases hend with hend | hend
    · rcases eq_or_peer s t with rfl | rfl
      · exact hgave hend
      · rw [hst.peerSys] at hend; exact h.stop _ (.inl hend)
    · exact hnever t hend

theorem Sound.start (h : Starts P κ) : Sound c P κ where
  reach := LTS.reachable_init (show (process c).init κ.sys from h.sys)
  stop s := by
    rw [h.sys]
    rintro (hend | hend) <;> cases hend
  clocks := .start h
  inTime := h.inTime

theorem sound_reachable (hp : Patient c P) (hc : Ingested c) (h : (timed c P).Reachable κ) :
    Sound c P κ := by
  refine LTS.Inductive.reachable (P := Sound c P) ⟨fun κ hκ => ?_, fun κ l κ' hκ hs => ?_⟩ κ h
  · exact .start hκ
  · exact hκ.step hp hc hs.1 hs.2

/-! ## When the runs are over -/

omit [DecidableEq β] in
theorem deadline_mono (P : Times) {k l : ℕ} (h : k ≤ l) : deadline P k ≤ deadline P l := by
  induction h with
  | refl => exact Nat.le_refl _
  | step _ ih => exact Nat.le_trans ih (Nat.le_add_right _ _)

omit [DecidableEq β] in
theorem place_le (κ : State β) (s : ServerId) : place κ s ≤ 3 := by
  unfold place
  cases (κ.sys s).pc with
  | wait st | loop st | submit st | mirror st | marker st => exact st.idx_le
  | done => exact Nat.le_refl 3
  | gaveUp | aborted => exact Nat.zero_le 3

/-- A server that is not ahead of its peer is through by the deadline. -/
theorem Sound.ended (h : Sound c P κ) (hnow : deadline P 4 < κ.now) {s : ServerId}
    (hs : place κ s ≤ place κ (peer s)) : (κ.sys s).pc = .done := by
  by_contra hdone
  have hopen : ¬ (κ.sys s).pc.Ended := by
    rintro (hend | hend)
    · exact hdone hend
    · exact h.stop s hend
  have hdue := due h.clocks h.inTime hopen hs
  have hboth := h.clocks.both_early (Nat.le_refl (place κ s)) hs
  have hlast := deadline_mono P (Nat.succ_le_succ (place_le κ s))
  change deadline P (place κ s) + window P (place κ s) ≤ deadline P 4 at hlast
  omega

theorem Sound.done (h : Sound c P κ) (hnow : deadline P 4 < κ.now) (s : ServerId) :
    (κ.sys s).pc = .done := by
  by_cases hs : place κ s ≤ place κ (peer s)
  · exact h.ended hnow hs
  · -- the peer is behind, so it is done, and nothing is ahead of that
    have hpeer : (κ.sys (peer s)).pc = .done := h.ended hnow (by rw [peer_peer]; omega)
    have hplace : place κ (peer s) = 3 := by unfold place; rw [hpeer]; rfl
    have hle := place_le κ s
    omega

/-! ## Time goes on -/

/-- In a state in which no time can pass, some server can move. -/
theorem Sound.move (h : Sound c P κ) (hlate : ¬ InTime P { κ with now := κ.now + 1 }) :
    ∃ s a κ', Timed.step c P κ (.act s a) = some κ' := by
  by_contra hno
  have hstuck : ∀ s a n, asleep κ s a = false → ¬ Move c s (κ.sys s) (κ.sys (peer s)).out a n := by
    intro s a n hawake hmove
    obtain ⟨κ', hs⟩ := act_step (P := P) hawake hmove
    exact hno ⟨s, a, κ', hs⟩
  refine hlate ⟨fun s st r hpc => ?_, fun s hw => ?_⟩
  · by_contra hover
    change ¬ κ.now + 1 ≤ (κ.clock s).wake + P.lag at hover
    have hawake : asleep κ s (.poll : Act β) = false := decide_eq_false (by omega)
    cases hr : L4.ready c s (κ.sys (peer s)).out st with
    | true => exact hstuck s .poll _ hawake (.pass hpc hr)
    | false =>
      by_cases hlimit : c.retryLimit < r + 1
      · exact hstuck s .poll _ hawake (.giveUp hpc hr hlimit)
      · exact hstuck s .poll _ hawake (.retry hpc hr (by omega))
  · change working (κ.sys s).pc = true at hw
    rcases exists_move (κ.sys (peer s)).out (h.inv s).atPc with hend | hb | hmove
    · rcases hend with hend | hend | hend <;> rw [hend] at hw <;> cases hw
    · obtain ⟨st, r, hpc, -⟩ := hb
      rw [hpc] at hw
      cases hw
    · obtain ⟨a, n, hmove, -⟩ := hmove
      refine absurd hmove (hstuck s a n ?_)
      cases hmove with
      | pass hpc | giveUp hpc | retry hpc => rw [hpc] at hw; cases hw
      | _ => rfl

/-- From every state some run reaches any time. -/
theorem Sound.time_goes_on (h : Sound c P κ) (hp : Patient c P) (hc : Ingested c) (m : ℕ) :
    ∃ ls κ', (timed c P).Run κ ls κ' ∧ m ≤ κ'.now := by
  have hprogress : ∀ κ, Sound c P κ → ¬ m ≤ κ.now → ∃ l κ', (timed c P).step κ l κ' ∧
      Sound c P κ' ∧ toLex (m - κ'.now, rank c κ'.sys) < toLex (m - κ.now, rank c κ.sys) := by
    intro κ hκ hm
    by_cases htick : InTime P { κ with now := κ.now + 1 }
    · have hs : Timed.step c P κ .tick = some { κ with now := κ.now + 1 } := rfl
      refine ⟨.tick, _, ⟨hs, htick⟩, hκ.step hp hc hs htick, ?_⟩
      refine Prod.Lex.toLex_lt_toLex.2 (.inl ?_)
      show m - (κ.now + 1) < m - κ.now
      omega
    · obtain ⟨s, a, κ', hs⟩ := hκ.move htick
      obtain ⟨-, hstep, hst, -⟩ := step_act hs
      have ht := hκ.inTime.act hs
      refine ⟨.act s a, κ', ⟨hs, ht⟩, hκ.step hp hc hs ht, ?_⟩
      rw [hst.nowEq]
      exact Prod.Lex.toLex_lt_toLex.2 (.inr ⟨rfl, step_rank hstep⟩)
  obtain ⟨ls, κ', hrun, -, hm⟩ := LTS.reaches_goal _ _ (fun κ => m ≤ κ.now) hprogress κ h
  exact ⟨ls, κ', hrun, hm⟩

/-- With polls that span more than the drift of the servers no server gives up
or fails, both have published their batches by `deadline`, and time goes on
until then. -/
theorem in_time (c : Cfg β) (P : Times) (hp : Patient c P) (hc : Ingested c) (κ : State β)
    (h : (timed c P).Reachable κ) :
    (∀ s, ¬ (κ.sys s).pc.Stopped) ∧
    (deadline P 4 < κ.now → ∀ s, (κ.sys s).pc = .done ∧
      ∀ b, visible ((κ.sys s).priv .publish) b = true ↔ b ∈ c.config ∧ b ∈ c.raw s) ∧
    ∀ m, ∃ ls κ', (timed c P).Run κ ls κ' ∧ m ≤ κ'.now := by
  have hκ := sound_reachable hp hc h
  refine ⟨hκ.stop, fun hnow s => ?_, hκ.time_goes_on hp hc⟩
  have hdone := hκ.done hnow s
  exact ⟨hdone, HandOff.published (HandOff.raw_same hc.same) hκ.reach hdone⟩

namespace Sample

/-- The retries of docs/guide.md, with servers that start within five minutes
and stages that take ten. -/
def times : Times := ⟨10, 1, 300, 1, 590⟩

def cfg : Cfg String := { HandOff.sampleCfg with retryLimit := 90 }

theorem cfg_ingested : Ingested cfg :=
  ⟨fun _ => rfl, rfl, "u", by decide, fun s => by cases s <;> decide⟩

theorem in_time_sample : ∃ κ, (timed cfg times).Reachable κ ∧ ∀ s, (κ.sys s).pc = .done ∧
    ∀ b, visible ((κ.sys s).priv .publish) b = true ↔ b ∈ cfg.config ∧ b ∈ cfg.raw s := by
  have hp : Patient cfg times := patient_of_constant rfl (by decide) (by decide) (by decide)
  have hstart : (timed cfg times).Reachable ⟨fun _ => Node.start, 0, fun _ =>
      ⟨0, .ofNat times.delay, 0, 0, fun _ => 0⟩⟩ :=
    LTS.reachable_init (show Starts times _ from ⟨rfl, rfl, fun s => ⟨0, Nat.zero_le _, rfl⟩⟩)
  obtain ⟨-, -, hlater⟩ := in_time cfg times hp cfg_ingested _ hstart
  obtain ⟨ls, κ, hrun, hnow⟩ := hlater (deadline times 4 + 1)
  have hκ := hstart.run hrun
  exact ⟨κ, hκ, (in_time cfg times hp cfg_ingested κ hκ).2.1 hnow⟩

end Sample

/-! ## The first bound is sharp -/

/-- Server A waits for the first marker of B: it is on its way to verify2, in
no time, or polls there as early as it can. -/
inductive Ahead (c : Cfg β) (P : Times) (κ : State β) : Prop
  | first : κ.now = 0 → (κ.clock .A).wake = 0 → place κ .A = 0 → ¬ (κ.sys .A).pc.Ended →
      Ahead c P κ
  | polls (r : ℕ) : (κ.sys .A).pc = .wait .verify2 r → r ≤ c.retryLimit →
      (κ.clock .A).backoff = .ofNat (P.delay * P.exponent ^ r) →
      (κ.clock .A).wake = Backoff.time P.delay P.exponent r → κ.now ≤ (κ.clock .A).wake →
      Ahead c P κ

/-- Server B starts, polls and runs verify1 as late as it can. -/
inductive Behind (c : Cfg β) (P : Times) (κ : State β) : Prop
  | starts : (κ.sys .B).pc = .wait .verify1 0 → (κ.clock .B).wake = P.skew → Behind c P κ
  | works : (κ.sys .B).pc = .loop .verify1 c.config → (κ.clock .B).passed = P.skew + P.lag →
      Behind c P κ

structure Stalls (c : Cfg β) (P : Times) (κ : State β) : Prop where
  reach : (timed c P).Reachable κ
  inTime : InTime P κ
  ahead : (κ.sys .A).pc = .gaveUp ∨ Ahead c P κ
  behind : Behind c P κ

omit [DecidableEq β] in
theorem Behind.congr (h : Behind c P κ) (hst : Steps κ κ' .A) : Behind c P κ' := by
  have hsys : κ'.sys .B = κ.sys .B := hst.peerSys
  have hclock : κ'.clock .B = κ.clock .B := hst.peerClock
  cases h with
  | starts hpc hwake => exact .starts (by rw [hsys, hpc]) (by rw [hclock, hwake])
  | works hpc hpassed => exact .works (by rw [hsys, hpc]) (by rw [hclock, hpassed])

theorem Stalls.inv (h : Stalls c P κ) : Inv c κ.sys := inv_reachable (process_reachable h.reach)

/-- The marker of verify1 is not there. -/
theorem Stalls.unready (h : Stalls c P κ) (hc : Ingested c) :
    ready c .A (κ.sys .B).out .verify2 = false := by
  have hplace : place κ .B = 0 ∧ ¬ (κ.sys .B).pc.Stopped := by
    unfold place
    cases h.behind with
    | starts hpc | works hpc =>
      rw [hpc]
      refine ⟨rfl, ?_⟩
      rintro (hend | hend) <;> cases hend
  have hready : ready c .A (κ.sys .B).out .verify2 = true ↔ 1 ≤ place κ .B :=
    ready_iff h.inv (hc.success .A) hplace.2
  rw [Bool.eq_false_iff]
  intro htrue
  have hle : 1 ≤ place κ .B := hready.1 htrue
  omega

/-- Server A comes to the wait of verify2 in no time. -/
theorem Ahead.move (hreach : (process c).Reachable κ.sys) (hc : Ingested c) (hnow : κ.now = 0)
    (hwake : (κ.clock .A).wake = 0) (hplace : place κ .A = 0) (hopen : ¬ (κ.sys .A).pc.Ended) :
    ∃ a κ', Timed.step c P κ (.act .A a) = some κ' ∧ Ahead c P κ' := by
  have hready : ¬ Blocked c .A (κ.sys .A) (κ.sys (peer .A)).out := by
    intro hb
    obtain ⟨st, r, hpc, hr⟩ := hb
    rw [place_waiting hpc] at hplace
    obtain rfl : st = .verify1 := Stage.idx_inj hplace
    exact absurd ((hc.success .A).symm.trans hr) (by decide)
  obtain ⟨a, n, hmove, -⟩ :=
    ((exists_move _ (inv_reachable hreach .A).atPc).resolve_left hopen).resolve_left hready
  have hawake : asleep κ .A a = false := by
    cases a with
    | poll => exact decide_eq_false (by omega)
    | _ => rfl
  obtain ⟨κ', hs⟩ := act_step (P := P) hawake hmove
  obtain ⟨-, hstep, hst, hmove, hclock⟩ := step_act hs
  refine ⟨a, κ', hs, ?_⟩
  have hnever : (κ'.sys .A).pc ≠ .aborted :=
    HandOff.not_aborted (HandOff.raw_same hc.same) hc.common (hreach.step hstep) .A
  have hnow' : κ'.now = 0 := by rw [hst.nowEq, hnow]
  by_cases hpoll : a = .poll
  · subst hpoll
    generalize hn : κ'.sys .A = n' at hmove hclock
    cases hmove with
    | pass hpc hr =>
      rw [place_waiting hpc] at hplace
      refine .first hnow' (by rw [hclock]; exact hwake) (by unfold place; rw [hn]; exact hplace) ?_
      rw [hn]
      rintro (hend | hend | hend) <;> cases hend
    | giveUp hpc hr | retry hpc hr => exact absurd ⟨_, _, hpc, hr⟩ hready
  by_cases hmark : a = .cpMarker
  · subst hmark
    generalize hn : κ'.sys .A = n' at hmove hclock
    cases hmove with
    | @mark st t hpc hnext =>
      unfold place at hplace
      rw [hpc] at hplace
      obtain rfl : st = .verify1 := Stage.idx_inj hplace
      cases hnext
      refine .polls 0 (by rw [hn]) (Nat.zero_le _) ?_ ?_ ?_
      · rw [hclock, Nat.pow_zero, Nat.mul_one]; rfl
      · rw [hclock]; exact hnow
      · rw [hnow']; exact Nat.zero_le _
  · obtain ⟨-, hold, hnew⟩ := move_stage hmove hpoll hmark hnever
    rw [after_other hpoll hmark] at hclock
    have hplace' : place κ' .A = 0 := hold.trans hplace
    refine .first hnow' (by rw [hclock]; exact hwake) hplace' fun hend => ?_
    rcases hend with hend | hend | hend
    · have hdone : place κ' .A = 3 := by unfold place; rw [hend]; rfl
      omega
    · rw [hend] at hnew
      rcases hnew with hnew | hnew <;> cases hnew
    · exact hnever hend

/-- Server A polls again, or gives up. -/
theorem Ahead.poll (hv : Valid c P) {r : ℕ} (hpc : (κ.sys .A).pc = .wait .verify2 r)
    (hr : r ≤ c.retryLimit) (hbackoff : (κ.clock .A).backoff = .ofNat (P.delay * P.exponent ^ r))
    (hwake : (κ.clock .A).wake = Backoff.time P.delay P.exponent r)
    (hnow : κ.now = (κ.clock .A).wake)
    (hready : ready c .A (κ.sys .B).out .verify2 = false) :
    ∃ κ', Timed.step c P κ (.act .A .poll) = some κ' ∧
      ((κ'.sys .A).pc = .gaveUp ∨ Ahead c P κ') := by
  have hmove : ∃ n, Move c .A (κ.sys .A) (κ.sys (peer .A)).out .poll n := by
    by_cases hlimit : c.retryLimit < r + 1
    · exact ⟨_, .giveUp hpc hready hlimit⟩
    · exact ⟨_, .retry hpc hready (by omega)⟩
  obtain ⟨n, hmove⟩ := hmove
  have hawake : asleep κ .A (.poll : Act β) = false := decide_eq_false (by omega)
  obtain ⟨κ', hs⟩ := act_step (P := P) hawake hmove
  obtain ⟨-, -, hst, hmove, hclock⟩ := step_act hs
  refine ⟨κ', hs, ?_⟩
  generalize hn : κ'.sys .A = n' at hmove hclock
  cases hmove with
  | pass hpc' hr' =>
    cases hpc.symm.trans hpc'
    exact absurd (hready.symm.trans hr') (by decide)
  | giveUp => exact .inl rfl
  | retry hpc' _ hle =>
    cases hpc.symm.trans hpc'
    right
    obtain ⟨hwake', hbackoff'⟩ := hv.sleep hr hbackoff κ.now
    change κ'.clock .A = (κ.clock .A).sleep P κ.now at hclock
    refine .polls (r + 1) (by rw [hn]) hle (by rw [hclock, hbackoff']) ?_ ?_
    · rw [hclock, hwake', hnow, hwake]; rfl
    · rw [hclock, hwake', hst.nowEq]
      exact Nat.le_add_right _ _

/-- Server B starts to work when it can wait no longer. -/
theorem Behind.move (hc : Ingested c) (ht : InTime P κ) (h : Behind c P κ)
    (hshort : κ.now < P.skew + P.lag + P.work)
    (hlate : ¬ InTime P { κ with now := κ.now + 1 })
    (hA : ∀ st r, (κ.sys .A).pc = .wait st r → κ.now < (κ.clock .A).wake)
    (hA' : working (κ.sys .A).pc = false) :
    ∃ κ', Timed.step c P κ (.act .B .poll) = some κ' ∧ Behind c P κ' := by
  cases h with
  | starts hpc hwake =>
    have hnow : κ.now = P.skew + P.lag := by
      have hle := ht.polls .B .verify1 0 hpc
      rw [hwake] at hle
      by_contra hne
      refine hlate ⟨fun s st r hw => ?_, fun s hw => ?_⟩
      · cases s with
        | A => exact (hA st r hw).trans_le (Nat.le_add_right _ _)
        | B =>
          change κ.now + 1 ≤ (κ.clock .B).wake + P.lag
          omega
      · cases s with
        | A => exact absurd (hA'.symm.trans hw) (by decide)
        | B =>
          change working (κ.sys .B).pc = true at hw
          rw [hpc] at hw
          cases hw
    have hawake : asleep κ .B (.poll : Act β) = false := decide_eq_false (by omega)
    obtain ⟨κ', hs⟩ := act_step (P := P) hawake
      (.pass hpc (hc.success .B) : Move c .B (κ.sys .B) (κ.sys (peer .B)).out .poll _)
    obtain ⟨-, -, -, hmove, hclock⟩ := step_act hs
    refine ⟨κ', hs, ?_⟩
    generalize hn : κ'.sys .B = n' at hmove hclock
    cases hmove with
    | pass hpc' =>
      cases hpc.symm.trans hpc'
      exact .works (by rw [hn]) (by rw [hclock]; exact hnow)
    | giveUp hpc' hr | retry hpc' hr =>
      cases hpc.symm.trans hpc'
      exact absurd ((hc.success .B).symm.trans hr) (by decide)
  | works hpc hpassed =>
    refine absurd ⟨fun s st r hw => ?_, fun s hw => ?_⟩ hlate
    · cases s with
      | A => exact (hA st r hw).trans_le (Nat.le_add_right _ _)
      | B => cases hpc.symm.trans hw
    · cases s with
      | A => exact absurd (hA'.symm.trans hw) (by decide)
      | B =>
        change κ.now + 1 ≤ (κ.clock .B).passed + P.work
        omega

/-- As long as server A has not given up, the runs go on towards it. -/
theorem Stalls.step (h : Stalls c P κ) (hv : Valid c P) (hc : Ingested c)
    (hshort : Backoff.time P.delay P.exponent c.retryLimit ≤ P.skew + P.lag + P.work)
    (hopen : (κ.sys .A).pc ≠ .gaveUp) : ∃ l κ', (timed c P).step κ l κ' ∧ Stalls c P κ' ∧
      toLex (Backoff.time P.delay P.exponent c.retryLimit - κ'.now, rank c κ'.sys) <
        toLex (Backoff.time P.delay P.exponent c.retryLimit - κ.now, rank c κ.sys) := by
  have hact : ∀ s a κ', Timed.step c P κ (.act s a) = some κ' →
      ((κ'.sys .A).pc = .gaveUp ∨ Ahead c P κ') → Behind c P κ' →
      ∃ l κ', (timed c P).step κ l κ' ∧ Stalls c P κ' ∧
        toLex (Backoff.time P.delay P.exponent c.retryLimit - κ'.now, rank c κ'.sys) <
          toLex (Backoff.time P.delay P.exponent c.retryLimit - κ.now, rank c κ.sys) := by
    intro s a κ' hs hahead hbehind
    obtain ⟨-, hstep, hst, -⟩ := step_act hs
    have ht := h.inTime.act hs
    have hstep' : (timed c P).step κ (.act s a) κ' := ⟨hs, ht⟩
    refine ⟨_, _, hstep', ⟨h.reach.step hstep', ht, hahead, hbehind⟩, ?_⟩
    rw [hst.nowEq]
    exact Prod.Lex.toLex_lt_toLex.2 (.inr ⟨rfl, step_rank hstep⟩)
  cases h.ahead.resolve_left hopen with
  | first hnow hwake hplace hend =>
    obtain ⟨a, κ', hs, hahead⟩ := Ahead.move (process_reachable h.reach) hc hnow hwake hplace hend
    exact hact _ _ _ hs (.inr hahead) (h.behind.congr (step_act hs).2.2.1)
  | polls r hpc hr hbackoff hwake hnow =>
    have hspan := Backoff.time_mono P.delay P.exponent hr
    rcases Nat.lt_or_eq_of_le hnow with hlt | heq
    · by_cases htick : InTime P { κ with now := κ.now + 1 }
      · have hs : (timed c P).step κ .tick { κ with now := κ.now + 1 } := ⟨rfl, htick⟩
        refine ⟨_, _, hs, ⟨h.reach.step hs, htick, ?_, ?_⟩, Prod.Lex.toLex_lt_toLex.2 (.inl ?_)⟩
        · exact .inr (.polls r hpc hr hbackoff hwake hlt)
        · cases h.behind with
          | starts hpc hwake => exact .starts hpc hwake
          | works hpc hpassed => exact .works hpc hpassed
        · show _ - (κ.now + 1) < _ - κ.now
          omega
      · obtain ⟨κ', hs, hbehind⟩ := h.behind.move hc h.inTime (by omega) htick
          (fun _ _ _ => hlt) (by rw [hpc]; rfl)
        have hst := (step_act hs).2.2.1
        have hsys : κ'.sys .A = κ.sys .A := hst.peerSys
        have hclock : κ'.clock .A = κ.clock .A := hst.peerClock
        refine hact _ _ _ hs (.inr (.polls r ?_ hr ?_ ?_ ?_)) hbehind
        · rw [hsys, hpc]
        · rw [hclock, hbackoff]
        · rw [hclock, hwake]
        · rw [hclock, hst.nowEq]; exact hnow
    · obtain ⟨κ', hs, hahead⟩ := Ahead.poll hv hpc hr hbackoff hwake heq (h.unready hc)
      exact hact _ _ _ hs hahead (h.behind.congr (step_act hs).2.2.1)

/-- Server A starts at once, server B as late as it can. -/
def staggered (P : Times) : State β :=
  ⟨fun _ => Node.start, 0, fun
    | .A => ⟨0, .ofNat P.delay, 0, 0, fun _ => 0⟩
    | .B => ⟨P.skew, .ofNat P.delay, 0, 0, fun _ => P.skew⟩⟩

omit [DecidableEq β] in
theorem staggered_starts (P : Times) : Starts P (staggered (β := β) P) := by
  refine ⟨rfl, rfl, fun s => ?_⟩
  cases s with
  | A => exact ⟨0, Nat.zero_le _, rfl⟩
  | B => exact ⟨P.skew, Nat.le_refl _, rfl⟩

/-- With polls that span no more than the peer may need to start, to poll and
to run verify1, some run ends in `wait_for_data`. -/
theorem impatient (c : Cfg β) (P : Times) (hv : Valid c P) (hc : Ingested c)
    (hshort : Backoff.time P.delay P.exponent c.retryLimit ≤ P.skew + P.lag + P.work) :
    ∃ κ, (timed c P).Reachable κ ∧ (κ.sys .A).pc = .gaveUp := by
  have hstart := staggered_starts (β := β) P
  have hstalls : Stalls c P (staggered P) := by
    refine ⟨LTS.reachable_init hstart, hstart.inTime, .inr (.first rfl rfl rfl ?_),
      .starts rfl rfl⟩
    rintro (hend | hend | hend) <;> cases hend
  obtain ⟨ls, κ, -, hκ, hgave⟩ := LTS.reaches_goal (M := timed c P) _ _
    (fun κ => (κ.sys .A).pc = .gaveUp) (fun κ hκ hopen => hκ.step hv hc hshort hopen) _ hstalls
  exact ⟨κ, hκ.reach, hgave⟩

namespace Sample

/-- The servers may start an hour apart. -/
theorem impatient_sample : ∃ κ, (timed cfg { times with skew := 3600 }).Reachable κ ∧
    (κ.sys .A).pc = .gaveUp :=
  impatient cfg _ ⟨by decide, by decide⟩ cfg_ingested (by decide)

end Sample

end PrioProcessor.L4.Patience
