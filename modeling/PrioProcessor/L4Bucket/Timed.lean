import PrioProcessor.Core.Backoff
import PrioProcessor.L4Bucket.HandOff

/-!
# The two runs of bin/process with a clock

`HandOff` is untimed: it shows that the two runs finish unless one of them runs
out of polls. Here the same two runs go against a clock in seconds.
`wait_for_data` (src/bin/process:68-90) sleeps `RETRY_DELAY` after the first
poll that fails and `RETRY_BACKOFF_EXPONENT` times as long after each further
one, in the 64-bit arithmetic of bash; the run ends after `RETRY_LIMIT + 1`
failed polls. (The sleep after the last failed poll, which the script takes
before it exits, is left out.)

Time is not under the control of the script, so the results are about the runs
whose states are all in time (`InTime`):

* a sleep that is over is followed by the next poll within `lag`;
* a stage that passed its wait has copied its marker within `work`.

The servers start at most `skew` apart. `OnTime` is the invariant of the
clocks: how far apart the servers are in each stage (`window`), and when both
have reached it (`deadline`). A poll that gives up is the business of
`Patience`.
-/
namespace PrioProcessor.L4.Timed

open L1 (ServerId)

/-- The `RETRY_*` variables but for the limit, and what the runs are assumed to
keep to. -/
structure Times where
  delay : ℕ
  exponent : ℕ
  skew : ℕ
  lag : ℕ
  work : ℕ
  deriving DecidableEq, Repr

/-- The clock of a server: when its sleep is over, how long the next sleep is,
when it polled last, when it passed its wait; and, as history, when it began to
wait in each stage. -/
structure Clock where
  wake : ℕ
  backoff : Int64
  polled : ℕ
  passed : ℕ
  entered : ℕ → ℕ

/-- `sleep` refuses a negative length and returns at once. -/
def seconds (x : Int64) : ℕ := x.toInt.toNat

/-- mirrors src/bin/process:77-78 -/
def Clock.enter (P : Times) (k : Clock) (now : ℕ) (stage : ℕ) : Clock :=
  { k with
    wake := now
    backoff := .ofNat P.delay
    polled := now
    entered := Function.update k.entered stage now }

/-- mirrors src/bin/process:81-82 -/
def Clock.sleep (P : Times) (k : Clock) (now : ℕ) : Clock :=
  { k with
    wake := now + seconds k.backoff
    backoff := k.backoff * .ofNat P.exponent
    polled := now }

def Clock.pass (k : Clock) (now : ℕ) : Clock := { k with passed := now }

variable {β : Type}

/-- The clock after a step that led to `pc`. -/
def Clock.after (P : Times) (k : Clock) (now : ℕ) : Act β → Pc β → Clock
  | .poll, .wait _ _ => k.sleep P now
  | .poll, _ => k.pass now
  | .cpMarker, .wait st _ => k.enter P now st.idx
  | _, _ => k

/-- Both servers and the time. -/
structure State (β : Type) where
  sys : Sys β
  now : ℕ
  clock : ServerId → Clock

inductive Lbl (β : Type) where
  | tick
  | act (s : ServerId) (a : Act β)
  deriving DecidableEq

/-- A server still sleeps before its next poll. -/
def asleep (κ : State β) (s : ServerId) : Act β → Bool
  | .poll => κ.now < (κ.clock s).wake
  | _ => false

/-- The current stage, the last one at the end. -/
def reached : Pc β → ℕ
  | .wait st _ => st.idx
  | .loop st _ => st.idx
  | .submit st _ _ => st.idx
  | .mirror st => st.idx
  | .marker st => st.idx
  | .done => 3
  | .gaveUp => 0
  | .aborted => 0

/-- Past the wait of a stage. -/
def working : Pc β → Bool
  | .loop _ _ => true
  | .submit _ _ _ => true
  | .mirror _ => true
  | .marker _ => true
  | _ => false

/-- No poll and no stage is late. -/
structure InTime (P : Times) (κ : State β) : Prop where
  polls : ∀ s st r, (κ.sys s).pc = .wait st r → κ.now ≤ (κ.clock s).wake + P.lag
  works : ∀ s, working (κ.sys s).pc = true → κ.now ≤ (κ.clock s).passed + P.work

/-- Before the runs; a server starts at the end of its first sleep. -/
structure Starts (P : Times) (κ : State β) : Prop where
  sys : κ.sys = fun _ => Node.start
  now : κ.now = 0
  clock : ∀ s, ∃ start ≤ P.skew, κ.clock s = ⟨start, .ofNat P.delay, 0, 0, fun _ => start⟩

def step [DecidableEq β] (c : Cfg β) (P : Times) (κ : State β) : Lbl β → Option (State β)
  | .tick => some { κ with now := κ.now + 1 }
  | .act s a =>
    if asleep κ s a then none
    else (L4.step c κ.sys (s, a)).map fun σ =>
      ⟨σ, κ.now, Function.update κ.clock s ((κ.clock s).after P κ.now a (σ s).pc)⟩

/-- The runs all of whose states are in time. -/
def timed [DecidableEq β] (c : Cfg β) (P : Times) : LTS (State β) (Lbl β) where
  init κ := Starts P κ
  step κ l κ' := step c P κ l = some κ' ∧ InTime P κ'

theorem Starts.inTime {P : Times} {κ : State β} (h : Starts P κ) : InTime P κ := by
  refine ⟨fun s st r _ => ?_, fun s hw => ?_⟩
  · rw [h.now]; exact Nat.zero_le _
  · rw [h.sys] at hw; cases hw

/-! ## The untimed runs -/

section Untimed

variable [DecidableEq β] {c : Cfg β} {P : Times} {κ κ' : State β}

theorem step_cases {l : Lbl β} (h : step c P κ l = some κ') :
    (l = .tick ∧ κ' = { κ with now := κ.now + 1 }) ∨
    ∃ s a, l = .act s a ∧ asleep κ s a = false ∧ L4.step c κ.sys (s, a) = some κ'.sys ∧
      κ'.now = κ.now ∧
      κ'.clock = Function.update κ.clock s ((κ.clock s).after P κ.now a (κ'.sys s).pc) := by
  cases l with
  | tick =>
    cases h
    exact .inl ⟨rfl, rfl⟩
  | act s a =>
    simp only [step] at h
    by_cases hasleep : asleep κ s a = true
    · rw [if_pos hasleep] at h
      cases h
    · rw [if_neg hasleep] at h
      obtain ⟨σ, hσ, rfl⟩ := Option.map_eq_some_iff.1 h
      exact .inr ⟨s, a, rfl, Bool.eq_false_iff.2 hasleep, hσ, rfl, rfl⟩

/-- Without the clock a timed run is a run of the two servers. -/
theorem process_reachable (h : (timed c P).Reachable κ) : (process c).Reachable κ.sys := by
  refine LTS.Inductive.reachable (P := fun κ => (process c).Reachable κ.sys)
    ⟨fun κ hκ => ?_, fun κ l κ' hκ hs => ?_⟩ κ h
  · have hinit : (process c).init κ.sys := Starts.sys hκ
    exact LTS.reachable_init hinit
  rcases step_cases hs.1 with htick | hact
  · obtain ⟨-, rfl⟩ := htick
    exact hκ
  · obtain ⟨s, a, -, -, hs, -⟩ := hact
    exact hκ.step hs

end Untimed

/-! ## Where the servers are -/

section Place

variable [DecidableEq β] {c : Cfg β} {s : ServerId} {n n' : Node β}
  {peerOut : Stage → Shared β} {a : Act β}

/-- A server that has not stopped has sent the stages before the one it
reached. -/
theorem sent_iff (hat : AtPc c s n.priv n.out n.pc) (hstop : ¬ n.pc.Stopped) {p : Stage}
    (hp : p ≠ .publish) : (n.out p).success = true ↔ p.idx < reached n.pc := by
  have hlt : p.idx < 3 := by cases p <;> first | decide | exact absurd rfl hp
  cases hpc : n.pc with
  | wait st r => rw [hpc] at hat; exact hat.1.sent_iff
  | loop st todo => rw [hpc] at hat; exact hat.1.sent_iff
  | submit st b todo => rw [hpc] at hat; exact hat.1.sent_iff
  | mirror st => rw [hpc] at hat; exact hat.1.sent_iff
  | marker st => rw [hpc] at hat; exact hat.1.sent_iff
  | done => rw [hpc] at hat; exact iff_of_true (hat.1 p hlt).success hlt
  | gaveUp => exact absurd (.inl hpc) hstop
  | aborted => exact absurd (.inr hpc) hstop

/-- A stage is ready when the peer has reached it. -/
theorem ready_iff {σ : Sys β} (h : Inv c σ) (hraw : c.rawSuccess s = true)
    (hstop : ¬ (σ (peer s)).pc.Stopped) {st : Stage} :
    ready c s (σ (peer s)).out st = true ↔ st.idx ≤ reached (σ (peer s)).pc := by
  cases hp : st.prev with
  | none =>
    rw [Stage.prev_eq_none hp]
    exact iff_of_true hraw (Nat.zero_le _)
  | some p =>
    have hne : p ≠ .publish := by rintro rfl; cases st <;> cases hp
    rw [ready_eq hp, sent_iff (h (peer s)).atPc hstop hne, Stage.idx_prev hp]
    omega

/-- A step other than a poll and the copy of a marker keeps a server in its
stage, or ends its run. -/
theorem move_stage (h : Move c s n peerOut a n') (hpoll : a ≠ .poll) (hmark : a ≠ .cpMarker)
    (hne : n'.pc ≠ .aborted) : working n.pc = true ∧ reached n'.pc = reached n.pc ∧
      (working n'.pc = true ∨ n'.pc = .done) := by
  cases h with
  | pass | giveUp | retry => exact absurd rfl hpoll
  | mark => exact absurd rfl hmark
  | failed | noOutput => exact absurd rfl hne
  | found hpc | skip hpc | ran k hpc | startMirror hpc | endMirror hpc =>
    rw [hpc]; exact ⟨rfl, rfl, .inl rfl⟩
  | copy hpc | remove hpc | removeMarker hpc =>
    rw [Node.setOut_pc, hpc]; exact ⟨rfl, rfl, .inl rfl⟩
  | finish hpc hnext =>
    rw [hpc, Stage.next_eq_none hnext]; exact ⟨rfl, rfl, .inr rfl⟩

end Place

/-! ## The invariant of the clocks -/

/-- How far apart the servers begin to wait in stage `k + 1`, at most. -/
def window (P : Times) : ℕ → ℕ :=
  Backoff.window P.delay P.exponent P.lag P.work (P.skew + P.lag + P.work)

/-- When both servers have begun to wait in a stage, at the latest. -/
def deadline (P : Times) : ℕ → ℕ
  | 0 => 0
  | k + 1 => deadline P k + window P k

/-- The stage a server has reached. -/
def place (κ : State β) (s : ServerId) : ℕ := reached (κ.sys s).pc

/-- When a server began to wait in a stage. -/
def entered (κ : State β) (s : ServerId) (k : ℕ) : ℕ := (κ.clock s).entered k

/-- When both servers had begun to wait in a stage; the first one is ready from
the start. -/
def both (κ : State β) : ℕ → ℕ
  | 0 => 0
  | k + 1 => max (entered κ .A (k + 1)) (entered κ .B (k + 1))

/-- A server that waits in stage `k + 1` after `r` failed polls. -/
structure Waiting (c : Cfg β) (P : Times) (κ : State β) (s : ServerId) (k r : ℕ) : Prop where
  limit : r ≤ c.retryLimit
  backoff : (κ.clock s).backoff = .ofNat (P.delay * P.exponent ^ r)
  polls : entered κ s (k + 1) + Backoff.time P.delay P.exponent r ≤ (κ.clock s).wake
  wake : (κ.clock s).wake ≤ (κ.clock s).polled +
    (P.delay + (P.exponent - 1) * ((κ.clock s).polled - entered κ s (k + 1)))
  since : (κ.clock s).polled ≤ κ.now
  /-- the last poll failed before the peer was ready -/
  last : k + 1 ≤ place κ (peer s) → (κ.clock s).polled ≤ both κ (k + 1)

structure OnTime (c : Cfg β) (P : Times) (κ : State β) : Prop where
  lead : ∀ s, place κ s ≤ place κ (peer s) + 1
  level : ∀ s, (∀ st r, (κ.sys s).pc ≠ .wait st r) → place κ s ≤ place κ (peer s)
  past : ∀ s k, k + 1 ≤ place κ s → entered κ s (k + 1) ≤ κ.now
  later : ∀ s k, k + 1 ≤ place κ s → both κ k ≤ entered κ s (k + 1)
  early : ∀ s k, k + 1 ≤ place κ s → entered κ s (k + 1) ≤ deadline P (k + 1)
  near : ∀ s k, k + 1 ≤ place κ s → k + 1 ≤ place κ (peer s) →
    both κ (k + 1) ≤ entered κ s (k + 1) + window P k
  first : ∀ s st r, (κ.sys s).pc = .wait st r → st.idx = 0 → (κ.clock s).wake ≤ P.skew
  wait : ∀ s st r k, (κ.sys s).pc = .wait st r → st.idx = k + 1 → Waiting c P κ s k r
  passed : ∀ s, working (κ.sys s).pc = true → both κ (place κ s) ≤ (κ.clock s).passed ∧
    (κ.clock s).passed ≤ κ.now
  work : ∀ s, working (κ.sys s).pc = true →
    (κ.clock s).passed + P.work ≤ both κ (place κ s) + window P (place κ s)

section Clocks

variable {c : Cfg β} {P : Times} {κ κ' : State β} {s : ServerId}

theorem after_other {k : Clock} {now : ℕ} {a : Act β} {pc : Pc β} (hpoll : a ≠ .poll)
    (hmark : a ≠ .cpMarker) : k.after P now a pc = k := by
  unfold Clock.after
  split
  · exact absurd rfl hpoll
  · exact absurd rfl hpoll
  · exact absurd rfl hmark
  · rfl

theorem both_succ (κ : State β) (s : ServerId) (k : ℕ) :
    both κ (k + 1) = max (entered κ s (k + 1)) (entered κ (peer s) (k + 1)) := by
  cases s with
  | A => rfl
  | B => exact max_comm _ _

theorem both_congr {k : ℕ} (h : ∀ s, entered κ' s k = entered κ s k) : both κ' k = both κ k := by
  cases k with
  | zero => rfl
  | succ k => rw [both, both, h, h]

theorem both_le {k m : ℕ} (h : ∀ s, entered κ s (k + 1) ≤ m) : both κ (k + 1) ≤ m :=
  max_le (h .A) (h .B)

theorem place_waiting {st : Stage} {r : ℕ} (h : (κ.sys s).pc = .wait st r) :
    place κ s = st.idx := by
  unfold place
  rw [h]
  rfl

/-- A server that waits for a marker that is there passes within its window. -/
theorem wait_due (h : OnTime c P κ) (ht : InTime P κ) {st : Stage} {r : ℕ}
    (hpc : (κ.sys s).pc = .wait st r) (hready : st.idx ≤ place κ (peer s)) :
    κ.now + P.work ≤ both κ st.idx + window P st.idx := by
  have hnow := ht.polls s st r hpc
  cases hk : st.idx with
  | zero =>
    have hwake := h.first s st r hpc hk
    change _ ≤ 0 + (P.skew + P.lag + P.work)
    omega
  | succ k =>
    have hw := h.wait s st r k hpc hk
    rw [hk] at hready
    have hown : k + 1 ≤ place κ s := by rw [place_waiting hpc, hk]
    have hwake := Backoff.wake_le (d := P.delay) (e := P.exponent) (hw.last hready)
      (h.near s k hown hready)
    have hle := hw.wake
    change _ ≤ _ + ((P.exponent - 1) * window P k + P.delay + P.lag + P.work)
    omega

/-- A server whose stage is ready is through with it within its window. -/
theorem due (h : OnTime c P κ) (ht : InTime P κ) (hopen : ¬ (κ.sys s).pc.Ended)
    (hready : place κ s ≤ place κ (peer s)) :
    κ.now ≤ both κ (place κ s) + window P (place κ s) := by
  have hwork : working (κ.sys s).pc = true →
      κ.now ≤ both κ (place κ s) + window P (place κ s) := fun hw =>
    (ht.works s hw).trans (h.work s hw)
  cases hpc : (κ.sys s).pc with
  | wait st r =>
    rw [place_waiting hpc] at hready ⊢
    have hdue := wait_due h ht hpc hready
    omega
  | loop | submit | mirror | marker => exact hwork (by rw [hpc]; rfl)
  | done => exact absurd (.inl hpc) hopen
  | gaveUp => exact absurd (.inr (.inl hpc)) hopen
  | aborted => exact absurd (.inr (.inr hpc)) hopen

/-- A server is ahead of its peer for a window at most. -/
theorem ahead (h : OnTime c P κ) (ht : InTime P κ) (hopen : ¬ (κ.sys (peer s)).pc.Ended) {k : ℕ}
    (hs : k + 1 ≤ place κ s) (hpeer : place κ (peer s) = k) :
    κ.now ≤ entered κ s (k + 1) + window P k := by
  have hdue := due h ht hopen (by rw [peer_peer]; omega)
  rw [hpeer] at hdue
  have hlater := h.later s k hs
  omega

end Clocks

/-! ## One step -/

section Steps

variable {c : Cfg β} {P : Times} {κ κ' : State β} {s : ServerId}

/-- Nothing but the time has changed. -/
theorem OnTime.tick (h : OnTime c P κ) : OnTime c P { κ with now := κ.now + 1 } where
  lead := h.lead
  level := h.level
  past s k hk := Nat.le_succ_of_le (h.past s k hk)
  later := h.later
  early := h.early
  near := h.near
  first := h.first
  wait s st r k hpc hk :=
    { h.wait s st r k hpc hk with since := Nat.le_succ_of_le (h.wait s st r k hpc hk).since }
  passed s hs := ⟨(h.passed s hs).1, Nat.le_succ_of_le (h.passed s hs).2⟩
  work := h.work

/-- A step of `s` that changes no more than its program counter and its
clock. -/
structure Steps (κ κ' : State β) (s : ServerId) : Prop where
  nowEq : κ'.now = κ.now
  peerSys : κ'.sys (peer s) = κ.sys (peer s)
  peerClock : κ'.clock (peer s) = κ.clock (peer s)

/-- A step of a server, from its own side. -/
theorem step_act [DecidableEq β] {a : Act β} (h : step c P κ (.act s a) = some κ') :
    asleep κ s a = false ∧ L4.step c κ.sys (s, a) = some κ'.sys ∧ Steps κ κ' s ∧
      Move c s (κ.sys s) (κ.sys (peer s)).out a (κ'.sys s) ∧
      κ'.clock s = (κ.clock s).after P κ.now a (κ'.sys s).pc := by
  rcases step_cases h with htick | hact
  · cases htick.1
  obtain ⟨t, b, heq, hawake, hstep, hnow, hclock⟩ := hact
  cases heq
  obtain ⟨hmove, hpeer⟩ := step_move hstep
  refine ⟨hawake, hstep, ⟨hnow, hpeer, ?_⟩, hmove, ?_⟩
  · rw [hclock]
    exact Function.update_of_ne (peer_ne s) _ _
  · rw [hclock]
    exact Function.update_self _ _ _

/-- A server that moves can do so against the clock, unless it sleeps. -/
theorem act_step [DecidableEq β] {a : Act β} {n : Node β} (hawake : asleep κ s a = false)
    (h : Move c s (κ.sys s) (κ.sys (peer s)).out a n) :
    ∃ κ', step c P κ (.act s a) = some κ' := by
  simp only [step, hawake, Bool.false_eq_true, if_false, move_step h]
  exact ⟨_, rfl⟩

/-- A step of a server takes no time. -/
theorem InTime.act [DecidableEq β] (h : InTime P κ) {a : Act β}
    (hs : step c P κ (.act s a) = some κ') : InTime P κ' := by
  obtain ⟨-, -, hst, hmove, hclock⟩ := step_act hs
  have hpolls : ∀ st r, (κ'.sys s).pc = .wait st r → κ.now ≤ (κ'.clock s).wake + P.lag := by
    intro st r hpc
    rw [hclock]
    generalize κ'.sys s = n' at hmove hpc
    cases hmove with
    | retry =>
      change _ ≤ κ.now + seconds (κ.clock s).backoff + P.lag
      omega
    | mark =>
      change _ ≤ κ.now + P.lag
      omega
    | copy hloop | remove hloop | removeMarker hloop =>
      rw [Node.setOut_pc, hloop] at hpc
      cases hpc
    | _ => cases hpc
  have hworks : working (κ'.sys s).pc = true → κ.now ≤ (κ'.clock s).passed + P.work := by
    intro hw
    by_cases hpoll : a = .poll
    · subst hpoll
      rw [hclock]
      generalize κ'.sys s = n' at hmove hw
      cases hmove with
      | pass => exact Nat.le_add_right _ _
      | _ => cases hw
    by_cases hmark : a = .cpMarker
    · subst hmark
      generalize κ'.sys s = n' at hmove hw
      cases hmove with
      | mark => cases hw
    rw [hclock, after_other hpoll hmark]
    refine h.works s (move_stage hmove hpoll hmark fun habort => ?_).1
    rw [habort] at hw
    cases hw
  refine ⟨fun t st r hpc => ?_, fun t hw => ?_⟩
  · rw [hst.nowEq]
    rcases eq_or_peer s t with rfl | rfl
    · exact hpolls st r hpc
    · rw [hst.peerSys] at hpc
      rw [hst.peerClock]
      exact h.polls _ st r hpc
  · rw [hst.nowEq]
    rcases eq_or_peer s t with rfl | rfl
    · exact hworks hw
    · rw [hst.peerSys] at hw
      rw [hst.peerClock]
      exact h.works _ hw

/-- The servers are where they were, and began to wait there when they did. -/
structure Stays (κ κ' : State β) (s : ServerId) : Prop extends Steps κ κ' s where
  ownPlace : place κ' s = place κ s
  ownEntered : (κ'.clock s).entered = (κ.clock s).entered

theorem Steps.place_peer (h : Steps κ κ' s) : place κ' (peer s) = place κ (peer s) := by
  unfold place
  rw [h.peerSys]

theorem Steps.entered_peer (h : Steps κ κ' s) (k : ℕ) :
    entered κ' (peer s) k = entered κ (peer s) k := by
  unfold entered
  rw [h.peerClock]

theorem Stays.place_eq (h : Stays κ κ' s) (t : ServerId) : place κ' t = place κ t := by
  rcases eq_or_peer s t with rfl | rfl
  · exact h.ownPlace
  · exact h.place_peer

theorem Stays.entered_eq (h : Stays κ κ' s) (t : ServerId) (k : ℕ) :
    entered κ' t k = entered κ t k := by
  rcases eq_or_peer s t with rfl | rfl
  · exact congrFun h.ownEntered k
  · exact h.entered_peer k

theorem Stays.both_eq (h : Stays κ κ' s) (k : ℕ) : both κ' k = both κ k :=
  both_congr fun t => h.entered_eq t k

/-- What a step in a stage leaves to show. -/
theorem Stays.onTime (hst : Stays κ κ' s) (h : OnTime c P κ)
    (hlevel : (∀ st r, (κ'.sys s).pc ≠ .wait st r) → place κ s ≤ place κ (peer s))
    (hfirst : ∀ st r, (κ'.sys s).pc = .wait st r → st.idx = 0 → (κ'.clock s).wake ≤ P.skew)
    (hwait : ∀ st r k, (κ'.sys s).pc = .wait st r → st.idx = k + 1 → Waiting c P κ' s k r)
    (hpassed : working (κ'.sys s).pc = true → both κ (place κ s) ≤ (κ'.clock s).passed ∧
      (κ'.clock s).passed ≤ κ.now)
    (hwork : working (κ'.sys s).pc = true →
      (κ'.clock s).passed + P.work ≤ both κ (place κ s) + window P (place κ s)) :
    OnTime c P κ' where
  lead t := by rw [hst.place_eq, hst.place_eq]; exact h.lead t
  level t ht := by
    rw [hst.place_eq, hst.place_eq]
    rcases eq_or_peer s t with rfl | rfl
    · exact hlevel ht
    · rw [hst.peerSys] at ht; exact h.level _ ht
  past t k hk := by
    rw [hst.place_eq] at hk
    rw [hst.entered_eq, hst.nowEq]
    exact h.past t k hk
  later t k hk := by
    rw [hst.place_eq] at hk
    rw [hst.entered_eq, hst.both_eq]
    exact h.later t k hk
  early t k hk := by
    rw [hst.place_eq] at hk
    rw [hst.entered_eq]
    exact h.early t k hk
  near t k hk hk' := by
    rw [hst.place_eq] at hk hk'
    rw [hst.entered_eq, hst.both_eq]
    exact h.near t k hk hk'
  first t st r hpc h0 := by
    rcases eq_or_peer s t with rfl | rfl
    · exact hfirst st r hpc h0
    · rw [hst.peerSys] at hpc
      rw [hst.peerClock]
      exact h.first _ st r hpc h0
  wait t st r k hpc hk := by
    rcases eq_or_peer s t with rfl | rfl
    · exact hwait st r k hpc hk
    · rw [hst.peerSys] at hpc
      have hw := h.wait _ st r k hpc hk
      refine ⟨hw.limit, ?_, ?_, ?_, ?_, fun hplace => ?_⟩
      · rw [hst.peerClock]; exact hw.backoff
      · rw [hst.peerClock, hst.entered_eq]; exact hw.polls
      · rw [hst.peerClock, hst.entered_eq]; exact hw.wake
      · rw [hst.peerClock, hst.nowEq]; exact hw.since
      · rw [hst.place_eq] at hplace
        rw [hst.peerClock, hst.both_eq]
        exact hw.last hplace
  passed t ht := by
    rw [hst.place_eq, hst.both_eq, hst.nowEq]
    rcases eq_or_peer s t with rfl | rfl
    · exact hpassed ht
    · rw [hst.peerSys] at ht; rw [hst.peerClock]; exact h.passed _ ht
  work t ht := by
    rw [hst.place_eq, hst.both_eq]
    rcases eq_or_peer s t with rfl | rfl
    · exact hwork ht
    · rw [hst.peerSys] at ht; rw [hst.peerClock]; exact h.work _ ht

/-- A step behind the wait, in the same stage. -/
theorem OnTime.stay (h : OnTime c P κ) (hst : Stays κ κ' s) (hclock : κ'.clock s = κ.clock s)
    (hold : working (κ.sys s).pc = true)
    (hnew : working (κ'.sys s).pc = true ∨ (κ'.sys s).pc = .done) : OnTime c P κ' := by
  have hnowait : ∀ {pc : Pc β}, working pc = true ∨ pc = .done → ∀ st r, pc ≠ .wait st r := by
    rintro pc hpc st r rfl
    rcases hpc with hpc | hpc <;> cases hpc
  refine hst.onTime h (fun _ => h.level s (hnowait (.inl hold)))
    (fun st r hpc => absurd hpc (hnowait hnew st r))
    (fun st r k hpc => absurd hpc (hnowait hnew st r)) (fun _ => ?_) fun _ => ?_
  · rw [hclock]; exact h.passed s hold
  · rw [hclock]; exact h.work s hold

/-- The wait is over. -/
theorem OnTime.pass (h : OnTime c P κ) (ht : InTime P κ) (hst : Steps κ κ' s) {st : Stage} {r : ℕ}
    (hpc : (κ.sys s).pc = .wait st r) (hready : st.idx ≤ place κ (peer s))
    (hpc' : (κ'.sys s).pc = .loop st c.config)
    (hclock : κ'.clock s = (κ.clock s).pass κ.now) : OnTime c P κ' := by
  have hplace := place_waiting hpc
  have hst : Stays κ κ' s := by
    refine ⟨hst, ?_, by rw [hclock]; rfl⟩
    rw [hplace]
    unfold place
    rw [hpc']
    rfl
  refine hst.onTime h (fun _ => hplace ▸ hready) (fun _ _ hw => ?_) (fun _ _ _ hw => ?_)
    (fun _ => ?_) fun _ => ?_
  · rw [hpc'] at hw; cases hw
  · rw [hpc'] at hw; cases hw
  · rw [hclock]
    refine ⟨?_, Nat.le_refl _⟩
    cases hk : place κ s with
    | zero => exact Nat.zero_le _
    | succ k =>
      refine both_le fun t => ?_
      rcases eq_or_peer s t with rfl | rfl
      · exact h.past _ k (by omega)
      · exact h.past _ k (by omega)
  · rw [hclock, hplace]
    exact wait_due h ht hpc hready

theorem seconds_ofNat {n : ℕ} (h : n < 2 ^ 63) : seconds (.ofNat n) = n := by
  unfold seconds
  rw [Int64.toInt_ofNat_of_lt h]
  rfl

/-- What the retries can be set to: the sleeps do not shrink, and their lengths
fit 64 bits. -/
structure Valid (c : Cfg β) (P : Times) : Prop where
  exponent : 1 ≤ P.exponent
  fits : P.delay * P.exponent ^ c.retryLimit < 2 ^ 63

/-- The sleep after a failed poll, as long as it fits. -/
theorem Valid.sleep (hv : Valid c P) {k : Clock} {r : ℕ} (hr : r ≤ c.retryLimit)
    (hbackoff : k.backoff = .ofNat (P.delay * P.exponent ^ r)) (now : ℕ) :
    (k.sleep P now).wake = now + P.delay * P.exponent ^ r ∧
      (k.sleep P now).backoff = .ofNat (P.delay * P.exponent ^ (r + 1)) := by
  constructor
  · change now + seconds k.backoff = _
    rw [hbackoff, seconds_ofNat]
    refine lt_of_le_of_lt (Nat.mul_le_mul_left _ ?_) hv.fits
    exact Nat.pow_le_pow_right hv.exponent hr
  · change k.backoff * _ = _
    rw [hbackoff, ← Int64.ofNat_mul, Nat.pow_succ, Nat.mul_assoc]

/-- A poll that failed, before the last. -/
theorem OnTime.retry (h : OnTime c P κ) (hv : Valid c P) (hst : Steps κ κ' s) {st : Stage} {r : ℕ}
    (hpc : (κ.sys s).pc = .wait st r) (hawake : (κ.clock s).wake ≤ κ.now)
    (hready : ¬ st.idx ≤ place κ (peer s)) (hlimit : r + 1 ≤ c.retryLimit)
    (hpc' : (κ'.sys s).pc = .wait st (r + 1))
    (hclock : κ'.clock s = (κ.clock s).sleep P κ.now) : OnTime c P κ' := by
  have hst : Stays κ κ' s := by
    refine ⟨hst, ?_, by rw [hclock]; rfl⟩
    rw [place_waiting hpc, place_waiting hpc']
  have hwait : ∀ k, st.idx = k + 1 → Waiting c P κ' s k (r + 1) := by
    intro k hk
    have hw := h.wait s st r k hpc hk
    obtain ⟨hwake, hbackoff⟩ := hv.sleep hw.limit hw.backoff κ.now
    have hsleep := Backoff.sleep_eq P.delay hv.exponent r
    have hpolls := hw.polls
    have hslept : (P.exponent - 1) * Backoff.time P.delay P.exponent r ≤
        (P.exponent - 1) * (κ.now - entered κ s (k + 1)) := Nat.mul_le_mul_left _ (by omega)
    refine ⟨hlimit, by rw [hclock, hbackoff], ?_, ?_, ?_, fun hplace => ?_⟩
    · rw [hst.entered_eq, hclock, hwake]
      change _ + (Backoff.time P.delay P.exponent r + P.delay * P.exponent ^ r) ≤ _
      omega
    · rw [hst.entered_eq, hclock, hwake]
      change _ ≤ κ.now + (P.delay + (P.exponent - 1) * (κ.now - entered κ s (k + 1)))
      omega
    · rw [hclock, hst.nowEq]
      exact Nat.le_refl _
    · rw [hst.place_eq] at hplace
      omega
  refine hst.onTime h (fun hw => absurd hpc' (hw st (r + 1))) (fun st' r' hw h0 => ?_)
    (fun st' r' k hw hk => ?_) (fun hw => ?_) fun hw => ?_
  · cases hpc'.symm.trans hw
    omega
  · cases hpc'.symm.trans hw
    exact hwait k hk
  · rw [hpc'] at hw; cases hw
  · rw [hpc'] at hw; cases hw

theorem OnTime.both_early (h : OnTime c P κ) {k : ℕ} (hs : k ≤ place κ s)
    (hpeer : k ≤ place κ (peer s)) : both κ k ≤ deadline P k := by
  cases k with
  | zero => exact Nat.zero_le _
  | succ k =>
    rw [both_succ κ s]
    exact max_le (h.early s k hs) (h.early _ k hpeer)

/-- The marker is copied, and the wait of the next stage begins. -/
theorem OnTime.mark (h : OnTime c P κ) (ht : InTime P κ) (hst : Steps κ κ' s) {st t : Stage}
    (hpc : (κ.sys s).pc = .marker st) (hnext : st.next = some t)
    (hpc' : (κ'.sys s).pc = .wait t 0)
    (hclock : κ'.clock s = (κ.clock s).enter P κ.now t.idx) : OnTime c P κ' := by
  have hidx := Stage.idx_next hnext
  have hplace : place κ s = st.idx := by unfold place; rw [hpc]; rfl
  have hplace' : place κ' s = st.idx + 1 := by rw [place_waiting hpc', hidx]
  have hpeer := hst.place_peer
  have hlead := h.lead (peer s)
  rw [peer_peer] at hlead
  have hlevel : place κ s ≤ place κ (peer s) := h.level s fun _ _ hw => by
    rw [hpc] at hw; cases hw
  have hworking : working (κ.sys s).pc = true := by rw [hpc]; rfl
  have hopen : ¬ (κ.sys (peer (peer s))).pc.Ended := by
    rw [peer_peer, hpc]
    rintro (hend | hend | hend) <;> cases hend
  obtain ⟨hafter, hpassed⟩ := h.passed s hworking
  have hnow := (ht.works s hworking).trans (h.work s hworking)
  have hearly := h.both_early (Nat.le_refl (place κ s)) hlevel
  rw [hplace] at hafter hnow hearly hlevel hlead
  -- the entries of the stages before the new one are as they were
  have hown : entered κ' s (st.idx + 1) = κ.now := by
    unfold entered
    rw [hclock, ← hidx]
    exact Function.update_self _ _ _
  have hold : ∀ k, k ≠ st.idx + 1 → entered κ' s k = entered κ s k := by
    intro k hk
    unfold entered
    rw [hclock]
    exact Function.update_of_ne (by omega) _ _
  have hboth : ∀ k, k ≠ st.idx + 1 → both κ' k = both κ k := by
    intro k hk
    refine both_congr fun u => ?_
    rcases eq_or_peer s u with rfl | rfl
    · exact hold k hk
    · exact hst.entered_peer k
  have hentered : ∀ k, k + 1 ≤ place κ' (peer s) → entered κ (peer s) (k + 1) ≤ κ.now :=
    fun k hk => h.past _ k (by omega)
  have hnew : st.idx + 1 ≤ place κ' (peer s) → both κ' (st.idx + 1) = κ.now := by
    intro hk
    rw [both_succ κ' s, hown, hst.entered_peer]
    exact max_eq_left (hentered _ hk)
  constructor
  case lead =>
    intro u
    rcases eq_or_peer s u with rfl | rfl
    · omega
    · rw [peer_peer]; omega
  case level =>
    intro u hu
    rcases eq_or_peer s u with rfl | rfl
    · exact absurd hpc' (hu t 0)
    · rw [peer_peer]; omega
  case past =>
    intro u k hk
    rw [hst.nowEq]
    rcases eq_or_peer s u with rfl | rfl
    · by_cases hks : k = st.idx
      · rw [hks, hown]
      · rw [hold _ (by omega)]; exact h.past u k (by omega)
    · rw [hst.entered_peer]; exact hentered k hk
  case later =>
    intro u k hk
    rcases eq_or_peer s u with rfl | rfl
    · rw [hboth _ (by omega)]
      by_cases hks : k = st.idx
      · rw [hks, hown]; omega
      · rw [hold _ (by omega)]; exact h.later u k (by omega)
    · rw [hboth _ (by omega), hst.entered_peer]
      exact h.later _ k (by omega)
  case early =>
    intro u k hk
    rcases eq_or_peer s u with rfl | rfl
    · by_cases hks : k = st.idx
      · rw [hks, hown, deadline]; omega
      · rw [hold _ (by omega)]; exact h.early u k (by omega)
    · rw [hst.entered_peer]; exact h.early _ k (by omega)
  case near =>
    intro u k hk hk'
    rcases eq_or_peer s u with rfl | rfl
    · by_cases hks : k = st.idx
      · subst hks
        rw [hnew hk', hown]; omega
      · rw [hboth _ (by omega), hold _ (by omega)]
        exact h.near u k (by omega) (by omega)
    · rw [peer_peer] at hk'
      by_cases hks : k = st.idx
      · subst hks
        rw [hnew hk, hst.entered_peer]
        exact ahead h ht hopen (by omega) (by rw [peer_peer]; exact hplace)
      · rw [hboth _ (by omega), hst.entered_peer]
        exact h.near _ k (by omega) (by rw [peer_peer]; omega)
  case first =>
    intro u st' r hu h0
    rcases eq_or_peer s u with rfl | rfl
    · cases hpc'.symm.trans hu
      omega
    · rw [hst.peerSys] at hu
      rw [hst.peerClock]
      exact h.first _ st' r hu h0
  case wait =>
    intro u st' r k hu hk
    rcases eq_or_peer s u with rfl | rfl
    · cases hpc'.symm.trans hu
      obtain rfl : k = st.idx := by omega
      refine ⟨Nat.zero_le _, ?_, ?_, ?_, ?_, fun hready => ?_⟩
      · rw [hclock, Nat.pow_zero, Nat.mul_one]; rfl
      · rw [hown, hclock]; exact Nat.le_refl _
      · rw [hclock]; exact Nat.le_add_right _ _
      · rw [hclock, hst.nowEq]; exact Nat.le_refl _
      · rw [hclock, hnew hready]; exact Nat.le_refl _
    · rw [hst.peerSys] at hu
      have hw := h.wait _ st' r k hu hk
      have hplacePeer := place_waiting hu
      refine ⟨hw.limit, ?_, ?_, ?_, ?_, fun hready => ?_⟩
      · rw [hst.peerClock]; exact hw.backoff
      · rw [hst.peerClock, hst.entered_peer]; exact hw.polls
      · rw [hst.peerClock, hst.entered_peer]; exact hw.wake
      · rw [hst.peerClock, hst.nowEq]; exact hw.since
      · rw [hst.peerClock]
        by_cases hks : k = st.idx
        · subst hks
          rw [hnew (by omega)]
          exact hw.since
        · rw [hboth _ (by omega)]
          exact hw.last (by rw [peer_peer]; omega)
  case passed =>
    intro u hu
    rw [hst.nowEq]
    rcases eq_or_peer s u with rfl | rfl
    · rw [hpc'] at hu; cases hu
    · rw [hst.peerSys] at hu
      rw [hst.peerClock, hpeer, hboth]
      · exact h.passed _ hu
      · have := h.level (peer s) fun _ _ hw => by rw [hw] at hu; cases hu
        rw [peer_peer] at this
        omega
  case work =>
    intro u hu
    rcases eq_or_peer s u with rfl | rfl
    · rw [hpc'] at hu; cases hu
    · rw [hst.peerSys] at hu
      rw [hst.peerClock, hpeer, hboth]
      · exact h.work _ hu
      · have := h.level (peer s) fun _ _ hw => by rw [hw] at hu; cases hu
        rw [peer_peer] at this
        omega

theorem OnTime.start (h : Starts P κ) : OnTime c P κ := by
  have hpc : ∀ s, (κ.sys s).pc = .wait .verify1 0 := fun s => by rw [h.sys]; rfl
  have hplace : ∀ s, place κ s = 0 := fun s => place_waiting (hpc s)
  have hwait : ∀ {s st r}, (κ.sys s).pc = .wait st r → st = .verify1 := fun hw => by
    cases (hpc _).symm.trans hw
    rfl
  constructor
  case lead => intro s; rw [hplace]; exact Nat.zero_le _
  case level => intro s _; rw [hplace, hplace]
  case past => intro s k hk; rw [hplace] at hk; omega
  case later => intro s k hk; rw [hplace] at hk; omega
  case early => intro s k hk; rw [hplace] at hk; omega
  case near => intro s k hk; rw [hplace] at hk; omega
  case first =>
    intro s st r _ _
    obtain ⟨start, hstart, hclock⟩ := h.clock s
    rw [hclock]
    exact hstart
  case wait =>
    intro s st r k hw hk
    rw [hwait hw] at hk
    cases hk
  case passed => intro s hs; rw [hpc] at hs; cases hs
  case work => intro s hs; rw [hpc] at hs; cases hs

end Steps

end PrioProcessor.L4.Timed
