import PrioProcessor.Core.Lts
import Mathlib.Data.List.Rotate
import Mathlib.Data.List.Forall2

/-!
# Workers that exchange messages

Each worker handles the messages of its inbox one at a time. Handling one may
change the worker, and either defers the message (it goes to the back of the
worker's own inbox), sends a message to the worker's peer, sends nothing, or
raises, which stops the worker. A client posts messages of its own.

`step` lets a worker take any message of its inbox; `fifo` only the first.

* `take_cases`: what taking a message does, in all four cases.
* `Sim.run`: handlers that cannot be told apart step by step make systems that
  take the same runs.
* `eventually`: in first-in first-out order, when deferring changes nothing,
  every message that is not deferred lowers a rank, and there is such a message
  in some inbox until the goal is reached, then the goal is reached under every
  schedule in which each worker takes a turn again and again.
-/
namespace PrioProcessor

/-- What handling a message leads to. -/
inductive Reply (M : Type) where
  | again
  | send (m : M)
  | quiet
  deriving DecidableEq, Repr

namespace Mailbox

structure St (P N M : Type) where
  /-- what the client has still to post, and where -/
  todo : List (P × M)
  node : P → N
  inbox : P → List M
  /-- the worker has not raised -/
  alive : P → Bool

inductive Label (P : Type) where
  | post
  | take (p : P) (k : ℕ)
  deriving DecidableEq, Repr

section Step

variable {P N M ε : Type} [DecidableEq P]

def St.deliver (s : St P N M) (p : P) (m : M) : St P N M :=
  { s with inbox := Function.update s.inbox p (s.inbox p ++ [m]) }

/-- The worker `p` took a message, leaving the messages `rest`. -/
def St.took (s : St P N M) (p : P) (n : N) (rest : List M) : St P N M :=
  { s with node := Function.update s.node p n, inbox := Function.update s.inbox p rest }

variable (peer : P → P) (handle : N → M → Except ε (Reply M) × N)

def settle (s : St P N M) (p : P) (m : M) : Except ε (Reply M) → St P N M
  | .ok .again => s.deliver p m
  | .ok (.send m') => s.deliver (peer p) m'
  | .ok .quiet => s
  | .error _ => { s with alive := Function.update s.alive p false }

def step (s : St P N M) : Label P → Option (St P N M)
  | .post => match s.todo with
    | [] => none
    | (p, m) :: todo => some ({ s with todo := todo }.deliver p m)
  | .take p k =>
    if s.alive p then
      (s.inbox p)[k]?.map fun m =>
        let r := handle (s.node p) m
        settle peer (s.took p r.2 ((s.inbox p).eraseIdx k)) p m r.1
    else none

def system (init : St P N M → Prop) : LTS (St P N M) (Label P) := .ofFn init (step peer handle)

/-- The first message of an inbox is taken. -/
def First : Label P → Bool
  | .post => true
  | .take _ k => k == 0

def fifo (init : St P N M → Prop) : LTS (St P N M) (Label P) :=
  (system peer handle init).guard fun _ l => First l = true

variable {peer handle} {s t : St P N M} {p q : P} {m : M} {n : N} {l₁ l₂ rest : List M}

/-! ## Field lemmas -/

@[simp] theorem deliver_node : (s.deliver p m).node = s.node := rfl
@[simp] theorem deliver_alive : (s.deliver p m).alive = s.alive := rfl
@[simp] theorem deliver_todo : (s.deliver p m).todo = s.todo := rfl
@[simp] theorem took_alive : (s.took p n rest).alive = s.alive := rfl
@[simp] theorem took_todo : (s.took p n rest).todo = s.todo := rfl

@[simp] theorem deliver_inbox_self : (s.deliver p m).inbox p = s.inbox p ++ [m] := by
  simp [St.deliver]

theorem deliver_inbox_other (h : q ≠ p) : (s.deliver p m).inbox q = s.inbox q := by
  simp [St.deliver, h]

@[simp] theorem took_node_self : (s.took p n rest).node p = n := by simp [St.took]

theorem took_node_other (h : q ≠ p) : (s.took p n rest).node q = s.node q := by simp [St.took, h]

@[simp] theorem took_inbox_self : (s.took p n rest).inbox p = rest := by simp [St.took]

theorem took_inbox_other (h : q ≠ p) : (s.took p n rest).inbox q = s.inbox q := by
  simp [St.took, h]

/-! ## What a step does -/

theorem post_cases (h : step peer handle s .post = some t) :
    ∃ p m todo, s.todo = (p, m) :: todo ∧ t = { s with todo := todo }.deliver p m := by
  simp only [step] at h
  split at h
  · cases h
  · rename_i p m todo htodo
    cases h
    exact ⟨p, m, todo, htodo, rfl⟩

theorem take_eq (ha : s.alive p = true) (hin : s.inbox p = l₁ ++ m :: l₂) :
    step peer handle s (.take p l₁.length) = some (settle peer
      (s.took p (handle (s.node p) m).2 (l₁ ++ l₂)) p m (handle (s.node p) m).1) := by
  have herase : (l₁ ++ m :: l₂).eraseIdx l₁.length = l₁ ++ l₂ := by
    rw [List.eraseIdx_append_of_length_le (Nat.le_refl _), Nat.sub_self]
    rfl
  have hget : (l₁ ++ m :: l₂)[l₁.length]? = some m := by simp
  simp only [step]
  rw [if_pos ha, hin, herase, hget, Option.map_some]

theorem take_cases {k : ℕ} (h : step peer handle s (.take p k) = some t) :
    ∃ l₁ m l₂, s.alive p = true ∧ s.inbox p = l₁ ++ m :: l₂ ∧ l₁.length = k ∧
      t = settle peer (s.took p (handle (s.node p) m).2 (l₁ ++ l₂)) p m
        (handle (s.node p) m).1 := by
  by_cases ha : s.alive p = true
  · have hk : k < (s.inbox p).length := by
      by_contra hk
      simp only [step] at h
      rw [if_pos ha, List.getElem?_eq_none (by omega)] at h
      cases h
    have hin : s.inbox p = (s.inbox p).take k ++ (s.inbox p)[k] :: (s.inbox p).drop (k + 1) := by
      rw [List.getElem_cons_drop, List.take_append_drop]
    have hlen : ((s.inbox p).take k).length = k := List.length_take_of_le (by omega)
    have heq : step peer handle s (.take p ((s.inbox p).take k).length) = _ := take_eq ha hin
    rw [hlen, h] at heq
    exact ⟨_, _, _, ha, hin, hlen, Option.some.inj heq⟩
  · simp only [step] at h
    rw [if_neg ha] at h
    cases h

/-! ## What is on its way -/

/-- The messages of an inbox and those the client has still to post there. -/
def St.incoming (s : St P N M) (p : P) : List M :=
  s.inbox p ++ s.todo.filterMap fun x => if x.1 = p then some x.2 else none

/-- Posting a message moves it from the client to the inbox. -/
theorem incoming_post {todo : List (P × M)} (h : s.todo = (p, m) :: todo) (q : P) :
    ({ s with todo := todo }.deliver p m).incoming q = s.incoming q := by
  unfold St.incoming
  by_cases hq : q = p
  · subst hq
    simp [h]
  · have hp : ¬ p = q := fun hp => hq hp.symm
    simp [h, deliver_inbox_other hq, hp]

theorem incoming_deliver : ((s.deliver p m).incoming p).Perm (m :: s.incoming p) := by
  unfold St.incoming
  rw [deliver_inbox_self, deliver_todo, List.append_assoc]
  exact List.perm_middle

theorem incoming_deliver_other (h : q ≠ p) : (s.deliver p m).incoming q = s.incoming q := by
  unfold St.incoming
  rw [deliver_inbox_other h, deliver_todo]

theorem incoming_took (h : s.inbox p = l₁ ++ m :: l₂) :
    (s.incoming p).Perm (m :: (s.took p n (l₁ ++ l₂)).incoming p) := by
  unfold St.incoming
  rw [took_inbox_self, took_todo, h, List.append_assoc, List.cons_append, List.append_assoc]
  exact List.perm_middle

theorem incoming_took_other (h : q ≠ p) : (s.took p n rest).incoming q = s.incoming q := by
  unfold St.incoming
  rw [took_inbox_other h, took_todo]

/-- The client posts all it has. -/
theorem post_all (init : St P N M → Prop) (s : St P N M) :
    ∃ ls, (fifo peer handle init).Run s ls { s with todo := [], inbox := s.incoming } := by
  obtain ⟨todo, node, inbox, alive⟩ := s
  induction todo generalizing inbox with
  | nil =>
    refine ⟨[], ?_⟩
    have hsame : (St.mk [] node inbox alive : St P N M).incoming = inbox := by
      funext q
      exact List.append_nil _
    rw [hsame]
    exact .nil _
  | cons x todo ih =>
    obtain ⟨p, m⟩ := x
    obtain ⟨ls, hrun⟩ := ih (Function.update inbox p (inbox p ++ [m]))
    have hin : (St.mk ((p, m) :: todo) node inbox alive : St P N M).incoming =
        (St.mk todo node (Function.update inbox p (inbox p ++ [m])) alive).incoming := by
      funext q
      exact (incoming_post rfl q).symm
    rw [hin]
    exact ⟨.post :: ls, .cons ⟨rfl, rfl⟩ hrun⟩

/-- In first-in first-out order, messages that are neither deferred nor sent by
workers keep their order. -/
theorem fifo_filter {keep : M → Bool} (hagain : ∀ n m, keep m → (handle n m).1 ≠ .ok .again)
    (hsend : ∀ n m m', (handle n m).1 = .ok (.send m') → keep m' = false)
    (hin : s.inbox p = m :: rest)
    (q : P) : (s.incoming q).filter keep =
      (if q = p ∧ keep m then [m] else []) ++
        ((settle peer (s.took p (handle (s.node p) m).2 rest) p m
          (handle (s.node p) m).1).incoming q).filter keep := by
  have htook : (s.incoming q).filter keep = (if q = p ∧ keep m then [m] else []) ++
      ((s.took p (handle (s.node p) m).2 rest).incoming q).filter keep := by
    by_cases hq : q = p
    · subst hq
      unfold St.incoming
      rw [took_inbox_self, took_todo, hin, List.cons_append]
      by_cases hk : keep m <;> simp [hk]
    · rw [incoming_took_other hq]
      simp [hq]
  rw [htook]
  congr 1
  have hdeliver : ∀ r m', keep m' = false →
      (((s.took p (handle (s.node p) m).2 rest).deliver r m').incoming q).filter keep =
        ((s.took p (handle (s.node p) m).2 rest).incoming q).filter keep := fun r m' hm' => by
    by_cases hq : q = r
    · subst hq
      unfold St.incoming
      rw [deliver_inbox_self, deliver_todo]
      simp [hm']
    · rw [incoming_deliver_other hq]
  cases hr : (handle (s.node p) m).1 with
  | error e => rfl
  | ok reply =>
    cases reply with
    | quiet => rfl
    | again =>
      refine (hdeliver p m ?_).symm
      by_contra hk
      exact hagain _ m (by simpa using hk) hr
    | send m' => exact (hdeliver (peer p) m' (hsend _ m m' hr)).symm

end Step

/-! ## Handlers that cannot be told apart -/

section Sim

variable {P N N' M M' ε : Type}

inductive ReplyRel (Q : M → M' → Prop) : Except ε (Reply M) → Except ε (Reply M') → Prop
  | again : ReplyRel Q (.ok .again) (.ok .again)
  | send {m : M} {m' : M'} : Q m m' → ReplyRel Q (.ok (.send m)) (.ok (.send m'))
  | quiet : ReplyRel Q (.ok .quiet) (.ok .quiet)
  | error (e : ε) : ReplyRel Q (.error e) (.error e)

/-- Related workers handle related messages alike. -/
def Sim (handle : N → M → Except ε (Reply M) × N) (handle' : N' → M' → Except ε (Reply M') × N')
    (R : N → N' → Prop) (Q : M → M' → Prop) : Prop :=
  ∀ n n' m m', R n n' → Q m m' → ReplyRel Q (handle n m).1 (handle' n' m').1 ∧
    R (handle n m).2 (handle' n' m').2

structure Related (R : N → N' → Prop) (Q : M → M' → Prop) (s : St P N M) (s' : St P N' M') :
    Prop where
  todo : List.Forall₂ (fun a b => a.1 = b.1 ∧ Q a.2 b.2) s.todo s'.todo
  node : ∀ p, R (s.node p) (s'.node p)
  inbox : ∀ p, List.Forall₂ Q (s.inbox p) (s'.inbox p)
  alive : s.alive = s'.alive

variable {R : N → N' → Prop} {Q : M → M' → Prop} {s t : St P N M} {s' : St P N' M'}

theorem forall2_snoc {l : List M} {l' : List M'} {m : M} {m' : M'} (h : List.Forall₂ Q l l')
    (hm : Q m m') : List.Forall₂ Q (l ++ [m]) (l' ++ [m']) :=
  List.rel_append h (.cons hm .nil)

theorem forall2_split {l₁ l₂ : List M} {l' : List M'} (h : List.Forall₂ Q (l₁ ++ l₂) l') :
    ∃ l₁' l₂', l' = l₁' ++ l₂' ∧ List.Forall₂ Q l₁ l₁' ∧ List.Forall₂ Q l₂ l₂' := by
  induction l₁ generalizing l' with
  | nil => exact ⟨[], l', rfl, .nil, h⟩
  | cons m l₁ ih =>
    obtain ⟨m', l'', hm, hl, rfl⟩ := List.forall₂_cons_left_iff.1 h
    obtain ⟨l₁', l₂', rfl, h₁, h₂⟩ := ih hl
    exact ⟨m' :: l₁', l₂', rfl, .cons hm h₁, h₂⟩

variable {handle : N → M → Except ε (Reply M) × N} {handle' : N' → M' → Except ε (Reply M') × N'}

theorem Sim.flip (h : Sim handle handle' R Q) : Sim handle' handle (flip R) (flip Q) := by
  intro n' n m' m hn hm
  obtain ⟨hreply, hnode⟩ := h n n' m m' hn hm
  refine ⟨?_, hnode⟩
  generalize (handle n m).1 = r at hreply
  generalize (handle' n' m').1 = r' at hreply
  cases hreply with
  | again => exact .again
  | send hq => exact .send hq
  | quiet => exact .quiet
  | error e => exact .error e

theorem Related.flip (h : Related R Q s s') : Related (flip R) (flip Q) s' s where
  todo := by
    have htodo := h.todo.flip
    exact htodo.imp fun _ _ hab => ⟨hab.1.symm, hab.2⟩
  node := h.node
  inbox p := (h.inbox p).flip
  alive := h.alive.symm

variable [DecidableEq P] {peer : P → P}

theorem Related.deliver (h : Related R Q s s') {m : M} {m' : M'} (hm : Q m m') (p : P) :
    Related R Q (s.deliver p m) (s'.deliver p m') where
  todo := h.todo
  node := h.node
  inbox q := by
    by_cases hq : q = p
    · subst hq
      simpa only [deliver_inbox_self] using forall2_snoc (h.inbox q) hm
    · simpa only [deliver_inbox_other hq] using h.inbox q
  alive := h.alive

theorem Related.took (h : Related R Q s s') {n : N} {n' : N'} (hn : R n n') {l : List M}
    {l' : List M'} (hl : List.Forall₂ Q l l') (p : P) :
    Related R Q (s.took p n l) (s'.took p n' l') where
  todo := h.todo
  node q := by
    by_cases hq : q = p
    · subst hq; simpa using hn
    · simpa only [took_node_other hq] using h.node q
  inbox q := by
    by_cases hq : q = p
    · subst hq; simpa using hl
    · simpa only [took_inbox_other hq] using h.inbox q
  alive := h.alive

theorem Related.settle (h : Related R Q s s') {p : P} {m : M} {m' : M'} (hm : Q m m')
    {r : Except ε (Reply M)} {r' : Except ε (Reply M')} (hr : ReplyRel Q r r') :
    Related R Q (settle peer s p m r) (settle peer s' p m' r') := by
  cases hr with
  | again => exact h.deliver hm p
  | send hq => exact h.deliver hq (peer p)
  | quiet => exact h
  | error e => exact ⟨h.todo, h.node, h.inbox, by simp only [Mailbox.settle, h.alive]⟩

theorem Sim.step (hsim : Sim handle handle' R Q) (h : Related R Q s s') {l : Label P}
    (hst : Mailbox.step peer handle s l = some t) :
    ∃ t', Mailbox.step peer handle' s' l = some t' ∧ Related R Q t t' := by
  cases l with
  | post =>
    obtain ⟨p, m, todo, htodo, rfl⟩ := post_cases hst
    have hrel := h.todo
    rw [htodo] at hrel
    obtain ⟨⟨p', m'⟩, todo', ⟨hp, hm⟩, htl, htodo'⟩ := List.forall₂_cons_left_iff.1 hrel
    dsimp only at hp hm
    subst hp
    have hposted : Related R Q { s with todo := todo } { s' with todo := todo' } :=
      ⟨htl, h.node, h.inbox, h.alive⟩
    exact ⟨{ s' with todo := todo' }.deliver p m', by simp only [Mailbox.step, htodo'],
      hposted.deliver hm p⟩
  | take p k =>
    obtain ⟨l₁, m, l₂, ha, hin, rfl, rfl⟩ := take_cases hst
    have hrel := h.inbox p
    rw [hin] at hrel
    obtain ⟨l₁', l', hin', h₁, hl'⟩ := forall2_split hrel
    obtain ⟨m', l₂', hm, h₂, rfl⟩ := List.forall₂_cons_left_iff.1 hl'
    rw [h₁.length_eq]
    refine ⟨_, take_eq (h.alive ▸ ha) hin', ?_⟩
    obtain ⟨hreply, hnode⟩ := hsim _ _ _ _ (h.node p) hm
    exact (h.took hnode (List.rel_append h₁ h₂) p).settle hm hreply

/-- Every run of the one system is a run of the other, between related
states. -/
theorem Sim.run (hsim : Sim handle handle' R Q) {init : St P N M → Prop} {init' : St P N' M' → Prop}
    {ls : List (Label P)} (hr : (system peer handle init).Run s ls t) (h : Related R Q s s') :
    ∃ t', (system peer handle' init').Run s' ls t' ∧ Related R Q t t' := by
  induction hr generalizing s' with
  | nil s => exact ⟨s', .nil s', h⟩
  | cons hst _ ih =>
    obtain ⟨u', hu, hrel⟩ := hsim.step h hst
    obtain ⟨t', hrun, ht⟩ := ih hrel
    exact ⟨t', .cons hu hrun, ht⟩

/-- The same for first-in first-out inboxes. -/
theorem Sim.run_fifo (hsim : Sim handle handle' R Q) {init : St P N M → Prop}
    {init' : St P N' M' → Prop} {ls : List (Label P)} (hr : (fifo peer handle init).Run s ls t)
    (h : Related R Q s s') : ∃ t', (fifo peer handle' init').Run s' ls t' ∧ Related R Q t t' := by
  induction hr generalizing s' with
  | nil s => exact ⟨s', .nil s', h⟩
  | cons hst _ ih =>
    obtain ⟨u', hu, hrel⟩ := hsim.step h hst.1
    obtain ⟨t', hrun, ht⟩ := ih hrel
    exact ⟨t', .cons ⟨hu, hst.2⟩ hrun, ht⟩

end Sim

/-! ## Fair first-in first-out schedules -/

section Fair

variable {P N M ε : Type} [DecidableEq P] (peer : P → P)
  (handle : N → M → Except ε (Reply M) × N)

/-- Worker `p` takes the first message of its inbox, or waits for one. -/
def turn (s : St P N M) (p : P) : St P N M := (step peer handle s (.take p 0)).getD s

/-- The state after the first `n` turns of the schedule `σ`. -/
def trace (σ : ℕ → P) (s : St P N M) : ℕ → St P N M
  | 0 => s
  | n + 1 => turn peer handle (trace σ s n) (σ n)

/-- Each worker takes a turn again and again. -/
def Fair (σ : ℕ → P) : Prop := ∀ p n, ∃ m, n ≤ m ∧ σ m = p

/-- The turns keep `Good`, a message that is not deferred lowers the rank, and
until `Goal` some inbox holds one. -/
structure Progress (Good Goal : St P N M → Prop) (rank : (P → N) → ℕ) : Prop where
  again : ∀ n m, (handle n m).1 = .ok .again → (handle n m).2 = n
  good : ∀ s p, Good s → Good (turn peer handle s p)
  lower : ∀ s p m l, Good s → s.alive p = true → s.inbox p = m :: l →
    (handle (s.node p) m).1 ≠ .ok .again → rank (turn peer handle s p).node < rank s.node
  find : ∀ s, Good s → ¬ Goal s →
    ∃ p m, s.alive p = true ∧ m ∈ s.inbox p ∧ (handle (s.node p) m).1 ≠ .ok .again

/-- A turn in which `p` deferred its first message, or had none. -/
structure Stall (p : P) (s t : St P N M) : Prop where
  node : t.node = s.node
  alive : t.alive = s.alive
  other : ∀ q, q ≠ p → t.inbox q = s.inbox q
  own : s.alive p = true → t.inbox p = (s.inbox p).rotate 1

/-- A message that would not be deferred is at place `j` of the inbox of `p`. -/
structure Waits (p : P) (m : M) (j : ℕ) (s : St P N M) : Prop where
  alive : s.alive p = true
  place : (s.inbox p)[j]? = some m
  due : (handle (s.node p) m).1 ≠ .ok .again

variable {peer handle} {s : St P N M} {p q : P} {m : M} {Good Goal : St P N M → Prop}
  {rank : (P → N) → ℕ} {σ : ℕ → P}

theorem fifo_trace {init : St P N M → Prop} (σ : ℕ → P)
    (hr : (fifo peer handle init).Reachable s) :
    ∀ n, (fifo peer handle init).Reachable (trace peer handle σ s n)
  | 0 => hr
  | n + 1 => by
    have ih := fifo_trace σ hr n
    unfold trace turn
    cases hst : step peer handle (trace peer handle σ s n) (.take (σ n) 0) with
    | none => exact ih
    | some t => exact ih.step ⟨hst, rfl⟩

theorem turn_cons {l : List M} (ha : s.alive p = true) (hin : s.inbox p = m :: l) :
    turn peer handle s p = settle peer (s.took p (handle (s.node p) m).2 l) p m
      (handle (s.node p) m).1 := by
  have h : step peer handle s (.take p ([] : List M).length) = _ := take_eq ha hin
  unfold turn
  rw [List.length_nil] at h
  rw [h]
  rfl

theorem turn_idle (h : s.alive p = true → s.inbox p = []) : turn peer handle s p = s := by
  unfold turn
  by_cases ha : s.alive p = true
  · simp [step, ha, h ha]
  · simp [step, ha]

theorem turn_stall (hagain : ∀ n m, (handle n m).1 = .ok .again → (handle n m).2 = n)
    (h : ∀ m l, s.alive p = true → s.inbox p = m :: l → (handle (s.node p) m).1 = .ok .again) :
    Stall p s (turn peer handle s p) := by
  by_cases hidle : s.alive p = true → s.inbox p = []
  · rw [turn_idle hidle]
    exact ⟨rfl, rfl, fun _ _ => rfl, fun ha => by rw [hidle ha]; rfl⟩
  · obtain ⟨ha, hne⟩ := Classical.not_imp.1 hidle
    obtain ⟨m, l, hin⟩ := List.exists_cons_of_ne_nil hne
    have hdef := h m l ha hin
    rw [turn_cons ha hin, hdef, hagain _ _ hdef]
    refine ⟨?_, rfl, fun q hq => ?_, fun _ => ?_⟩
    · exact Function.update_eq_self p s.node
    · simp only [settle, deliver_inbox_other hq, took_inbox_other hq]
    · simp only [settle, deliver_inbox_self, took_inbox_self, hin, List.rotate_cons_succ,
        List.rotate_zero]

/-- A turn lowers the rank or brings a message that waits nearer to the front
of the inbox of the worker whose turn it is. -/
theorem Progress.waits_turn (hP : Progress peer handle Good Goal rank) (hs : Good s) {j : ℕ}
    (hw : Waits handle p m j s) (q : P) :
    rank (turn peer handle s q).node < rank s.node ∨
      (rank (turn peer handle s q).node = rank s.node ∧
        ∃ i, i ≤ j ∧ (q = p → i < j) ∧ Waits handle p m i (turn peer handle s q)) := by
  by_cases hdue : ∃ m' l, s.alive q = true ∧ s.inbox q = m' :: l ∧
      (handle (s.node q) m').1 ≠ .ok .again
  · obtain ⟨m', l, ha, hin, hne⟩ := hdue
    exact .inl (hP.lower s q m' l hs ha hin hne)
  · have hst : Stall q s (turn peer handle s q) := turn_stall hP.again fun m' l ha hin => by
      by_contra hne
      exact hdue ⟨m', l, ha, hin, hne⟩
    refine .inr ⟨by rw [hst.node], ?_⟩
    by_cases hq : q = p
    · subst hq
      have hlt : j < (s.inbox q).length := List.getElem?_eq_some_iff.1 hw.place |>.1
      -- the first message was deferred, so it is not the one that waits
      have hj : j ≠ 0 := by
        rintro rfl
        obtain ⟨x, l, hin⟩ := List.exists_cons_of_length_pos hlt
        have hx : x = m := by simpa [hin] using hw.place
        subst hx
        exact hdue ⟨x, l, hw.alive, hin, hw.due⟩
      refine ⟨j - 1, by omega, fun _ => by omega, by rw [hst.alive]; exact hw.alive, ?_,
        by rw [hst.node]; exact hw.due⟩
      rw [hst.own hw.alive, List.getElem?_rotate (by omega), Nat.sub_add_cancel (by omega),
        Nat.mod_eq_of_lt hlt]
      exact hw.place
    · exact ⟨j, Nat.le_refl j, fun h => absurd h hq, by rw [hst.alive]; exact hw.alive,
        by rw [hst.other p (Ne.symm hq)]; exact hw.place, by rw [hst.node]; exact hw.due⟩

theorem Progress.good_trace (hP : Progress peer handle Good Goal rank) (hs : Good s) :
    ∀ n, Good (trace peer handle σ s n)
  | 0 => hs
  | n + 1 => hP.good _ _ (hP.good_trace hs n)

/-- The rank has been lowered by the `d`-th turn from the `n`-th on, or the
message still waits, no further from the front. -/
theorem Progress.waits_trace (hP : Progress peer handle Good Goal rank) (hs : Good s) {n j : ℕ}
    (hw : Waits handle p m j (trace peer handle σ s n)) :
    ∀ d, (∃ k, n ≤ k ∧
        rank (trace peer handle σ s k).node < rank (trace peer handle σ s n).node) ∨
      (rank (trace peer handle σ s (n + d)).node = rank (trace peer handle σ s n).node ∧
        ∃ i, i ≤ j ∧ Waits handle p m i (trace peer handle σ s (n + d)))
  | 0 => .inr ⟨rfl, j, Nat.le_refl j, hw⟩
  | d + 1 => by
    rcases hP.waits_trace hs hw d with hlow | ⟨hrank, i, hi, hwi⟩
    · exact .inl hlow
    · rcases hP.waits_turn (hP.good_trace hs _) hwi (σ (n + d)) with hlt | ⟨heq, i', hi', -, hwi'⟩
      · exact .inl ⟨n + d + 1, by omega, by rw [← hrank]; exact hlt⟩
      · exact .inr ⟨heq.trans hrank, i', by omega, hwi'⟩

/-- A message that waits leads to a lower rank: whenever its worker takes a
turn, it gets nearer to the front. -/
theorem Progress.served (hP : Progress peer handle Good Goal rank) (hs : Good s) (hf : Fair σ)
    (j n : ℕ) (hw : Waits handle p m j (trace peer handle σ s n)) :
    ∃ k, n ≤ k ∧ rank (trace peer handle σ s k).node < rank (trace peer handle σ s n).node := by
  induction j using Nat.strong_induction_on generalizing n with
  | _ j ih =>
    obtain ⟨t, hnt, ht⟩ := hf p n
    rcases hP.waits_trace hs hw (t - n) with hlow | ⟨hrank, i, hi, hwi⟩
    · exact hlow
    · rw [Nat.add_sub_cancel' hnt] at hrank hwi
      rcases hP.waits_turn (hP.good_trace hs t) hwi (σ t) with hlt | ⟨heq, i', -, hlt, hwi'⟩
      · exact ⟨t + 1, by omega, by rw [← hrank]; exact hlt⟩
      · obtain ⟨k, hk, hlow⟩ := ih i' (by have := hlt ht; omega) (t + 1) hwi'
        exact ⟨k, by omega, hlow.trans_eq (heq.trans hrank)⟩

/-- Under a fair schedule the goal is reached. -/
theorem Progress.eventually (hP : Progress peer handle Good Goal rank) (hs : Good s)
    (hf : Fair σ) : ∃ n, Goal (trace peer handle σ s n) := by
  by_contra hno
  have hlow : ∀ n, ∃ k, n ≤ k ∧
      rank (trace peer handle σ s k).node < rank (trace peer handle σ s n).node := fun n => by
    obtain ⟨p, m, ha, hm, hdue⟩ := hP.find _ (hP.good_trace hs n) fun hg => hno ⟨n, hg⟩
    obtain ⟨j, hj⟩ := List.getElem?_of_mem hm
    exact hP.served hs hf j n ⟨ha, hj, hdue⟩
  have hall : ∀ r n, rank (trace peer handle σ s n).node ≠ r := fun r => by
    induction r using Nat.strong_induction_on with
    | _ r ih =>
      intro n hr
      obtain ⟨k, -, hk⟩ := hlow n
      exact ih _ (hr ▸ hk) k rfl
  exact hall _ 0 rfl

end Fair

section Related

variable {P N N' M M' ε : Type} [DecidableEq P] {peer : P → P}
  {handle : N → M → Except ε (Reply M) × N} {handle' : N' → M' → Except ε (Reply M') × N'}
  {R : N → N' → Prop} {Q : M → M' → Prop} {s : St P N M} {s' : St P N' M'}

/-- Related systems stay related turn by turn. -/
theorem Sim.turn (hsim : Sim handle handle' R Q) (h : Related R Q s s') (p : P) :
    Related R Q (turn peer handle s p) (turn peer handle' s' p) := by
  unfold Mailbox.turn
  cases hst : Mailbox.step peer handle s (.take p 0) with
  | some t =>
    obtain ⟨t', hst', ht⟩ := hsim.step h hst
    rw [hst']
    exact ht
  | none =>
    cases hst' : Mailbox.step peer handle' s' (.take p 0) with
    | none => exact h
    | some t' =>
      obtain ⟨t, ht, -⟩ := hsim.flip.step h.flip hst'
      rw [hst] at ht
      cases ht

theorem Sim.trace (hsim : Sim handle handle' R Q) (h : Related R Q s s') (σ : ℕ → P) :
    ∀ n, Related R Q (trace peer handle σ s n) (trace peer handle' σ s' n)
  | 0 => h
  | n + 1 => hsim.turn (hsim.trace h σ n) (σ n)

end Related

end Mailbox

end PrioProcessor
