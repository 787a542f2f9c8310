import PrioProcessor.L6Exchange.Consume
import PrioProcessor.Core.Lockstep
import Mathlib.Data.List.Nodup
import Mathlib.Data.List.Perm.Basic

/-!
# The two servers and their queues

The servers of examples/asyncio take turns on their queues while a client puts
its shares there: a transition system (`exchange`) over the two servers, the two
queues and what the client has still to send. Packets may be taken in any order.

`Inv` holds in every reachable state. Its first half (`Nodes`) is about the
servers: an open client's verifier holds the share the client sent, verify2
packets are made from the verify1 packets of both servers, a share is aggregated
once and only where the two verify2 packets are valid, and the accumulator is the
sum of the shares aggregated. Its second half (`Wires`) says which packets can be
on their way: those the other server has sent and this one has not handled.

* `step_effect`, `turn_moves`: what a step can do, given the invariant.
* `inv_reachable`.
-/
namespace PrioProcessor.L6

open L1 L1.Wrapper Mailbox

/-- What the servers are made from. -/
structure Setup (L : Libprio) where
  config : ServerId → L.Config
  key : ServerId → L.PrivateKey
  secret : ServerId → Bytes

def Setup.ident {L : Libprio} (S : Setup L) (p : ServerId) : Ident L :=
  ⟨S.config p, p, S.key p, S.secret p⟩

abbrev Sys (L : Libprio) (ι : Type) : Type := Mailbox.St ServerId (Node L ι) (Packet L ι)

section Model

variable {L : Libprio} {ι : Type}

def Setup.server (S : Setup L) (p : ServerId) : Server L :=
  newServer L (S.config p) p (S.key p) (S.secret p)

/-- The packets of the clients, in the order they are put.
mirrors examples/asyncio/main.py:73-78 -/
def sends (ids : List ι) (share : ServerId → ι → Bytes) : List (ServerId × Packet L ι) :=
  ids.flatMap fun u => [(.A, ⟨u, .data (share .A u)⟩), (.B, ⟨u, .data (share .B u)⟩)]

def start (S : Setup L) (ids : List ι) (share : ServerId → ι → Bytes) : Sys L ι where
  todo := sends ids share
  node p := ⟨S.server p, fun _ => none, []⟩
  inbox _ := []
  alive _ := true

variable [DecidableEq ι]

/-- One step of a server or of the client. -/
def exchangeStep : Sys L ι → Label ServerId → Option (Sys L ι) :=
  Mailbox.step otherServer (serverConsume L)

def exchange (S : Setup L) (ids : List ι) (share : ServerId → ι → Bytes) :
    LTS (Sys L ι) (Label ServerId) :=
  Mailbox.system otherServer (serverConsume L) fun s => s = start S ids share

end Model

variable {L : Libprio} {ι : Type}

@[simp] theorem update_other {α : Type} (f : ServerId → α) (p : ServerId) (a : α) :
    Function.update f p a (otherServer p) = f (otherServer p) :=
  Function.update_of_ne (otherServer_ne p) a f

/-! ## The servers -/

/-- What the two verify2 packets of a client say, once both are made. -/
def verdict (V : View L) (node : ServerId → Node L ι) (p : ServerId) (u : ι) : Option Bool := do
  let o ← (node p).sent2 u
  let o' ← (node (otherServer p)).sent2 u
  let q ← V.seen2 o.value
  let q' ← V.seen2 o'.value
  pure (V.valid q q')

structure Nodes (V : View L) (S : Setup L) (ids : List ι) (share : ServerId → ι → Bytes)
    (node : ServerId → Node L ι) : Prop where
  ident : ∀ p, V.ident (node p).server.inst = S.ident p
  opened : ∀ p u c, (node p).cache u = some c →
    u ∈ ids ∧ ∃ r x, Opened V (S.ident p) (share p u) c r x
  answered : ∀ p u c o, (node p).cache u = some c → c.p2 = some o →
    ∃ c' r x r' y q, (node (otherServer p)).cache u = some c' ∧
      Opened V (S.ident p) (share p u) c r x ∧
      Opened V (S.ident (otherServer p)) (share (otherServer p) u) c' r' y ∧
      Answered V (S.ident p) (share p u) r x y o q
  added : ∀ p u, u ∈ (node p).added → verdict V node p u = some true
  invalid : ∀ p u, (u, .invalidData) ∈ (node p).log → verdict V node p u = some false
  once : ∀ p, (node p).closed.Nodup
  acc : ∀ p, V.acc (node p).server.inst =
    ((node p).added.map fun u => V.data (S.ident p) (share p u)).sum

section Nodes

variable {V : View L} {S : Setup L} {ids : List ι} {share : ServerId → ι → Bytes}
  {node node' : ServerId → Node L ι} {p : ServerId} {u w : ι} {c : Cached L} {line : Line}
  {n : Node L ι}

theorem verdict_congr (h : ∀ q, (node' q).sent2 u = (node q).sent2 u) :
    verdict V node' p u = verdict V node p u := by
  unfold verdict
  rw [h, h]

/-- A verdict stays when packets stay. -/
theorem verdict_mono {b : Bool}
    (h : ∀ q o, (node q).sent2 u = some o → (node' q).sent2 u = some o)
    (hv : verdict V node p u = some b) : verdict V node' p u = some b := by
  simp only [verdict, Option.bind_eq_bind, Option.bind_eq_some_iff] at hv ⊢
  obtain ⟨o, ho, o', ho', q, hq, q', hq', hb⟩ := hv
  exact ⟨o, h _ _ ho, o', h _ _ ho', q, hq, q', hq', hb⟩

/-- Both servers come to the same verdict. -/
theorem verdict_symm (hsymm : V.SymmLaw) (p : ServerId) (u : ι) :
    verdict V node (otherServer p) u = verdict V node p u := by
  simp only [verdict, otherServer_otherServer, Option.bind_eq_bind]
  cases (node p).sent2 u with
  | none => cases (node (otherServer p)).sent2 u <;> rfl
  | some o =>
    cases (node (otherServer p)).sent2 u with
    | none => rfl
    | some o' =>
      simp only [Option.bind_some]
      cases V.seen2 o.value with
      | none => cases V.seen2 o'.value <;> rfl
      | some q =>
        cases V.seen2 o'.value with
        | none => rfl
        | some q' => simp only [Option.bind_some, hsymm q q']

theorem added_logged : (n.logged u line).added =
    n.added ++ if line = .aggregateData then [u] else [] := by
  unfold Node.added
  rw [logged_log, List.filterMap_append]
  by_cases hl : line = .aggregateData <;> simp [hl]

theorem closed_logged : (n.logged u line).closed =
    n.closed ++ if line = .aggregateData ∨ line = .invalidData then [u] else [] := by
  unfold Node.closed
  rw [logged_log, List.filterMap_append]
  by_cases hl : line = .aggregateData ∨ line = .invalidData <;> simp [hl]

theorem added_subset_closed : n.added ⊆ n.closed := fun _ h =>
  mem_closed.2 (.inl (mem_added.1 h))

/-- Logging a packet that is generated, with a server that has added nothing. -/
theorem Nodes.generated (h : Nodes V S ids share node) {server : Server L}
    (hid : V.ident server.inst = V.ident (node p).server.inst)
    (hacc : V.acc server.inst = V.acc (node p).server.inst)
    (hline : line = .generateVerify1 ∨ line = .generateVerify2) :
    Nodes V S ids share
      (Function.update node p { (node p).logged u line with server := server }) := by
  have hsent : ∀ q w,
      (Function.update node p { (node p).logged u line with server := server } q).sent2
      w = (node q).sent2 w := fun q w => by
    rcases eq_or_eq_other p q with rfl | rfl <;> simp [Node.sent2]
  have hcache : ∀ q,
      (Function.update node p { (node p).logged u line with server := server } q).cache =
      (node q).cache := fun q => by
    rcases eq_or_eq_other p q with rfl | rfl <;> simp
  have hadded : ∀ q,
      (Function.update node p { (node p).logged u line with server := server } q).added =
      (node q).added := fun q => by
    rcases eq_or_eq_other p q with rfl | rfl
    · rw [Function.update_self]
      refine added_logged.trans ?_
      rcases hline with rfl | rfl <;> simp
    · rw [update_other]
  refine ⟨fun q => ?_, fun q w c hc => ?_, fun q w c o hc => ?_, fun q w hw => ?_, fun q w hw => ?_,
    fun q => ?_, fun q => ?_⟩
  · rcases eq_or_eq_other p q with rfl | rfl
    · simpa [hid] using h.ident q
    · simpa using h.ident (otherServer p)
  · rw [hcache] at hc
    exact h.opened q w c hc
  · rw [hcache] at hc ⊢
    exact h.answered q w c o hc
  · rw [hadded] at hw
    rw [verdict_congr fun q' => hsent q' w]
    exact h.added q w hw
  · rw [verdict_congr fun q' => hsent q' w]
    refine h.invalid q w ?_
    rcases eq_or_eq_other p q with rfl | rfl
    · rcases hline with rfl | rfl <;> simpa using hw
    · simpa using hw
  · rcases eq_or_eq_other p q with rfl | rfl
    · rw [Function.update_self]
      have hclosed : ({ (node q).logged u line with server := server } : Node L ι).closed =
          (node q).closed := by
        refine closed_logged.trans ?_
        rcases hline with rfl | rfl <;> simp
      rw [hclosed]
      exact h.once q
    · rw [update_other]
      exact h.once _
  · rw [hadded]
    rcases eq_or_eq_other p q with rfl | rfl
    · simpa [hacc] using h.acc q
    · simpa using h.acc (otherServer p)

variable [DecidableEq ι]

theorem sent2_store_other (hw : w ≠ u) : (n.store u c).sent2 w = n.sent2 w := by
  simp [Node.sent2, store_cache_other hw]

/-- An entry that keeps the packets made so far. -/
theorem Nodes.stored (h : Nodes V S ids share node)
    (hkeep : ∀ c₀, (node p).cache u = some c₀ → c.v = c₀.v ∧ c.p1 = c₀.p1 ∧ c₀.p2 = none)
    (hopened : u ∈ ids ∧ ∃ r x, Opened V (S.ident p) (share p u) c r x)
    (hanswered : ∀ o, c.p2 = some o → ∃ c' r x r' y q, (node (otherServer p)).cache u = some c' ∧
      Opened V (S.ident p) (share p u) c r x ∧
      Opened V (S.ident (otherServer p)) (share (otherServer p) u) c' r' y ∧
      Answered V (S.ident p) (share p u) r x y o q) :
    Nodes V S ids share (Function.update node p ((node p).store u c)) := by
  have hsent : ∀ q w o, (node q).sent2 w = some o →
      (Function.update node p ((node p).store u c) q).sent2 w = some o := fun q w o ho => by
    rcases eq_or_eq_other p q with rfl | rfl
    · rw [Function.update_self]
      by_cases hw : w = u
      · subst hw
        simp only [Node.sent2, Option.bind_eq_some_iff] at ho
        obtain ⟨c₀, hc₀, ho⟩ := ho
        rw [(hkeep c₀ hc₀).2.2] at ho
        cases ho
      · rw [sent2_store_other hw]; exact ho
    · rwa [update_other]
  refine ⟨fun q => ?_, fun q w d hd => ?_, fun q w d o hd ho => ?_, fun q w hw => ?_,
    fun q w hw => ?_, fun q => ?_, fun q => ?_⟩
  · rcases eq_or_eq_other p q with rfl | rfl
    · simpa using h.ident q
    · simpa using h.ident (otherServer p)
  · rcases eq_or_eq_other p q with rfl | rfl
    · rw [Function.update_self] at hd
      by_cases hw : w = u
      · subst hw
        rw [store_cache_self] at hd
        cases hd
        exact hopened
      · rw [store_cache_other hw] at hd
        exact h.opened q w d hd
    · rw [update_other] at hd
      exact h.opened _ w d hd
  · rcases eq_or_eq_other p q with rfl | rfl
    · rw [Function.update_self] at hd
      rw [update_other]
      by_cases hw : w = u
      · subst hw
        rw [store_cache_self] at hd
        cases hd
        exact hanswered o ho
      · rw [store_cache_other hw] at hd
        exact h.answered q w d o hd ho
    · rw [update_other] at hd
      obtain ⟨c', r, x, r', y, q', hc', hx, hy, ha⟩ := h.answered _ w d o hd ho
      rw [otherServer_otherServer] at hc' hy ⊢
      rw [Function.update_self]
      by_cases hw : w = u
      · subst hw
        obtain ⟨hv, hp1, -⟩ := hkeep c' hc'
        refine ⟨c, r, x, r', y, q', store_cache_self, hx, ⟨?_, ?_, ?_, hy.made⟩, ha⟩
        · rw [hv]; exact hy.held
        · rw [hp1]; exact hy.pending
        · rw [hp1]; exact hy.seen
      · exact ⟨c', r, x, r', y, q', by rwa [store_cache_other hw], hx, hy, ha⟩
  · refine verdict_mono (fun q' => hsent q' w) (h.added q w ?_)
    rcases eq_or_eq_other p q with rfl | rfl
    · simpa [Node.added] using hw
    · simpa using hw
  · refine verdict_mono (fun q' => hsent q' w) (h.invalid q w ?_)
    rcases eq_or_eq_other p q with rfl | rfl
    · simpa using hw
    · simpa using hw
  · rcases eq_or_eq_other p q with rfl | rfl
    · simpa [Node.closed] using h.once q
    · simpa using h.once (otherServer p)
  · rcases eq_or_eq_other p q with rfl | rfl
    · simpa [Node.added] using h.acc q
    · simpa using h.acc (otherServer p)

omit [DecidableEq ι] in
/-- The verdict on a client is carried out. -/
theorem Nodes.closedOn (h : Nodes V S ids share node) {server : Server L} {b : Bool}
    (hv : verdict V node p u = some b) (hu : u ∉ (node p).closed)
    (hid : V.ident server.inst = V.ident (node p).server.inst)
    (hacc : V.acc server.inst = V.acc (node p).server.inst +
      if b then V.data (S.ident p) (share p u) else 0)
    (hline : line = if b then .aggregateData else .invalidData) :
    Nodes V S ids share
      (Function.update node p { (node p).logged u line with server := server }) := by
  have hsent : ∀ q w,
      (Function.update node p { (node p).logged u line with server := server } q).sent2
      w = (node q).sent2 w := fun q w => by
    rcases eq_or_eq_other p q with rfl | rfl <;> simp [Node.sent2]
  have hcache : ∀ q,
      (Function.update node p { (node p).logged u line with server := server } q).cache =
      (node q).cache := fun q => by
    rcases eq_or_eq_other p q with rfl | rfl <;> simp
  have hadded : ({ (node p).logged u line with server := server } : Node L ι).added =
      (node p).added ++ if b then [u] else [] := by
    refine added_logged.trans ?_
    cases b <;> simp [hline]
  refine ⟨fun q => ?_, fun q w c hc => ?_, fun q w c o hc => ?_, fun q w hw => ?_, fun q w hw => ?_,
    fun q => ?_, fun q => ?_⟩
  · rcases eq_or_eq_other p q with rfl | rfl
    · simpa [hid] using h.ident q
    · simpa using h.ident (otherServer p)
  · rw [hcache] at hc
    exact h.opened q w c hc
  · rw [hcache] at hc ⊢
    exact h.answered q w c o hc
  · rw [verdict_congr fun q' => hsent q' w]
    rcases eq_or_eq_other p q with rfl | rfl
    · rw [Function.update_self, hadded, List.mem_append] at hw
      rcases hw with hw | hw
      · exact h.added q w hw
      · cases b with
        | false => simp at hw
        | true =>
          have hwu : w = u := by simpa using hw
          rw [hwu]; exact hv
    · rw [update_other] at hw
      exact h.added _ w hw
  · rw [verdict_congr fun q' => hsent q' w]
    rcases eq_or_eq_other p q with rfl | rfl
    · rw [Function.update_self] at hw
      rcases List.mem_append.1 hw with hw | hw
      · exact h.invalid q w hw
      · cases b with
        | false =>
          have hwu : w = u := by simpa [hline] using hw
          rw [hwu]; exact hv
        | true => simp [hline] at hw
    · rw [update_other] at hw
      exact h.invalid _ w hw
  · rcases eq_or_eq_other p q with rfl | rfl
    · rw [Function.update_self]
      have hclosed : ({ (node q).logged u line with server := server } : Node L ι).closed =
          (node q).closed ++ [u] := by
        refine closed_logged.trans ?_
        cases b <;> simp [hline]
      rw [hclosed]
      exact List.nodup_append_comm.1 (List.nodup_cons.2 ⟨hu, h.once q⟩)
    · rw [update_other]
      exact h.once _
  · rcases eq_or_eq_other p q with rfl | rfl
    · rw [Function.update_self, hadded, hacc, h.acc q]
      cases b <;> simp
    · simpa using h.acc (otherServer p)

end Nodes

/-! ## What is on its way -/

/-- The packets `l` on their way to server `p` are some of those the other
server, or the client, has sent and `p` has not handled; each is there once. -/
structure Wires (ids : List ι) (share : ServerId → ι → Bytes) (node : ServerId → Node L ι)
    (p : ServerId) (l : List (Packet L ι)) : Prop where
  nodup : (l.map Packet.key).Nodup
  data : ∀ u b, ⟨u, .data b⟩ ∈ l → b = share p u ∧ u ∈ ids ∧ (node p).cache u = none
  verify1 : ∀ u o, ⟨u, .verify1 o⟩ ∈ l →
    (node p).sent2 u = none ∧ (node (otherServer p)).sent1 u = some o
  verify2 : ∀ u o, ⟨u, .verify2 o⟩ ∈ l →
    u ∉ (node p).closed ∧ (node (otherServer p)).sent2 u = some o

section Wires

variable {ids : List ι} {share : ServerId → ι → Bytes} {node node' : ServerId → Node L ι}
  {p : ServerId} {u w : ι} {l l' : List (Packet L ι)} {m : Packet L ι}

theorem Wires.perm (h : Wires ids share node p l) (hl : l'.Perm l) : Wires ids share node p l' where
  nodup := (hl.map Packet.key).nodup_iff.2 h.nodup
  data u b hm := h.data u b (hl.mem_iff.1 hm)
  verify1 u o hm := h.verify1 u o (hl.mem_iff.1 hm)
  verify2 u o hm := h.verify2 u o (hl.mem_iff.1 hm)

theorem Wires.tail (h : Wires ids share node p (m :: l)) : Wires ids share node p l where
  nodup := (List.nodup_cons.1 h.nodup).2
  data u b hm := h.data u b (.tail _ hm)
  verify1 u o hm := h.verify1 u o (.tail _ hm)
  verify2 u o hm := h.verify2 u o (.tail _ hm)

/-- No second packet of the same kind about the same client. -/
theorem Wires.ne (h : Wires ids share node p (m :: l)) {m' : Packet L ι} (hm : m' ∈ l)
    (hk : m'.body.kind = m.body.kind) : m'.id ≠ m.id := fun hid =>
  (List.nodup_cons.1 h.nodup).1 (List.mem_map.2 ⟨m', hm, by simp only [Packet.key, hid, hk]⟩)

theorem Wires.cons (h : Wires ids share node p l) (hm : m.key ∉ l.map Packet.key)
    (hdata : ∀ u b, m = ⟨u, .data b⟩ → b = share p u ∧ u ∈ ids ∧ (node p).cache u = none)
    (hverify1 : ∀ u o, m = ⟨u, .verify1 o⟩ →
      (node p).sent2 u = none ∧ (node (otherServer p)).sent1 u = some o)
    (hverify2 : ∀ u o, m = ⟨u, .verify2 o⟩ →
      u ∉ (node p).closed ∧ (node (otherServer p)).sent2 u = some o) :
    Wires ids share node p (m :: l) where
  nodup := List.nodup_cons.2 ⟨hm, h.nodup⟩
  data u b hu := (List.mem_cons.1 hu).elim (fun hu => hdata u b hu.symm) (h.data u b)
  verify1 u o hu := (List.mem_cons.1 hu).elim (fun hu => hverify1 u o hu.symm) (h.verify1 u o)
  verify2 u o hu := (List.mem_cons.1 hu).elim (fun hu => hverify2 u o hu.symm) (h.verify2 u o)

theorem key_mem {k : ι × Kind} : k ∈ l.map Packet.key ↔
    ∃ m ∈ l, m.id = k.1 ∧ m.body.kind = k.2 := by
  simp only [List.mem_map, Packet.key, Prod.ext_iff]

/-- The servers moved on without touching what the packets are about. -/
theorem Wires.congr (h : Wires ids share node p l)
    (hdata : ∀ u b, ⟨u, .data b⟩ ∈ l → (node' p).cache u = (node p).cache u)
    (hown : ∀ u o, ⟨u, .verify1 o⟩ ∈ l → (node' p).sent2 u = (node p).sent2 u)
    (hclosed : ∀ u o, ⟨u, .verify2 o⟩ ∈ l → u ∈ (node' p).closed → u ∈ (node p).closed)
    (hsent1 : ∀ u o, ⟨u, .verify1 o⟩ ∈ l → (node (otherServer p)).sent1 u = some o →
      (node' (otherServer p)).sent1 u = some o)
    (hsent2 : ∀ u o, ⟨u, .verify2 o⟩ ∈ l → (node (otherServer p)).sent2 u = some o →
      (node' (otherServer p)).sent2 u = some o) :
    Wires ids share node' p l where
  nodup := h.nodup
  data u b hm := by
    rw [hdata u b hm]
    exact h.data u b hm
  verify1 u o hm := by
    rw [hown u o hm]
    exact ⟨(h.verify1 u o hm).1, hsent1 u o hm (h.verify1 u o hm).2⟩
  verify2 u o hm :=
    ⟨fun hc => (h.verify2 u o hm).1 (hclosed u o hm hc), hsent2 u o hm (h.verify2 u o hm).2⟩

end Wires

/-! ## What a step does -/

/-- What holds in every reachable state. -/
structure Inv (V : View L) (S : Setup L) (ids : List ι) (share : ServerId → ι → Bytes)
    (s : Sys L ι) : Prop where
  nodes : Nodes V S ids share s.node
  wires : ∀ p, Wires ids share s.node p (s.incoming p)

variable [DecidableEq ι]

/-- What handling a packet can do to the servers and to the packets on their
way. -/
inductive Moves (V : View L) (S : Setup L) (share : ServerId → ι → Bytes) (s t : Sys L ι) : Prop
  | opens (p : ServerId) (u : ι) (c : Cached L) (server : Server L) (r : V.Point) (x : Bytes)
      (hnode : t.node = Function.update s.node p
        ({ (s.node p).logged u .generateVerify1 with server := server }.store u c))
      (halive : t.alive = s.alive)
      (hout : (s.incoming p).Perm (⟨u, .data (share p u)⟩ :: t.incoming p))
      (hin : (t.incoming (otherServer p)).Perm (⟨u, .verify1 c.p1⟩ :: s.incoming (otherServer p)))
      (hserver : server = (createVerifier L (s.node p).server (share p u)).2)
      (hc : c.p2 = none) (hopened : Opened V (S.ident p) (share p u) c r x)
      (hinst : c.v.inst = (L.prioVerifierSetData (s.node p).server.inst
        (L.prioVerifierNew (s.node p).server.inst) (share p u)).2.2)
      (hdecodes : V.decodes (S.ident p) (share p u) = true)
  | fails (p : ServerId) (u : ι)
      (hnode : t.node = Function.update s.node p { (s.node p).logged u .generateVerify1 with
        server := (createVerifier L (s.node p).server (share p u)).2 })
      (halive : t.alive = Function.update s.alive p false)
      (hout : (s.incoming p).Perm (⟨u, .data (share p u)⟩ :: t.incoming p))
      (hin : t.incoming (otherServer p) = s.incoming (otherServer p))
      (hdecodes : V.decodes (S.ident p) (share p u) ≠ true)
  | answers (p : ServerId) (u : ι) (c c' : Cached L) (o : PacketVerify2 L) (r r' : V.Point)
      (x y q : Bytes)
      (hnode : t.node = Function.update s.node p
        (((s.node p).logged u .generateVerify2).store u { c with p2 := some o }))
      (halive : t.alive = s.alive)
      (hout : (s.incoming p).Perm (⟨u, .verify1 c'.p1⟩ :: t.incoming p))
      (hin : (t.incoming (otherServer p)).Perm (⟨u, .verify2 o⟩ :: s.incoming (otherServer p)))
      (hcache : (s.node p).cache u = some c)
      (hcache' : (s.node (otherServer p)).cache u = some c')
      (hopened : Opened V (S.ident p) (share p u) c r x)
      (hopened' : Opened V (S.ident (otherServer p)) (share (otherServer p) u) c' r' y)
      (hanswered : Answered V (S.ident p) (share p u) r x y o q)
  | closes (p : ServerId) (u : ι) (c : Cached L) (o o' : PacketVerify2 L) (b : Bool)
      (hnode : t.node = Function.update s.node p
        (if b then { (s.node p).logged u .aggregateData with
          server := (aggregate L (s.node p).server c.v).2 }
        else (s.node p).logged u .invalidData))
      (halive : t.alive = s.alive)
      (hout : (s.incoming p).Perm (⟨u, .verify2 o'⟩ :: t.incoming p))
      (hin : t.incoming (otherServer p) = s.incoming (otherServer p))
      (hcache : (s.node p).cache u = some c) (hp2 : c.p2 = some o)
      (hverdict : verdict V s.node p u = some b)

/-- What a step can do. -/
inductive Effect (V : View L) (S : Setup L) (share : ServerId → ι → Bytes) (s t : Sys L ι) : Prop
  /-- a packet is put by the client or put back -/
  | idle (hnode : t.node = s.node) (halive : t.alive = s.alive)
      (hin : ∀ p, (t.incoming p).Perm (s.incoming p))
  | moves (h : Moves V S share s t)

section Step

variable {V : View L} {S : Setup L} {ids : List ι} {share : ServerId → ι → Bytes} {s t : Sys L ι}
  {p : ServerId} {u : ι} {rest : List (Packet L ι)} {m m' : Packet L ι} {n : Node L ι}

/-- The state after server `p` took the packet `m`, leaving `rest` in its queue. -/
def afterTurn (s : Sys L ι) (p : ServerId) (m : Packet L ι) (rest : List (Packet L ι)) : Sys L ι :=
  settle otherServer (s.took p (serverConsume L (s.node p) m).2 rest) p m
    (serverConsume L (s.node p) m).1

theorem afterTurn_node : (afterTurn s p m rest).node =
    Function.update s.node p (serverConsume L (s.node p) m).2 := by
  unfold afterTurn
  rcases (serverConsume L (s.node p) m).1 with e | (_ | m' | _) <;> rfl

theorem afterTurn_todo : (afterTurn s p m rest).todo = s.todo := by
  unfold afterTurn
  rcases (serverConsume L (s.node p) m).1 with e | (_ | m' | _) <;> rfl

theorem turn_eq (ha : s.alive p = true) (hin : s.inbox p = m :: rest) :
    turn otherServer (serverConsume L) s p = afterTurn s p m rest := turn_cons ha hin

omit [DecidableEq ι] in
theorem took_out (hin : s.inbox p = m :: rest) (n : Node L ι) :
    (s.incoming p).Perm (m :: (s.took p n rest).incoming p) :=
  have hfront : s.inbox p = [] ++ m :: rest := hin
  incoming_took hfront

omit [DecidableEq ι] in
theorem incoming_send : ((s.took p n rest).deliver (otherServer p) m').incoming p =
      (s.took p n rest).incoming p ∧
    (((s.took p n rest).deliver (otherServer p) m').incoming (otherServer p)).Perm
      (m' :: s.incoming (otherServer p)) := by
  refine ⟨incoming_deliver_other (otherServer_ne p).symm, incoming_deliver.trans ?_⟩
  rw [incoming_took_other (otherServer_ne p)]

theorem turn_again (hout : ∀ n, (s.incoming p).Perm (m :: (s.took p n rest).incoming p))
    (h : (serverConsume L (s.node p) m).1 = .ok .again) :
    Effect V S share s (afterTurn s p m rest) := by
  unfold afterTurn
  rw [h, consume_again h]
  refine .idle (Function.update_eq_self p s.node) rfl fun q => ?_
  rcases eq_or_eq_other p q with rfl | rfl
  · exact incoming_deliver.trans (hout _).symm
  · simp only [settle]
    rw [incoming_deliver_other (otherServer_ne p), incoming_took_other (otherServer_ne p)]

theorem moves_data (hV : Laws V) (h : Inv V S ids share s) {b : Bytes}
    (hout : ∀ n, (s.incoming p).Perm (⟨u, .data b⟩ :: (s.took p n rest).incoming p)) :
    Moves V S share s (afterTurn s p ⟨u, .data b⟩ rest) := by
  obtain ⟨rfl, -, hcache⟩ := (h.wires p).data u b ((hout (s.node p)).mem_iff.2 (.head _))
  by_cases hd : V.decodes (V.ident (s.node p).server.inst) (share p u) = true
  · obtain ⟨c, r, x, hturn, hc, hopened, hinst⟩ := consume_data hV hcache hd
    rw [h.nodes.ident] at hd hopened
    unfold afterTurn
    rw [hturn]
    refine .opens p u c _ r x rfl rfl ?_ incoming_send.2 rfl hc hopened hinst hd
    simp only [settle, incoming_send.1]
    exact hout _
  · have hturn := consume_data_error (u := u) hV hd
    rw [h.nodes.ident] at hd
    unfold afterTurn
    rw [hturn]
    exact .fails p u rfl rfl (hout (s.node p))
      (incoming_took_other (n := s.node p) (otherServer_ne p)) hd

theorem moves_verify1 (hV : Laws V) (h : Inv V S ids share s) {o : PacketVerify1 L}
    (hout : ∀ n, (s.incoming p).Perm (⟨u, .verify1 o⟩ :: (s.took p n rest).incoming p))
    (hdue : (serverConsume L (s.node p) ⟨u, .verify1 o⟩).1 ≠ .ok .again) :
    Moves V S share s (afterTurn s p ⟨u, .verify1 o⟩ rest) := by
  obtain ⟨-, hsent⟩ := (h.wires p).verify1 u o ((hout (s.node p)).mem_iff.2 (.head _))
  cases hcache : (s.node p).cache u with
  | none => exact absurd (by rw [consume_verify1_again (by simp [Node.sent1, hcache])]) hdue
  | some c =>
    obtain ⟨-, r, x, hopened⟩ := h.nodes.opened p u c hcache
    simp only [Node.sent1, Option.map_eq_some_iff] at hsent
    obtain ⟨c', hcache', rfl⟩ := hsent
    obtain ⟨-, r', y, hopened'⟩ := h.nodes.opened _ u c' hcache'
    obtain ⟨o', q, hturn, hans⟩ := consume_verify1 hV hcache hopened hopened'.pending hopened'.seen
    unfold afterTurn
    rw [hturn]
    refine .answers p u c c' o' r r' x y q rfl rfl ?_ incoming_send.2 hcache hcache' hopened
      hopened'
      hans
    simp only [settle, incoming_send.1]
    exact hout _

theorem moves_verify2 (hV : Laws V) (h : Inv V S ids share s) {o' : PacketVerify2 L}
    (hout : ∀ n, (s.incoming p).Perm (⟨u, .verify2 o'⟩ :: (s.took p n rest).incoming p))
    (hdue : (serverConsume L (s.node p) ⟨u, .verify2 o'⟩).1 ≠ .ok .again) :
    Moves V S share s (afterTurn s p ⟨u, .verify2 o'⟩ rest) := by
  obtain ⟨-, hsent'⟩ := (h.wires p).verify2 u o' ((hout (s.node p)).mem_iff.2 (.head _))
  cases hsent : (s.node p).sent2 u with
  | none => exact absurd (by rw [consume_verify2_again hsent]) hdue
  | some o =>
    have hboth := hsent
    simp only [Node.sent2, Option.bind_eq_some_iff] at hsent
    obtain ⟨c, hcache, hp2⟩ := hsent
    have hboth' := hsent'
    simp only [Node.sent2, Option.bind_eq_some_iff] at hsent'
    obtain ⟨c', hcache', hp2'⟩ := hsent'
    obtain ⟨_, r, x, _, _, q, -, hopened, -, hans⟩ := h.nodes.answered p u c o hcache hp2
    obtain ⟨_, _, _, _, _, q', -, -, -, hans'⟩ := h.nodes.answered _ u c' o' hcache' hp2'
    have hheld := hopened.held
    rw [← h.nodes.ident p] at hheld
    have hturn := consume_verify2 hV hcache hp2 hheld hans.pending hans.seen hans'.pending
      hans'.seen
    have hverdict : verdict V s.node p u = some (V.valid q q') := by
      simp [verdict, hboth, hboth', hans.seen, hans'.seen]
    unfold afterTurn
    rw [hturn]
    exact .closes p u c o o' (V.valid q q') rfl rfl (hout _)
      (incoming_took_other (otherServer_ne p)) hcache hp2 hverdict

/-- A packet that is not put back moves its client on. -/
theorem turn_moves (hV : Laws V) (h : Inv V S ids share s)
    (hout : ∀ n, (s.incoming p).Perm (m :: (s.took p n rest).incoming p))
    (hdue : (serverConsume L (s.node p) m).1 ≠ .ok .again) :
    Moves V S share s (afterTurn s p m rest) := by
  obtain ⟨u, body⟩ := m
  cases body with
  | data b => exact moves_data hV h hout
  | verify1 o => exact moves_verify1 hV h hout hdue
  | verify2 o => exact moves_verify2 hV h hout hdue

theorem step_effect (hV : Laws V) (h : Inv V S ids share s) {l : Label ServerId}
    (hst : exchangeStep s l = some t) : Effect V S share s t := by
  cases l with
  | post =>
    obtain ⟨p, m, todo, htodo, rfl⟩ := post_cases hst
    exact .idle rfl rfl fun q => by rw [incoming_post htodo]
  | take p k =>
    obtain ⟨l₁, m, l₂, -, hin, -, rfl⟩ := take_cases hst
    have hout := fun n => incoming_took (n := n) hin
    by_cases hagain : (serverConsume L (s.node p) m).1 = .ok .again
    · exact turn_again hout hagain
    · exact .moves (turn_moves hV h hout hagain)

/-! ## The invariant -/

omit [DecidableEq ι] in
theorem eq_verify1 (h : m.body.kind = .verify1) : ∃ o, m = ⟨m.id, .verify1 o⟩ := by
  obtain ⟨u, body⟩ := m
  cases body with
  | verify1 o => exact ⟨o, rfl⟩
  | _ => cases h

omit [DecidableEq ι] in
theorem eq_verify2 (h : m.body.kind = .verify2) : ∃ o, m = ⟨m.id, .verify2 o⟩ := by
  obtain ⟨u, body⟩ := m
  cases body with
  | verify2 o => exact ⟨o, rfl⟩
  | _ => cases h

omit [DecidableEq ι] in
/-- A verify2 packet is made for a client that is open at both servers. -/
theorem Nodes.other_open {node : ServerId → Node L ι} (h : Nodes V S ids share node)
    {o : PacketVerify2 L} (ho : (node p).sent2 u = some o) :
    ∃ c, (node (otherServer p)).cache u = some c := by
  simp only [Node.sent2, Option.bind_eq_some_iff] at ho
  obtain ⟨c, hc, hp2⟩ := ho
  obtain ⟨c', -, -, -, -, -, hc', -⟩ := h.answered p u c o hc hp2
  exact ⟨c', hc'⟩

omit [DecidableEq ι] in
/-- A closed client has both its verify2 packets. -/
theorem Nodes.closed_sent2 {node : ServerId → Node L ι} (h : Nodes V S ids share node)
    (hu : u ∈ (node p).closed) (q : ServerId) : ∃ o, (node q).sent2 u = some o := by
  have hv : ∃ b, verdict V node p u = some b := by
    rcases mem_closed.1 hu with hl | hl
    · exact ⟨true, h.added p u (mem_added.2 hl)⟩
    · exact ⟨false, h.invalid p u hl⟩
  obtain ⟨b, hv⟩ := hv
  simp only [verdict, Option.bind_eq_bind, Option.bind_eq_some_iff] at hv
  obtain ⟨o, ho, o', ho', -⟩ := hv
  rcases eq_or_eq_other p q with rfl | rfl
  · exact ⟨o, ho⟩
  · exact ⟨o', ho'⟩

/-- Server `p` stored the entry `c` of client `u` and closed nothing. -/
structure StoredAt (s t : Sys L ι) (p : ServerId) (u : ι) (c : Cached L) : Prop where
  other : t.node (otherServer p) = s.node (otherServer p)
  closed : ∀ q, (t.node q).closed = (s.node q).closed
  keep : ∀ w, w ≠ u → (t.node p).cache w = (s.node p).cache w
  self : (t.node p).cache u = some c

theorem storedAt {c : Cached L} {n : Node L ι}
    (hnode : t.node = Function.update s.node p (n.store u c))
    (hcache : n.cache = (s.node p).cache) (hclosed : n.closed = (s.node p).closed) :
    StoredAt s t p u c where
  other := by rw [hnode, update_other]
  closed q := by
    rw [hnode]
    rcases eq_or_eq_other p q with rfl | rfl
    · rw [Function.update_self]
      exact hclosed
    · rw [update_other]
  keep w hw := by rw [hnode, Function.update_self, store_cache_other hw, hcache]
  self := by rw [hnode, Function.update_self, store_cache_self]

omit [DecidableEq ι] in
theorem closed_generated {line : Line} (hline : line = .generateVerify1 ∨ line = .generateVerify2) :
    (n.logged u line).closed = n.closed := by
  rw [closed_logged]
  rcases hline with rfl | rfl <;> simp

theorem inv_opens (hV : Laws V) (h : Inv V S ids share s) {c : Cached L} {r : V.Point} {x : Bytes}
    (hnode : t.node = Function.update s.node p
      ({ (s.node p).logged u .generateVerify1 with
        server := (createVerifier L (s.node p).server (share p u)).2 }.store u c))
    (hout : (s.incoming p).Perm (⟨u, .data (share p u)⟩ :: t.incoming p))
    (hin : (t.incoming (otherServer p)).Perm (⟨u, .verify1 c.p1⟩ :: s.incoming (otherServer p)))
    (hc : c.p2 = none) (hopened : Opened V (S.ident p) (share p u) c r x) :
    Inv V S ids share t := by
  obtain ⟨-, hu, hcache⟩ := (h.wires p).data u _ (hout.mem_iff.2 (.head _))
  have hw := (h.wires p).perm hout.symm
  obtain ⟨hother, hclosed, hnew, hself⟩ := storedAt hnode rfl (closed_generated (.inl rfl))
  have hkeeps := createVerifier_keeps hV (s.node p).server (share p u)
  have hnodes : Nodes V S ids share t.node := by
    have h₁ := h.nodes.generated (p := p) (u := u) hkeeps.1 hkeeps.2 (.inl rfl)
    have h₂ := h₁.stored (p := p) (u := u) (c := c)
      (fun c₀ hc₀ => by
        rw [Function.update_self] at hc₀
        exact absurd (hcache.symm.trans hc₀) (by simp))
      ⟨hu, r, x, hopened⟩ fun o ho => by rw [hc] at ho; cases ho
    rw [hnode]
    simpa only [Function.update_idem, Function.update_self] using h₂
  refine ⟨hnodes, fun q => ?_⟩
  rcases eq_or_eq_other p q with rfl | rfl
  · refine hw.tail.congr (fun w b hm => hnew w (hw.ne hm rfl)) (fun w o hm => ?_)
      (fun w o _ hcl => by rwa [hclosed] at hcl) (fun w o _ ho => by rwa [hother])
      fun w o _ ho => by rwa [hother]
    by_cases hwu : w = u
    · subst hwu
      simp [Node.sent2, hself, hcache, hc]
    · simp only [Node.sent2, hnew w hwu]
  · refine Wires.perm (Wires.cons ?_ ?_ (fun _ _ h => by cases h) ?_ fun _ _ h => by cases h) hin
    · refine (h.wires _).congr (fun w b _ => by rw [hother]) (fun w o _ => by rw [hother])
        (fun w o _ hcl => by rwa [hother] at hcl) (fun w o _ ho => ?_) fun w o _ ho => ?_
      · rw [otherServer_otherServer] at ho ⊢
        have hwu : w ≠ u := by
          rintro rfl
          simp [Node.sent1, hcache] at ho
        rwa [Node.sent1, hnew w hwu]
      · rw [otherServer_otherServer] at ho ⊢
        have hwu : w ≠ u := by
          rintro rfl
          simp [Node.sent2, hcache] at ho
        rwa [Node.sent2, hnew w hwu]
    · rw [key_mem]
      rintro ⟨m, hm, hid, hk⟩
      change m.id = u at hid
      obtain ⟨o, ho⟩ := eq_verify1 hk
      rw [ho, hid] at hm
      have hsent := ((h.wires _).verify1 _ o hm).2
      simp [Node.sent1, hcache] at hsent
    · intro w o hwo
      cases hwo
      rw [otherServer_otherServer, hother]
      refine ⟨?_, by simp [Node.sent1, hself]⟩
      cases hs : (s.node (otherServer p)).sent2 u with
      | none => rfl
      | some o =>
        obtain ⟨c', hc'⟩ := h.nodes.other_open hs
        rw [otherServer_otherServer, hcache] at hc'
        cases hc'

omit [DecidableEq ι] in
theorem inv_fails (hV : Laws V) (h : Inv V S ids share s)
    (hnode : t.node = Function.update s.node p { (s.node p).logged u .generateVerify1 with
      server := (createVerifier L (s.node p).server (share p u)).2 })
    (hout : (s.incoming p).Perm (⟨u, .data (share p u)⟩ :: t.incoming p))
    (hin : t.incoming (otherServer p) = s.incoming (otherServer p)) : Inv V S ids share t := by
  have hkeeps := createVerifier_keeps hV (s.node p).server (share p u)
  have hcache : ∀ q, (t.node q).cache = (s.node q).cache := fun q => by
    rw [hnode]
    rcases eq_or_eq_other p q with rfl | rfl <;> simp
  have hclosed : ∀ q, (t.node q).closed = (s.node q).closed := fun q => by
    rw [hnode]
    rcases eq_or_eq_other p q with rfl | rfl
    · rw [Function.update_self]
      exact closed_logged.trans (by simp)
    · rw [update_other]
  have hw : ∀ q, Wires ids share s.node q (t.incoming q) := fun q => by
    rcases eq_or_eq_other p q with rfl | rfl
    · exact ((h.wires q).perm hout.symm).tail
    · rw [hin]; exact h.wires _
  refine ⟨?_, fun q => (hw q).congr (fun w b _ => by rw [hcache]) (fun w o _ => ?_)
    (fun w o _ hcl => by rwa [hclosed] at hcl) (fun w o _ ho => ?_) fun w o _ ho => ?_⟩
  · rw [hnode]
    exact h.nodes.generated hkeeps.1 hkeeps.2 (.inl rfl)
  · simp only [Node.sent2, hcache]
  · simpa only [Node.sent1, hcache] using ho
  · simpa only [Node.sent2, hcache] using ho

theorem inv_answers (h : Inv V S ids share s) {c c' : Cached L} {o : PacketVerify2 L}
    {r r' : V.Point} {x y q : Bytes}
    (hnode : t.node = Function.update s.node p
      (((s.node p).logged u .generateVerify2).store u { c with p2 := some o }))
    (hout : (s.incoming p).Perm (⟨u, .verify1 c'.p1⟩ :: t.incoming p))
    (hin : (t.incoming (otherServer p)).Perm (⟨u, .verify2 o⟩ :: s.incoming (otherServer p)))
    (hcache : (s.node p).cache u = some c)
    (hcache' : (s.node (otherServer p)).cache u = some c')
    (hopened : Opened V (S.ident p) (share p u) c r x)
    (hopened' : Opened V (S.ident (otherServer p)) (share (otherServer p) u) c' r' y)
    (hanswered : Answered V (S.ident p) (share p u) r x y o q) : Inv V S ids share t := by
  have hw := (h.wires p).perm hout.symm
  obtain ⟨hnone, -⟩ := hw.verify1 u _ (.head _)
  have hc : c.p2 = none := by simpa [Node.sent2, hcache] using hnone
  have hu := (h.nodes.opened p u c hcache).1
  obtain ⟨hother, hclosed, hnew, hself⟩ := storedAt hnode rfl (closed_generated (.inr rfl))
  have hnodes : Nodes V S ids share t.node := by
    have h₁ := h.nodes.generated (p := p) (u := u) rfl rfl (.inr rfl)
    have h₂ := h₁.stored (p := p) (u := u) (c := { c with p2 := some o })
      (fun c₀ hc₀ => by
        rw [Function.update_self] at hc₀
        cases hcache.symm.trans hc₀
        exact ⟨rfl, rfl, hc⟩)
      ⟨hu, r, x, hopened.held, hopened.pending, hopened.seen, hopened.made⟩ fun o₁ ho₁ => by
        cases ho₁
        rw [update_other]
        exact ⟨c', r, x, r', y, q, hcache', ⟨hopened.held, hopened.pending, hopened.seen,
          hopened.made⟩, hopened', hanswered⟩
    rw [hnode]
    rw [Function.update_idem, Function.update_self] at h₂
    exact h₂
  refine ⟨hnodes, fun q' => ?_⟩
  rcases eq_or_eq_other p q' with rfl | rfl
  · refine hw.tail.congr (fun w b hm => ?_) (fun w o hm => ?_)
      (fun w o _ hcl => by rwa [hclosed] at hcl) (fun w o _ ho => by rwa [hother])
      fun w o _ ho => by rwa [hother]
    · refine hnew w ?_
      rintro rfl
      have hdata := (hw.tail.data _ b hm).2.2
      rw [hcache] at hdata
      cases hdata
    · simp only [Node.sent2, hnew w (hw.ne hm rfl)]
  · refine Wires.perm (Wires.cons ?_ ?_ (fun _ _ h => by cases h) (fun _ _ h => by cases h) ?_) hin
    · refine (h.wires _).congr (fun w b _ => by rw [hother]) (fun w o _ => by rw [hother])
        (fun w o _ hcl => by rwa [hother] at hcl) (fun w o₁ _ ho => ?_) fun w o₁ _ ho => ?_
      · rw [otherServer_otherServer] at ho ⊢
        by_cases hwu : w = u
        · subst hwu
          rw [Node.sent1, hcache] at ho
          rw [Node.sent1, hself]
          exact ho
        · rwa [Node.sent1, hnew w hwu]
      · rw [otherServer_otherServer] at ho ⊢
        have hwu : w ≠ u := by
          rintro rfl
          rw [hnone] at ho
          cases ho
        rwa [Node.sent2, hnew w hwu]
    · rw [key_mem]
      rintro ⟨m, hm, hid, hk⟩
      change m.id = u at hid
      obtain ⟨o₁, ho₁⟩ := eq_verify2 hk
      rw [ho₁, hid] at hm
      have hsent := ((h.wires _).verify2 _ o₁ hm).2
      rw [otherServer_otherServer, hnone] at hsent
      cases hsent
    · intro w o₁ hwo
      cases hwo
      rw [otherServer_otherServer, hother]
      refine ⟨fun hcl => ?_, by simp [Node.sent2, hself]⟩
      obtain ⟨o₂, ho₂⟩ := h.nodes.closed_sent2 hcl p
      rw [hnone] at ho₂
      cases ho₂

omit [DecidableEq ι] in
theorem inv_closes (hV : Laws V) (h : Inv V S ids share s) {c : Cached L} {o' : PacketVerify2 L}
    {b : Bool}
    (hnode : t.node = Function.update s.node p
      (if b then { (s.node p).logged u .aggregateData with
        server := (aggregate L (s.node p).server c.v).2 }
      else (s.node p).logged u .invalidData))
    (hout : (s.incoming p).Perm (⟨u, .verify2 o'⟩ :: t.incoming p))
    (hin : t.incoming (otherServer p) = s.incoming (otherServer p))
    (hcache : (s.node p).cache u = some c) (hverdict : verdict V s.node p u = some b) :
    Inv V S ids share t := by
  have hw := (h.wires p).perm hout.symm
  obtain ⟨hopen, -⟩ := hw.verify2 u _ (.head _)
  obtain ⟨-, r, x, hopened⟩ := h.nodes.opened p u c hcache
  have hheld := hopened.held
  rw [← h.nodes.ident p] at hheld
  have hkeeps := aggregate_keeps hV hheld
  have hcaches : ∀ q, (t.node q).cache = (s.node q).cache := fun q => by
    rw [hnode]
    rcases eq_or_eq_other p q with rfl | rfl <;> cases b <;> simp
  have hclosed : ∀ w, w ≠ u → w ∈ (t.node p).closed → w ∈ (s.node p).closed := fun w hwu hcl => by
    rw [hnode, Function.update_self] at hcl
    have hcl' : w ∈ ((s.node p).logged u (if b then .aggregateData else .invalidData)).closed := by
      cases b <;> exact hcl
    rw [closed_logged, List.mem_append] at hcl'
    exact hcl'.resolve_right fun hin => hwu (by cases b <;> simpa using hin)
  refine ⟨?_, fun q => ?_⟩
  · rw [hnode]
    cases b with
    | true =>
      refine h.nodes.closedOn (b := true) hverdict hopen hkeeps.1 ?_ rfl
      rw [hkeeps.2, if_pos rfl, h.nodes.ident]
    | false => exact h.nodes.closedOn (b := false) hverdict hopen rfl (by simp) rfl
  · have hsent1 : ∀ q w, (t.node q).sent1 w = (s.node q).sent1 w := fun q w => by
      simp only [Node.sent1, hcaches]
    have hsent2 : ∀ q w, (t.node q).sent2 w = (s.node q).sent2 w := fun q w => by
      simp only [Node.sent2, hcaches]
    rcases eq_or_eq_other p q with rfl | rfl
    · exact hw.tail.congr (fun w b _ => by rw [hcaches]) (fun w o _ => hsent2 _ w)
        (fun w o hm hcl => hclosed w (hw.ne hm rfl) hcl) (fun w o _ ho => by rwa [hsent1])
        fun w o _ ho => by rwa [hsent2]
    · rw [hin]
      refine (h.wires _).congr (fun w b _ => by rw [hcaches]) (fun w o _ => hsent2 _ w)
        (fun w o _ hcl => ?_) (fun w o _ ho => by rwa [hsent1]) fun w o _ ho => by rwa [hsent2]
      rwa [hnode, update_other] at hcl

theorem Moves.inv (hV : Laws V) (h : Inv V S ids share s) (hm : Moves V S share s t) :
    Inv V S ids share t := by
  cases hm with
  | opens p u c server r x hnode _ hout hin hserver hc hopened =>
    subst hserver
    exact inv_opens hV h hnode hout hin hc hopened
  | fails p u hnode _ hout hin => exact inv_fails hV h hnode hout hin
  | answers p u c c' o r r' x y q hnode _ hout hin hcache hcache' hopened hopened' hanswered =>
    exact inv_answers h hnode hout hin hcache hcache' hopened hopened' hanswered
  | closes p u c o o' b hnode _ hout hin hcache _ hverdict =>
    exact inv_closes hV h hnode hout hin hcache hverdict

theorem Effect.inv (hV : Laws V) (h : Inv V S ids share s) (he : Effect V S share s t) :
    Inv V S ids share t := by
  cases he with
  | idle hnode halive hin => exact ⟨hnode ▸ h.nodes, fun p => hnode ▸ (h.wires p).perm (hin p)⟩
  | moves hm => exact hm.inv hV h

omit [DecidableEq ι] in
theorem start_incoming (p : ServerId) :
    (start S ids share).incoming p = ids.map fun u => ⟨u, .data (share p u)⟩ := by
  simp only [St.incoming, start, sends, List.nil_append]
  induction ids with
  | nil => rfl
  | cons u ids ih =>
    rw [List.flatMap_cons, List.filterMap_append, ih, List.map_cons]
    cases p <;> rfl

omit [DecidableEq ι] in
theorem inv_start (hV : Laws V) (hnd : ids.Nodup) : Inv V S ids share (start S ids share) where
  nodes := {
    ident := fun p => hV.setData.new_ident _ _ _ _
    opened := fun _ _ _ hc => by cases hc
    answered := fun _ _ _ _ hc => by cases hc
    added := fun _ _ hu => by cases hu
    invalid := fun _ _ hu => by cases hu
    once := fun _ => List.nodup_nil
    acc := fun p => hV.setData.new_acc _ _ _ _ }
  wires p := by
    rw [start_incoming]
    refine ⟨?_, fun u b hm => ?_, fun u o hm => ?_, fun u o hm => ?_⟩
    · rw [List.map_map]
      refine hnd.map fun u w huw => ?_
      exact congrArg Prod.fst huw
    all_goals
      obtain ⟨w, hw, heq⟩ := List.mem_map.1 hm
      cases heq
    exact ⟨rfl, hw, rfl⟩

theorem inv_reachable (hV : Laws V) (hnd : ids.Nodup) :
    (exchange S ids share).Inductive (Inv V S ids share) where
  init _ hs := hs ▸ inv_start hV hnd
  step _ _ _ h hst := (step_effect hV h hst).inv hV h

end Step

/-! ## A sample exchange -/

namespace Sample

def setup : Setup plain := ⟨fun _ => ⟨2, [1], [2], [9]⟩, fun _ => [], fun _ => [4]⟩

/-- The shares of the vectors `(1, 0)` and `(1, 1)`, and two that do not verify. -/
def share : ServerId → ℕ → Bytes
  | .A, 0 => [3, 5]
  | .B, 0 => [254, 251]
  | .A, 1 => [0, 0]
  | .B, 1 => [1, 1]
  | .A, _ => [7, 0]
  | .B, _ => [0, 0]

def posts : List (Label ServerId) := List.replicate 6 .post

/-- The servers take the first packets of their queues in turn. -/
def inTurn (n : ℕ) : List (Label ServerId) :=
  (List.replicate n [.take .A 0, .take .B 0]).flatten

/-- The servers take the last share first. -/
def reversed : List (Label ServerId) :=
  [.take .A 2, .take .B 2, .take .A 1, .take .B 1, .take .A 0, .take .B 0] ++ inTurn 5

theorem reached {α : Type} (ls : List (Label ServerId)) (f : Sys plain ℕ → α) {a : α}
    (h : (LTS.exec exchangeStep (start setup [0, 1, 2] share) ls).map f = some a) :
    ∃ s, (exchange setup [0, 1, 2] share).Reachable s ∧ f s = a := by
  obtain ⟨s, hs, hf⟩ := Option.map_eq_some_iff.1 h
  exact ⟨s, ⟨_, _, rfl, LTS.run_of_exec _ hs⟩, hf⟩

end Sample

end PrioProcessor.L6
