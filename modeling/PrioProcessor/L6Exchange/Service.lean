import PrioProcessor.Core.Python
import PrioProcessor.L6Exchange.Main

/-!
# The servers of examples/docker-asyncio

`runServer` is the body of the loop of `run_server`
(examples/docker-asyncio/server.py:51-101). The two servers take their messages
from the queues `prio.0` and `prio.1` of a broker; a message has an id, a type
and a body, which is the share or a pickled packet. A message that comes too
early is published again to the server's own queue, and its entry of the cache
is written back; a message of another type is logged.

* `service_exchange`: the servers of the two examples take the same runs, and
  reach the same accumulators, entries and logged lines.
* `service_completes`: once the client is done, every fair schedule leads both
  servers to aggregate every client.
* `redelivery_adds`: the entry of a client that was aggregated is deleted and put
  back, so every further delivery of its last message adds its share again.
-/
namespace PrioProcessor.L6

open L1 L1.Wrapper Mailbox

structure Message (ι : Type) where
  messageId : ι
  type : String
  body : Bytes
  deriving DecidableEq, Repr

/-- The type of the messages with a packet of this kind. -/
def Kind.type : Kind → String
  | .data => "data"
  | .verify1 => "verify1"
  | .verify2 => "verify2"

def kindOf (t : String) : Option Kind :=
  if t = "data" then some .data
  else if t = "verify1" then some .verify1
  else if t = "verify2" then some .verify2
  else none

@[simp] theorem kindOf_type (k : Kind) : kindOf k.type = some k := by cases k <;> rfl

/-- The lines a server logs about a message. -/
inductive ServiceLine where
  | requeue
  | line (line : Line)
  | badType (t : String)
  deriving DecidableEq, Repr

/-- An entry of the cache is `none` when it is `(None, None, None)`. -/
structure Service (L : Libprio) (ι : Type) where
  server : Server L
  cache : ι → Option (Option (Cached L))
  log : List (ι × ServiceLine)

namespace Service

variable {L : Libprio} {ι : Type}

/-- `cache.get(pid, (None, None, None))` -/
def get (n : Service L ι) (u : ι) : Option (Cached L) := (n.cache u).getD none

def logged (n : Service L ι) (u : ι) (line : ServiceLine) : Service L ι :=
  { n with log := n.log ++ [(u, line)] }

/-- The lines the server of examples/asyncio logs too. -/
def lines (n : Service L ι) : List (ι × Line) := n.log.filterMap fun x => match x.2 with
  | .line line => some (x.1, line)
  | _ => none

/-- The clients whose share was aggregated, in order. -/
def added (n : Service L ι) : List ι :=
  n.lines.filterMap fun x => if x.2 = .aggregateData then some x.1 else none

variable [DecidableEq ι]

/-- `cache[pid] = (v, p1, p2)` -/
def store (n : Service L ι) (u : ι) (c : Option (Cached L)) : Service L ι :=
  { n with cache := Function.update n.cache u (some c) }

/-- `del cache[pid]` -/
def del (n : Service L ι) (u : ι) : Service L ι :=
  { n with cache := Function.update n.cache u none }

end Service

section Model

variable (L : Libprio) {ι : Type} [DecidableEq ι]

/-- mirrors examples/docker-asyncio/server.py:51-101 -/
def runServer (n : Service L ι) (message : Message ι) :
    Except PyExc (Reply (Message ι)) × Service L ι :=
  let pid := message.messageId
  match kindOf message.type, n.get pid with
  | some .data, entry =>
    let r := createVerifier L n.server message.body
    let n := { n.logged pid (.line .generateVerify1) with server := r.2 }
    match (do
      let v ← r.1
      let p1 ← createVerify1 L v
      let body ← (packetVerify1 L).dumps p1
      pure (v, p1, body)) with
    | .error e => (.error e, n)
    | .ok (v, p1, body) => (.ok (.send ⟨pid, "verify1", body⟩),
        n.store pid (some ⟨v, p1, entry.bind Cached.p2⟩))
  | some .verify1, some c =>
    let n := n.logged pid (.line .generateVerify2)
    match (do
      let p2 ← createVerify2 L c.v c.p1 ((packetVerify1 L).loads message.body)
      let body ← (packetVerify2 L).dumps p2
      pure (p2, body)) with
    | .error e => (.error e, n)
    | .ok (p2, body) => (.ok (.send ⟨pid, "verify2", body⟩),
        n.store pid (some { c with p2 := some p2 }))
  | some .verify2, some ⟨v, p1, some p2⟩ =>
    match isValid L v p2 ((packetVerify2 L).loads message.body) with
    | .error e => (.error e, n)
    | .ok true =>
      let r := aggregate L n.server v
      let n := { n.logged pid (.line .aggregateData) with server := r.2 }
      match r.1 with
      | .error e => (.error e, n)
      | .ok () => (.ok .quiet, (n.del pid).store pid (some ⟨v, p1, some p2⟩))
    | .ok false =>
      (.ok .quiet, ((n.logged pid (.line .invalidData)).del pid).store pid
        (some ⟨v, p1, some p2⟩))
  -- out of order: a copy of the message is published to the server's own queue
  | some .verify1, none => (.ok .again, (n.logged pid .requeue).store pid none)
  | some .verify2, entry => (.ok .again, (n.logged pid .requeue).store pid entry)
  | none, entry => (.ok .quiet, (n.logged pid (.badType message.type)).store pid entry)

/-- mirrors examples/docker-asyncio/client.py:31 and examples/asyncio/main.py:95 -/
def dataItems (nFields : ℕ) : Bytes :=
  (List.range nFields).map fun i => if i % 3 = 1 ∨ i % 5 = 1 then 1 else 0

/-- What the client publishes for its shares. -/
def publishes (ids : List ι) (share : ServerId → ι → Bytes) : List (ServerId × Message ι) :=
  ids.flatMap fun u => [(.A, ⟨u, "data", share .A u⟩), (.B, ⟨u, "data", share .B u⟩)]

/-- mirrors examples/docker-asyncio/client.py:33-47 -/
def runClient (config : L.Config) (nFields nClients : ℕ) (coins : ℕ → L.Coins) :
    Except PyExc (List (ServerId × Message String)) := do
  let messages ← (List.range nClients).mapM fun i => do
    let (forServerA, forServerB) ← clientEncode L config (dataItems nFields) (coins i)
    pure [(.A, ⟨toString i, "data", forServerA⟩), (.B, ⟨toString i, "data", forServerB⟩)]
  pure messages.flatten

end Model

section System

variable {L : Libprio} {ι : Type}

/-- The servers before the first message, with the messages of the client. -/
def serviceStart (S : Setup L) (messages : List (ServerId × Message ι)) :
    St ServerId (Service L ι) (Message ι) where
  todo := messages
  node p := ⟨S.server p, fun _ => none, []⟩
  inbox _ := []
  alive _ := true

variable [DecidableEq ι]

def service (S : Setup L) (messages : List (ServerId × Message ι)) :
    LTS (St ServerId (Service L ι) (Message ι)) (Label ServerId) :=
  Mailbox.system otherServer (runServer L) fun s => s = serviceStart S messages

end System

variable {L : Libprio} {ι : Type}

/-! ## The two servers handle a message alike -/

/-- The message has the packet in its body. -/
inductive Carries (L : Libprio) : Message ι → Packet L ι → Prop
  | data (u : ι) (b : Bytes) : Carries L ⟨u, "data", b⟩ ⟨u, .data b⟩
  | verify1 (u : ι) {v : L.Verifier} {p : L.PacketVerify1} {b : Bytes}
      (hset : L.prioPacketVerify1SetData L.prioPacketVerify1New v = (.ok (), p))
      (hb : L.prioPacketVerify1Write p = .ok b) :
      Carries L ⟨u, "verify1", b⟩ ⟨u, .verify1 ⟨p, none⟩⟩
  | verify2 (u : ι) {v : L.Verifier} {p₁ p₂ : L.PacketVerify1} {p : L.PacketVerify2} {b : Bytes}
      (hset : L.prioPacketVerify2SetData L.prioPacketVerify2New v p₁ p₂ = (.ok (), p))
      (hb : L.prioPacketVerify2Write p = .ok b) :
      Carries L ⟨u, "verify2", b⟩ ⟨u, .verify2 ⟨p, none⟩⟩

/-- An entry whose packets are read with a configuration of `shared`; its verify2
packet was made by its server. -/
structure Entry (shared : L.Config → Prop) (c : Cached L) : Prop where
  config : shared c.v.config
  made : ∀ o, c.p2 = some o → ∃ q v p₁ p₂, o = ⟨q, none⟩ ∧
    L.prioPacketVerify2SetData L.prioPacketVerify2New v p₁ p₂ = (.ok (), q)

/-- The server of examples/docker-asyncio has the state of the one of
examples/asyncio. -/
structure Follows (shared : L.Config → Prop) (n : Service L ι) (n' : Node L ι) : Prop where
  server : n.server = n'.server
  get : ∀ u, n.get u = n'.cache u
  lines : n.lines = n'.log
  config : shared n'.server.config
  cached : ∀ u c, n'.cache u = some c → Entry shared c

section Fields

variable {n : Service L ι} {u w : ι} {c : Option (Cached L)} {line : ServiceLine}

@[simp] theorem service_logged_server : (n.logged u line).server = n.server := rfl

@[simp] theorem service_logged_get : (n.logged u line).get w = n.get w := rfl

@[simp] theorem service_logged_lines {l : Line} :
    (n.logged u (.line l)).lines = n.lines ++ [(u, l)] := by
  simp [Service.lines, Service.logged]

@[simp] theorem service_requeue_lines : (n.logged u .requeue).lines = n.lines := by
  simp [Service.lines, Service.logged]

variable [DecidableEq ι]

@[simp] theorem service_store_server : (n.store u c).server = n.server := rfl

@[simp] theorem service_store_lines : (n.store u c).lines = n.lines := rfl

@[simp] theorem service_del_store : (n.del u).store u c = n.store u c := by
  simp [Service.del, Service.store]

theorem service_store_get : (n.store u c).get w = Function.update n.get u c w := by
  by_cases hw : w = u
  · subst hw
    simp [Service.store, Service.get]
  · simp [Service.store, Service.get, hw]

end Fields

section Alike

variable [DecidableEq ι] {shared : L.Config → Prop} {n : Service L ι} {n' : Node L ι} {u : ι}
  {c : Cached L} {line : Line} {s : Server L}

theorem Follows.store (h : Follows shared n n') (hc : Entry shared c) :
    Follows shared (n.store u (some c)) (n'.store u c) where
  server := h.server
  get w := by
    rw [service_store_get, funext h.get]
    by_cases hw : w = u
    · subst hw
      simp [Node.store]
    · simp [Node.store, hw]
  lines := h.lines
  config := h.config
  cached w c' hc' := by
    by_cases hw : w = u
    · subst hw
      rw [store_cache_self] at hc'
      cases hc'
      exact hc
    · rw [store_cache_other hw] at hc'
      exact h.cached w c' hc'

omit [DecidableEq ι] in
theorem Follows.logged (h : Follows shared n n') (u : ι) (line : Line) :
    Follows shared (n.logged u (.line line)) (n'.logged u line) where
  server := h.server
  get := h.get
  lines := by rw [service_logged_lines, h.lines]; rfl
  config := h.config
  cached := h.cached

omit [DecidableEq ι] in
theorem Follows.withServer (h : Follows shared n n') (hs : s.config = n'.server.config) :
    Follows shared { n with server := s } { n' with server := s } where
  server := rfl
  get := h.get
  lines := h.lines
  config := by
    dsimp only
    rw [hs]
    exact h.config
  cached := h.cached

omit [DecidableEq ι] in
theorem Follows.added (h : Follows shared n n') : n.added = n'.added := by
  unfold Service.added Node.added
  rw [h.lines]

/-- A message that goes back into the queue leaves the entry as it was. -/
theorem Follows.requeue (h : Follows shared n n') :
    Follows shared ((n.logged u .requeue).store u (n'.cache u)) n' where
  server := h.server
  get w := by
    have hget : (n.logged u .requeue).get u = n'.cache u := h.get u
    rw [service_store_get, ← hget, Function.update_eq_self]
    exact h.get w
  lines := by rw [service_store_lines, service_requeue_lines, h.lines]
  config := h.config
  cached := h.cached

omit [DecidableEq ι] in
theorem createVerifier_config {v : Verifier L} {b : Bytes} (h : (createVerifier L s b).1 = .ok v) :
    v.config = s.config := by
  simp only [createVerifier] at h
  cases hr : (L.prioVerifierSetData s.inst (L.prioVerifierNew s.inst) b).1 with
  | error e =>
    rw [hr] at h
    cases h
  | ok x =>
    rw [hr] at h
    cases h
    rfl

theorem alike_data (hL : PickleLaw L shared) (h : Follows shared n n') (u : ι) (b : Bytes) :
    ReplyRel (Carries L) (runServer L n ⟨u, "data", b⟩).1 (serverConsume L n' ⟨u, .data b⟩).1 ∧
      Follows shared (runServer L n ⟨u, "data", b⟩).2 (serverConsume L n' ⟨u, .data b⟩).2 := by
  have hk : kindOf "data" = some .data := rfl
  have hlog := (h.logged u .generateVerify1).withServer
    (s := (createVerifier L n'.server b).2) rfl
  simp only [runServer, serverConsume, hk, h.server, h.get]
  cases hv : (createVerifier L n'.server b).1 with
  | error e => exact ⟨.error e, hlog⟩
  | ok v =>
    cases hp : createVerify1 L v with
    | error e =>
      simp only [ok_bind, hp]
      exact ⟨.error e, hlog⟩
    | ok p1 =>
      obtain ⟨p, rfl, w, hset⟩ := createVerify1_made hp
      obtain ⟨body, hbody⟩ := hL.packet1.written p ⟨w, hset⟩
      have hdumps : (packetVerify1 L).dumps ⟨p, none⟩ = .ok body := hbody
      simp only [ok_bind, hp, hdumps, pure, Except.pure]
      refine ⟨.send (.verify1 u hset hbody), hlog.store ⟨?_, fun o ho => ?_⟩⟩
      · rw [createVerifier_config hv]
        exact h.config
      · obtain ⟨c, hc, hp2⟩ := Option.bind_eq_some_iff.1 ho
        exact (h.cached u c hc).made o hp2

theorem alike_verify1 (hL : PickleLaw L shared) (h : Follows shared n n') (u : ι) {v : L.Verifier}
    {p : L.PacketVerify1} {b : Bytes}
    (hset : L.prioPacketVerify1SetData L.prioPacketVerify1New v = (.ok (), p))
    (hb : L.prioPacketVerify1Write p = .ok b) :
    ReplyRel (Carries L) (runServer L n ⟨u, "verify1", b⟩).1
        (serverConsume L n' ⟨u, .verify1 ⟨p, none⟩⟩).1 ∧
      Follows shared (runServer L n ⟨u, "verify1", b⟩).2
        (serverConsume L n' ⟨u, .verify1 ⟨p, none⟩⟩).2 := by
  have hk : kindOf "verify1" = some .verify1 := rfl
  cases hc : n'.cache u with
  | none =>
    have hrequeue := h.requeue (u := u)
    rw [hc] at hrequeue
    simp only [runServer, serverConsume, hk, h.get, hc]
    exact ⟨.again, hrequeue⟩
  | some c =>
    have hentry := h.cached u c hc
    have hread := Codec.deserialize_standsFor hL.packet1 (.inr ⟨v, hset⟩)
      (q := true) ⟨b, hb, rfl⟩ hentry.config
    have hsame : createVerify2 L c.v c.p1 ((packetVerify1 L).loads b) =
        createVerify2 L c.v c.p1 ⟨p, none⟩ := createVerify2_congr rfl hread
    have hlog := h.logged u .generateVerify2
    simp only [runServer, serverConsume, hk, h.get, hc, hsame]
    cases hp : createVerify2 L c.v c.p1 ⟨p, none⟩ with
    | error e => exact ⟨.error e, hlog⟩
    | ok p2 =>
      obtain ⟨q, rfl, w, p₁, p₂, hset2⟩ := createVerify2_made hp
      obtain ⟨body, hbody⟩ := hL.packet2.written q ⟨w, p₁, p₂, hset2⟩
      have hdumps : (packetVerify2 L).dumps ⟨q, none⟩ = .ok body := hbody
      simp only [ok_bind, hdumps, pure, Except.pure]
      refine ⟨.send (.verify2 u hset2 hbody), hlog.store ⟨hentry.config, fun o ho => ?_⟩⟩
      cases ho
      exact ⟨q, w, p₁, p₂, rfl, hset2⟩

theorem alike_verify2 (hL : PickleLaw L shared) (h : Follows shared n n') (u : ι) {v : L.Verifier}
    {p₁ p₂ : L.PacketVerify1} {p : L.PacketVerify2} {b : Bytes}
    (hset : L.prioPacketVerify2SetData L.prioPacketVerify2New v p₁ p₂ = (.ok (), p))
    (hb : L.prioPacketVerify2Write p = .ok b) :
    ReplyRel (Carries L) (runServer L n ⟨u, "verify2", b⟩).1
        (serverConsume L n' ⟨u, .verify2 ⟨p, none⟩⟩).1 ∧
      Follows shared (runServer L n ⟨u, "verify2", b⟩).2
        (serverConsume L n' ⟨u, .verify2 ⟨p, none⟩⟩).2 := by
  have hk : kindOf "verify2" = some .verify2 := rfl
  have hrequeue := h.requeue (u := u)
  rcases hc : n'.cache u with _ | ⟨w, p1, _ | p2⟩
  · rw [hc] at hrequeue
    simp only [runServer, serverConsume, hk, h.get, hc]
    exact ⟨.again, hrequeue⟩
  · rw [hc] at hrequeue
    simp only [runServer, serverConsume, hk, h.get, hc]
    exact ⟨.again, hrequeue⟩
  · have hentry := h.cached u _ hc
    have hread := Codec.deserialize_standsFor hL.packet2 (.inr ⟨v, p₁, p₂, hset⟩)
      (q := true) ⟨b, hb, rfl⟩ hentry.config
    have hsame : isValid L w p2 ((packetVerify2 L).loads b) = isValid L w p2 ⟨p, none⟩ :=
      isValid_congr rfl hread
    simp only [runServer, serverConsume, hk, h.get, h.server, hc, hsame, service_del_store,
      del_store_eq]
    rcases isValid L w p2 ⟨p, none⟩ with e | (_ | _)
    · exact ⟨.error e, h⟩
    · exact ⟨.quiet, (h.logged u .invalidData).store hentry⟩
    · have hadd := (h.logged u .aggregateData).withServer
        (s := (aggregate L n'.server w).2) rfl
      dsimp only
      cases (aggregate L n'.server w).1 with
      | error e => exact ⟨.error e, hadd⟩
      | ok x => exact ⟨.quiet, hadd.store hentry⟩

/-- The server of examples/docker-asyncio answers a message as the one of
examples/asyncio answers the packet it carries. -/
theorem service_sim (hL : PickleLaw L shared) :
    Sim (runServer L) (serverConsume L) (Follows shared (ι := ι)) (Carries L) := by
  intro n n' m m' h hm
  cases hm with
  | data u b => exact alike_data hL h u b
  | verify1 u hset hb => exact alike_verify1 hL h u hset hb
  | verify2 u hset hb => exact alike_verify2 hL h u hset hb

end Alike

/-! ## The runs of the two examples -/

section Runs

/-- What the client publishes, its ids being `str(i)`. -/
theorem runClient_ok {config : L.Config} {nFields nClients : ℕ} {coins : ℕ → L.Coins}
    {messages : List (ServerId × Message String)}
    (h : runClient L config nFields nClients coins = .ok messages) :
    ∃ share, messages = publishes ((List.range nClients).map toString) share ∧
      ((List.range nClients).map toString).Nodup ∧ ∀ i < nClients,
        clientEncode L config (dataItems nFields) (coins i) =
          .ok (share .A (toString i), share .B (toString i)) := by
  unfold runClient at h
  obtain ⟨parts, hparts, hmessages⟩ := bind_ok h
  cases hmessages
  obtain ⟨share, hshare⟩ := client_shares fun i hi => by
    obtain ⟨ys, hys⟩ := exists_mapM_ok.1 ⟨parts, hparts⟩ i (List.mem_range.2 hi)
    exact (bind_ok hys).imp fun _ hz => hz.1
  have hext : ∀ p i, Function.extend toString (share p) (fun _ => []) (toString i) = share p i :=
    fun p i => Python.toString_injective.extend_apply _ _ i
  refine ⟨fun p => Function.extend toString (share p) fun _ => [], ?_,
    List.nodup_range.map Python.toString_injective, fun i hi => by simp only [hext, hshare i hi]⟩
  have hmap : (List.range nClients).mapM (fun i => do
      let (forServerA, forServerB) ← clientEncode L config (dataItems nFields) (coins i)
      pure [((.A, ⟨toString i, "data", forServerA⟩) : ServerId × Message String),
        (.B, ⟨toString i, "data", forServerB⟩)]) = .ok ((List.range nClients).map fun i =>
          [(.A, ⟨toString i, "data", share .A i⟩), (.B, ⟨toString i, "data", share .B i⟩)]) :=
    mapM_ok fun i hi => by
      rw [hshare i (List.mem_range.1 hi)]
      rfl
  cases hmap.symm.trans hparts
  simp only [publishes, List.flatMap_map, hext]
  rfl

variable [DecidableEq ι] {S : Setup L} {ids : List ι} {share : ServerId → ι → Bytes}
  {shared : L.Config → Prop}

omit [DecidableEq ι] in
theorem publishes_carry (ids : List ι) (share : ServerId → ι → Bytes) :
    List.Forall₂ (fun a b => a.1 = b.1 ∧ Carries L a.2 b.2) (publishes ids share)
      (sends ids share) := by
  induction ids with
  | nil => exact .nil
  | cons u ids ih => exact .cons ⟨rfl, .data u _⟩ (.cons ⟨rfl, .data u _⟩ ih)

omit [DecidableEq ι] in
theorem start_related (ids : List ι) (share : ServerId → ι → Bytes)
    (hS : ∀ p, shared (S.config p)) :
    Related (Follows shared) (Carries L) (serviceStart S (publishes ids share))
      (start S ids share) where
  todo := publishes_carry ids share
  node p := ⟨rfl, fun _ => rfl, rfl, hS p, fun _ _ hc => by cases hc⟩
  inbox _ := .nil
  alive := rfl

/-- Pickling the packets changes nothing: the servers of the two examples take
the same steps in the same order, and end with the same servers, entries and
lines, and with messages that carry the packets. -/
theorem service_exchange (hL : PickleLaw L shared) (hS : ∀ p, shared (S.config p))
    (ls : List (Label ServerId)) :
    (∀ s, (service S (publishes ids share)).Run (serviceStart S (publishes ids share)) ls s →
      ∃ t, (exchange S ids share).Run (start S ids share) ls t ∧
        Related (Follows shared) (Carries L) s t) ∧
    ∀ t, (exchange S ids share).Run (start S ids share) ls t →
      ∃ s, (service S (publishes ids share)).Run (serviceStart S (publishes ids share)) ls s ∧
        Related (Follows shared) (Carries L) s t := by
  have hstart := start_related ids share hS
  refine ⟨fun s hrun => (service_sim hL).run hrun hstart, fun t hrun => ?_⟩
  obtain ⟨s, hs, hrel⟩ := (service_sim hL).flip.run hrun hstart.flip
  exact ⟨s, hs, hrel.flip⟩

theorem service_exchange_sample : ∃ (s : St ServerId (Service plain ℕ) (Message ℕ))
    (t : Sys plain ℕ), (s.node .A).added = [1] ∧
      Related (Follows fun _ => True) (Carries plain) s t ∧
      (exchange Sample.setup [0, 1, 2] Sample.share).Reachable t := by
  have hrun : (LTS.exec (Mailbox.step otherServer (runServer plain))
      (serviceStart Sample.setup (publishes [0, 1, 2] Sample.share))
      (Sample.posts ++ Sample.reversed)).map (fun s => (s.node .A).added) = some [1] := by
    decide +kernel
  obtain ⟨s, hs, hadded⟩ := Option.map_eq_some_iff.1 hrun
  have hservice : (service Sample.setup (publishes [0, 1, 2] Sample.share)).Run
      (serviceStart Sample.setup (publishes [0, 1, 2] Sample.share)) _ s := LTS.run_of_exec _ hs
  obtain ⟨t, ht, hrel⟩ :=
    (service_exchange (plain_pickle fun _ => True) (fun _ => trivial) _).1 s hservice
  exact ⟨s, t, hadded, hrel, _, _, rfl, ht⟩

/-- The servers of examples/docker-asyncio over first-in first-out queues. -/
def serviceFifo (S : Setup L) (messages : List (ServerId × Message ι)) :
    LTS (St ServerId (Service L ι) (Message ι)) (Label ServerId) :=
  Mailbox.fifo otherServer (runServer L) fun s => s = serviceStart S messages

end Runs

section Completes

variable {V : View L} {S : Setup L} {cfg : L.Config} {nFields nClients : ℕ} {coins : ℕ → L.Coins}
  {messages : List (ServerId × Message String)} {shared : L.Config → Prop}

theorem dataItems_vector (nFields : ℕ) : ClientVector nFields (dataItems nFields) where
  length := by simp [dataItems]
  bit b hb := by
    obtain ⟨i, -, rfl⟩ := List.mem_map.1 hb
    split
    · exact .inr rfl
    · exact .inl rfl

/-- Once the client has published its shares, and under every schedule in which
both servers take turns again and again, both servers aggregate every client
once in the end, and their accumulators add up to `nClients` times the data. -/
theorem service_completes (hV : OutputLaws V nFields cfg S) (hL : PickleLaw L shared)
    (hS : ∀ p, shared (S.config p)) (hsecret : S.secret .A = S.secret .B)
    (hmod : nClients < V.modulus)
    (hmessages : runClient L cfg nFields nClients coins = .ok messages)
    {s : St ServerId (Service L String) (Message String)}
    (hr : (serviceFifo S messages).Reachable s) (htodo : s.todo = []) {σ : ℕ → ServerId}
    (hσ : Fair σ) : ∃ n,
      (∀ p, ((trace otherServer (runServer L) σ s n).node p).added.Perm
        ((List.range nClients).map toString)) ∧
      ∀ j < nFields,
        (V.acc ((trace otherServer (runServer L) σ s n).node .A).server.inst j +
          V.acc ((trace otherServer (runServer L) σ s n).node .B).server.inst j).val =
            field (dataItems nFields) j * nClients := by
  obtain ⟨share, rfl, hnd, henc⟩ := runClient_ok hmessages
  obtain ⟨_, ls, rfl, hrun⟩ := hr
  obtain ⟨t, ht, hrel⟩ : ∃ t, (exchangeFifo S _ share).Run (start S _ share) ls t ∧
      Related (Follows shared) (Carries L) s t :=
    (service_sim hL).run_fifo hrun (start_related _ _ hS)
  have hpairs : ∀ u ∈ (List.range nClients).map toString,
      V.Encodes nFields cfg (share .A u) (share .B u) (dataItems nFields) := fun u hu => by
    obtain ⟨i, hi, rfl⟩ := List.mem_map.1 hu
    exact ⟨dataItems_vector nFields, coins i, henc i (List.mem_range.1 hi)⟩
  have hdec : ∀ p, ∀ u ∈ (List.range nClients).map toString,
      V.decodes (S.ident p) (share p u) = true := fun p u hu => by
    have hd := hV.encode.decodes _ _ _ (hpairs u hu)
    cases p
    · exact hd.1
    · exact hd.2
  have hreach : (exchangeFifo S _ share).Reachable t := ⟨_, ls, rfl, ht⟩
  obtain ⟨h, hf⟩ := (full_reachable hV.toLaws hnd hdec).reachable t (LTS.Reachable.of_guard hreach)
  have htodo' : t.todo = [] := by
    have := hrel.todo
    rwa [htodo, List.forall₂_nil_left_iff] at this
  obtain ⟨n, hn⟩ := (exchange_progress hV.toLaws hnd hdec).eventually ⟨h, hf, htodo'⟩ hσ
  have hend : Related (Follows shared) (Carries L) (trace otherServer (runServer L) σ s n)
      (trace otherServer (serverConsume L) σ t n) := (service_sim hL).trace hrel σ n
  have hfifo := fifo_trace σ hreach n
  refine ⟨n, fun p => ?_, fun j hj => ?_⟩
  · rw [(hend.node p).added]
    exact complete_added hV hsecret hnd hpairs hfifo hn p
  · rw [(hend.node .A).server, (hend.node .B).server, complete_sums hV hsecret hnd
      (dataItems_vector nFields) (by simpa using hmod) hpairs hfifo hn hj]
    simp

/-- The messages of two clients. -/
def Sample.published : List (ServerId × Message String) :=
  match runClient plain Sample.cfg 2 2 fun i => ⟨UInt8.ofNat i, 3⟩ with
  | .ok messages => messages
  | .error _ => []

theorem service_completes_sample : ∃ (s : St ServerId (Service plain String) (Message String))
    (n : ℕ), (s.inbox .A).length = 2 ∧
      ∀ p, ((trace otherServer (runServer plain) Sample.schedule s n).node p).added.Perm
        ["0", "1"] := by
  have hrun : (LTS.exec
      (fun s l => if First l then Mailbox.step otherServer (runServer plain) s l else none)
      (serviceStart Sample.setup Sample.published) (List.replicate 4 .post)).map
        (fun s => (s.todo.isEmpty, (s.inbox .A).length)) = some (true, 2) := by decide +kernel
  obtain ⟨s, hs, hobs⟩ := Option.map_eq_some_iff.1 hrun
  have hmessages : runClient plain Sample.cfg 2 2 (fun i => ⟨UInt8.ofNat i, 3⟩) =
      .ok Sample.published := rfl
  obtain ⟨n, hadded, -⟩ := service_completes (plain_outputLaws rfl Sample.setup)
    (plain_pickle fun _ => True) (fun _ => trivial) rfl (by decide) hmessages
    ⟨_, _, rfl, LTS.guard_run_of_exec _ hs⟩ (List.isEmpty_iff.1 (congrArg Prod.fst hobs))
    Sample.schedule_fair
  exact ⟨s, n, congrArg Prod.snd hobs, hadded⟩

end Completes

/-! ## A message that is delivered again -/

section Redelivery

variable [DecidableEq ι] {V : View L} {S : Setup L} {ids : List ι} {share : ServerId → ι → Bytes}
  {shared : L.Config → Prop} {n : Service L ι} {u : ι} {c : Cached L} {o : PacketVerify2 L}
  {b body : Bytes} {r : V.Point}

/-- The messages are handled one after the other. -/
def Service.handleAll (n : Service L ι) : List (Message ι) → Except PyExc (Service L ι)
  | [] => .ok n
  | m :: ms => match runServer L n m with
    | (.error e, _) => .error e
    | (.ok _, n) => n.handleAll ms

/-- A verify2 message that was accepted is accepted again, and its share is
added again. -/
theorem run_verify2_accepted (hV : Laws V) (hget : n.get u = some c) (hp2 : c.p2 = some o)
    (hheld : V.held c.v.inst = some ⟨V.ident n.server.inst, b, r⟩)
    (hvalid : isValid L c.v o ((packetVerify2 L).loads body) = .ok true) :
    runServer L n ⟨u, "verify2", body⟩ = (.ok .quiet,
      { n.logged u (.line .aggregateData) with server := (aggregate L n.server c.v).2 }.store u
        (some c)) := by
  have hk : kindOf "verify2" = some .verify2 := rfl
  have hagg : (aggregate L n.server c.v).1 = .ok () := (hV.aggregate.aggregate _ _ _ _ hheld).1
  obtain ⟨v, p1, p2⟩ := c
  cases hp2
  simp only [runServer, hk, hget, hvalid, hagg, service_del_store]

theorem redelivered (hV : Laws V) (hget : n.get u = some c) (hp2 : c.p2 = some o)
    (hheld : V.held c.v.inst = some ⟨V.ident n.server.inst, b, r⟩)
    (hvalid : isValid L c.v o ((packetVerify2 L).loads body) = .ok true) (k : ℕ) :
    ∃ n', n.handleAll (List.replicate k ⟨u, "verify2", body⟩) = .ok n' ∧
      V.acc n'.server.inst = V.acc n.server.inst + k • V.data (V.ident n.server.inst) b ∧
      n'.added = n.added ++ List.replicate k u := by
  induction k generalizing n with
  | zero => exact ⟨n, rfl, by simp, by simp⟩
  | succ k ih =>
    obtain ⟨hident, hacc⟩ := aggregate_keeps hV hheld
    have hturn := run_verify2_accepted hV hget hp2 hheld hvalid
    obtain ⟨n', hrun, hacc', hadded⟩ := ih
      (n := { n.logged u (.line .aggregateData) with
        server := (aggregate L n.server c.v).2 }.store u (some c))
      (by rw [service_store_get, Function.update_self])
      (by rw [service_store_server]; dsimp only; rw [hident]; exact hheld)
    refine ⟨n', ?_, ?_, ?_⟩
    · rw [List.replicate_succ, Service.handleAll, hturn]
      exact hrun
    · rw [hacc', service_store_server]
      dsimp only
      rw [hident, hacc, succ_nsmul]
      abel
    · rw [hadded, List.replicate_succ]
      simp [Service.added, Service.lines, Service.logged, Service.store]

/-- In every reachable state, the last message of a client that was aggregated
can be delivered again any number of times: each delivery is accepted and adds
the share of the client once more. -/
theorem redelivery_adds (hV : Laws V) (hL : PickleLaw L shared) (hS : ∀ p, shared (S.config p))
    (hnd : ids.Nodup) {s : St ServerId (Service L ι) (Message ι)}
    (hr : (service S (publishes ids share)).Reachable s) {p : ServerId}
    (hu : u ∈ (s.node p).added) :
    ∃ c o body, (s.node (otherServer p)).get u = some c ∧ c.p2 = some o ∧
      (packetVerify2 L).dumps o = .ok body ∧
      ∀ k, ∃ n', (s.node p).handleAll (List.replicate k ⟨u, "verify2", body⟩) = .ok n' ∧
        V.acc n'.server.inst = V.acc (s.node p).server.inst + k • V.data (S.ident p) (share p u) ∧
        n'.added = (s.node p).added ++ List.replicate k u := by
  obtain ⟨_, ls, rfl, hrun⟩ := hr
  obtain ⟨t, ht, hrel⟩ : ∃ t, (exchange S ids share).Run (start S ids share) ls t ∧
      Related (Follows shared) (Carries L) s t := (service_sim hL).run hrun (start_related _ _ hS)
  have hinv := ((inv_reachable hV hnd).reachable t ⟨_, ls, rfl, ht⟩).nodes
  have hp := hrel.node p
  have hother := hrel.node (otherServer p)
  rw [hp.added] at hu
  have hverdict := hinv.added p u hu
  simp only [verdict, Option.bind_eq_bind, Option.bind_eq_some_iff] at hverdict
  obtain ⟨o, ho, o', ho', q, hq, q', hq', hb⟩ := hverdict
  simp only [Node.sent2, Option.bind_eq_some_iff] at ho ho'
  obtain ⟨c, hc, hp2⟩ := ho
  obtain ⟨c', hc', hp2'⟩ := ho'
  obtain ⟨y, v, p₁, p₂, rfl, hset⟩ := (hother.cached u c' hc').made o' hp2'
  obtain ⟨body, hbody⟩ := hL.packet2.written y ⟨v, p₁, p₂, hset⟩
  refine ⟨c', _, body, (hother.get u).trans hc', hp2', hbody, fun k => ?_⟩
  obtain ⟨-, r, x, hopened⟩ := hinv.opened p u c hc
  have hread := Codec.deserialize_standsFor hL.packet2 (.inr ⟨v, p₁, p₂, hset⟩)
    (q := true) ⟨body, hbody, rfl⟩ (hp.cached u c hc).config
  obtain ⟨_, _, _, _, _, _, _, _, _, hanswered⟩ := hinv.answered p u c o hc hp2
  have hvalid : isValid L c.v o ((packetVerify2 L).loads body) = .ok true := by
    have hsame : isValid L c.v o ((packetVerify2 L).loads body) = isValid L c.v o ⟨y, none⟩ :=
      isValid_congr rfl hread
    rw [hsame, isValid_eq hV c.v hanswered.pending hq rfl hq', Option.some.inj hb]
  have hident : V.ident (s.node p).server.inst = S.ident p := by
    rw [hp.server]
    exact hinv.ident p
  have hheld := hopened.held
  rw [← hident] at hheld
  rw [← hident]
  exact redelivered hV ((hp.get u).trans hc) hp2 hheld hvalid k

theorem redelivery_adds_sample : ∃ (n n' : Service plain ℕ) (m : Message ℕ),
    n.added = [0, 1] ∧ n.handleAll (List.replicate 3 m) = .ok n' ∧
      n'.added = [0, 1] ++ List.replicate 3 1 := by
  have hrun : (LTS.exec (Mailbox.step otherServer (runServer plain))
      (serviceStart Sample.setup (publishes [0, 1, 2] Sample.share))
      (Sample.posts ++ Sample.inTurn 9)).map (fun s => (s.node .A).added) = some [0, 1] := by
    decide +kernel
  obtain ⟨s, hs, hadded⟩ := Option.map_eq_some_iff.1 hrun
  have hreach : (service Sample.setup (publishes [0, 1, 2] Sample.share)).Reachable s :=
    ⟨_, _, rfl, LTS.run_of_exec _ hs⟩
  obtain ⟨-, -, body, -, -, -, hagain⟩ := redelivery_adds (p := .A) (u := 1) plain_laws
    (plain_pickle fun _ => True) (fun _ => trivial) (by decide) hreach (by rw [hadded]; decide)
  obtain ⟨n', hall, -, hadded'⟩ := hagain 3
  exact ⟨s.node .A, n', _, hadded, hall, by rw [hadded', hadded]⟩

end Redelivery

end PrioProcessor.L6
