import PrioProcessor.L1Prio.Wrapper
import PrioProcessor.Core.Mailbox

/-!
# One turn of a server of examples/asyncio

`serverConsume` is the body of the loop of `server_consume`
(examples/asyncio/main.py:25-70): what the server does with the packet it took
from its queue. It keeps, for each client, the verifier and the packets it made
(`cache`), and the lines it logs (`log`).

A data packet opens a client (verify1 is sent), a verify1 packet of the other
server answers it (verify2 is sent), and a verify2 packet of the other server
closes it: the share is aggregated or found invalid. A verify1 or verify2 packet
that comes too early goes back into the queue.

* `consume_data`, `consume_verify1`, `consume_verify2`: what each of the turns
  does when libprio behaves (`LiveLaw`, `AggregateLaw`).
-/
namespace PrioProcessor.L6

open L1 L1.Wrapper

/-- mirrors examples/docker-asyncio/server.py:20-25 -/
def otherServer : ServerId → ServerId
  | .A => .B
  | .B => .A

@[simp] theorem otherServer_otherServer (p : ServerId) : otherServer (otherServer p) = p := by
  cases p <;> rfl

theorem otherServer_ne (p : ServerId) : otherServer p ≠ p := by cases p <;> exact nofun

theorem eq_or_eq_other (p q : ServerId) : q = p ∨ q = otherServer p := by
  cases p <;> cases q <;> simp [otherServer]

/-- The kinds of packets.
mirrors examples/asyncio/main.py:18-20 -/
inductive Kind where
  | data | verify1 | verify2
  deriving DecidableEq, Repr

/-- `packet.type` and `packet.data`. -/
inductive Body (L : Libprio) where
  | data (share : Bytes)
  | verify1 (p : PacketVerify1 L)
  | verify2 (p : PacketVerify2 L)

def Body.kind {L : Libprio} : Body L → Kind
  | .data _ => .data
  | .verify1 _ => .verify1
  | .verify2 _ => .verify2

/-- mirrors examples/asyncio/main.py:22 -/
structure Packet (L : Libprio) (ι : Type) where
  id : ι
  body : Body L

def Packet.key {L : Libprio} {ι : Type} (m : Packet L ι) : ι × Kind := (m.id, m.body.kind)

/-- The tuple `(v, p1, p2)` of a client in the cache. A verifier is stored
together with the verify1 packet it made. -/
structure Cached (L : Libprio) where
  v : Verifier L
  p1 : PacketVerify1 L
  p2 : Option (PacketVerify2 L)

/-- The lines a server logs about a client. -/
inductive Line where
  | generateVerify1 | generateVerify2 | aggregateData | invalidData
  deriving DecidableEq, Repr

structure Node (L : Libprio) (ι : Type) where
  server : Server L
  cache : ι → Option (Cached L)
  log : List (ι × Line)

namespace Node

variable {L : Libprio} {ι : Type}

def logged (n : Node L ι) (u : ι) (line : Line) : Node L ι := { n with log := n.log ++ [(u, line)] }

/-- The verify1 packet made for a client. -/
def sent1 (n : Node L ι) (u : ι) : Option (PacketVerify1 L) := (n.cache u).map Cached.p1

/-- The verify2 packet made for a client. -/
def sent2 (n : Node L ι) (u : ι) : Option (PacketVerify2 L) := (n.cache u).bind Cached.p2

/-- The clients whose share was aggregated, in order. -/
def added (n : Node L ι) : List ι :=
  n.log.filterMap fun x => if x.2 = .aggregateData then some x.1 else none

/-- The clients whose share was aggregated or found invalid, in order. -/
def closed (n : Node L ι) : List ι :=
  n.log.filterMap fun x => if x.2 = .aggregateData ∨ x.2 = .invalidData then some x.1 else none

variable [DecidableEq ι]

/-- `cache[pid] = c` -/
def store (n : Node L ι) (u : ι) (c : Cached L) : Node L ι :=
  { n with cache := Function.update n.cache u (some c) }

/-- `del cache[pid]` -/
def del (n : Node L ι) (u : ι) : Node L ι := { n with cache := Function.update n.cache u none }

/-- How many of the three packets of a client were handled. -/
def round (n : Node L ι) (u : ι) : ℕ :=
  match n.cache u with
  | none => 0
  | some c => if c.p2.isNone then 1 else if u ∈ n.closed then 3 else 2

end Node

variable (L : Libprio) {ι : Type} [DecidableEq ι]

/-- mirrors examples/asyncio/main.py:34-70 -/
def serverConsume (n : Node L ι) (packet : Packet L ι) :
    Except PyExc (Reply (Packet L ι)) × Node L ι :=
  match packet.body with
  | .data share =>
    let r := createVerifier L n.server share
    let n := { n.logged packet.id .generateVerify1 with server := r.2 }
    match (do let v ← r.1; let p1 ← createVerify1 L v; pure (v, p1)) with
    | .error e => (.error e, n)
    | .ok (v, p1) =>
      (.ok (.send ⟨packet.id, .verify1 p1⟩), n.store packet.id ⟨v, p1, n.sent2 packet.id⟩)
  | .verify1 external =>
    match n.cache packet.id with
    -- out of order: back into the queue
    | none => (.ok .again, n)
    | some c =>
      let n := n.logged packet.id .generateVerify2
      match createVerify2 L c.v c.p1 external with
      | .error e => (.error e, n)
      | .ok p2 => (.ok (.send ⟨packet.id, .verify2 p2⟩), n.store packet.id { c with p2 := some p2 })
  | .verify2 external =>
    match n.cache packet.id with
    | some ⟨v, p1, some p2⟩ =>
      match isValid L v p2 external with
      | .error e => (.error e, n)
      | .ok true =>
        let r := aggregate L n.server v
        let n := { n.logged packet.id .aggregateData with server := r.2 }
        match r.1 with
        | .error e => (.error e, n)
        -- the entry is deleted, and the end of the loop puts it back
        | .ok () => (.ok .quiet, (n.del packet.id).store packet.id ⟨v, p1, some p2⟩)
      | .ok false =>
        (.ok .quiet, ((n.logged packet.id .invalidData).del packet.id).store packet.id
          ⟨v, p1, some p2⟩)
    | _ => (.ok .again, n)

/-! ## Field lemmas -/

section Fields

variable {L} {n : Node L ι} {u w : ι} {c : Cached L} {line : Line}

omit [DecidableEq ι] in
@[simp] theorem logged_cache : (n.logged u line).cache = n.cache := rfl

omit [DecidableEq ι] in
@[simp] theorem logged_log : (n.logged u line).log = n.log ++ [(u, line)] := rfl

omit [DecidableEq ι] in
@[simp] theorem logged_server : (n.logged u line).server = n.server := rfl

@[simp] theorem store_log : (n.store u c).log = n.log := rfl

@[simp] theorem store_server : (n.store u c).server = n.server := rfl

@[simp] theorem store_cache_self : (n.store u c).cache u = some c := by simp [Node.store]

theorem store_cache_other (h : w ≠ u) : (n.store u c).cache w = n.cache w := by
  simp [Node.store, h]

@[simp] theorem del_store_eq : (n.del u).store u c = n.store u c := by
  simp [Node.del, Node.store]

/-- A deleted entry that is put back is the entry. -/
theorem del_store (h : n.cache u = some c) : (n.del u).store u c = n := by
  rw [del_store_eq]
  obtain ⟨server, cache, log⟩ := n
  simp only [Node.store]
  rw [← show cache u = some c from h, Function.update_eq_self]

omit [DecidableEq ι] in
theorem mem_added {n : Node L ι} : u ∈ n.added ↔ (u, .aggregateData) ∈ n.log := by
  simp only [Node.added, List.mem_filterMap, Option.ite_none_right_eq_some, Option.some.injEq,
    Prod.exists]
  constructor
  · rintro ⟨w, l, h, rfl, rfl⟩
    exact h
  · exact fun h => ⟨u, _, h, rfl, rfl⟩

omit [DecidableEq ι] in
theorem mem_closed {n : Node L ι} :
    u ∈ n.closed ↔ (u, .aggregateData) ∈ n.log ∨ (u, .invalidData) ∈ n.log := by
  simp only [Node.closed, List.mem_filterMap, Option.ite_none_right_eq_some, Option.some.injEq,
    Prod.exists]
  constructor
  · rintro ⟨w, l, h, rfl | rfl, rfl⟩
    · exact .inl h
    · exact .inr h
  · rintro (h | h)
    · exact ⟨u, _, h, .inl rfl, rfl⟩
    · exact ⟨u, _, h, .inr rfl, rfl⟩

end Fields

/-! ## What a turn does -/

/-- What the exchange relies on. -/
structure Laws {L : Libprio} (V : View L) : Prop where
  setData : V.SetDataLaw
  packet : V.PacketLaw
  live : V.LiveLaw
  aggregate : V.AggregateLaw

theorem plain_laws : Laws plainView :=
  ⟨Plain.plain_setData, Plain.plain_packet, Plain.plain_live, Plain.plain_aggregate⟩

/-- An entry whose verifier holds the share `b`, with the verify1 packet made
of it. -/
structure Opened {L : Libprio} (V : View L) (i : Ident L) (b : Bytes) (c : Cached L) (r : V.Point)
    (x : Bytes) : Prop where
  held : V.held c.v.inst = some ⟨i, b, r⟩
  pending : c.p1.pending = none
  seen : V.seen1 c.p1.value = some x
  made : V.Made1 ⟨i, b, r⟩ x

/-- A verify2 packet made from the verify1 packets `x` and `y`. -/
structure Answered {L : Libprio} (V : View L) (i : Ident L) (b : Bytes) (r : V.Point) (x y : Bytes)
    (o : PacketVerify2 L) (q : Bytes) : Prop where
  pending : o.pending = none
  seen : V.seen2 o.value = some q
  made : V.Made2 ⟨i, b, r⟩ x y q

theorem deserialize_none {ε P B C : Type} (K : Codec ε P B C) {c : C} {o : Lazy P B}
    (h : o.pending = none) : K.deserialize c o = (.ok (), o) := by
  obtain ⟨value, pending⟩ := o
  cases h
  rfl

section Turns

variable {L} {V : View L} {n : Node L ι} {u : ι} {b x y q q' : Bytes} {r : V.Point} {i : Ident L}
  {c : Cached L}

theorem consume_data (hV : Laws V) (hcache : n.cache u = none)
    (hd : V.decodes (V.ident n.server.inst) b = true) :
    ∃ c r x, serverConsume L n ⟨u, .data b⟩ = (.ok (.send ⟨u, .verify1 c.p1⟩),
        ({ n.logged u .generateVerify1 with
            server := (createVerifier L n.server b).2 }).store u c) ∧
      c.p2 = none ∧ Opened V (V.ident n.server.inst) b c r x ∧ c.v.inst =
        (L.prioVerifierSetData n.server.inst (L.prioVerifierNew n.server.inst) b).2.2 := by
  obtain ⟨r, hr⟩ := hV.setData.held n.server.inst (L.prioVerifierNew n.server.inst) b hd
  have hset := hV.setData.result n.server.inst (L.prioVerifierNew n.server.inst) b
  rw [if_pos hd] at hset
  have hset1 := hV.live.set1 L.prioPacketVerify1New _ _ hr
  obtain ⟨x, hx, hmade⟩ := hV.packet.set1 L.prioPacketVerify1New _ _ hr hset1
  refine ⟨⟨⟨n.server.config,
    (L.prioVerifierSetData n.server.inst (L.prioVerifierNew n.server.inst) b).2.2⟩,
    ⟨_, none⟩, none⟩,
    r, x, ?_, rfl, ⟨hr, rfl, hx, hmade⟩, rfl⟩
  have hsent : ({ n.logged u .generateVerify1 with
      server := (createVerifier L n.server b).2 } : Node L ι).sent2 u = none := by
    simp [Node.sent2, hcache]
  simp only [serverConsume, hsent]
  simp only [createVerifier, createVerify1, hset, hset1, Except.map, ok_bind, pure, Except.pure]

theorem consume_data_error (hV : Laws V) (hd : V.decodes (V.ident n.server.inst) b ≠ true) :
    serverConsume L n ⟨u, .data b⟩ = (.error .runtimeError,
      { n.logged u .generateVerify1 with server := (createVerifier L n.server b).2 }) := by
  have hset := hV.setData.result n.server.inst (L.prioVerifierNew n.server.inst) b
  rw [if_neg hd] at hset
  simp only [serverConsume, createVerifier, hset, Except.map]
  rfl

omit [DecidableEq ι] in
/-- Setting a share changes neither what the server is nor what it has added. -/
theorem createVerifier_keeps (hV : Laws V) (s : Server L) (b : Bytes) :
    V.ident (createVerifier L s b).2.inst = V.ident s.inst ∧
      V.acc (createVerifier L s b).2.inst = V.acc s.inst :=
  ⟨hV.setData.ident _ _ _, hV.setData.acc _ _ _⟩

theorem consume_verify1 (hV : Laws V) (hcache : n.cache u = some c) (ho : Opened V i b c r x)
    {o : PacketVerify1 L} (hpend : o.pending = none) (hy : V.seen1 o.value = some y) :
    ∃ o' q, serverConsume L n ⟨u, .verify1 o⟩ = (.ok (.send ⟨u, .verify2 o'⟩),
        (n.logged u .generateVerify2).store u { c with p2 := some o' }) ∧
      Answered V i b r x y o' q := by
  have hset2 := hV.live.set2 L.prioPacketVerify2New _ _ _ _ _ _ ho.held ho.seen hy
  obtain ⟨q, hq, hmade⟩ :=
    hV.packet.set2 L.prioPacketVerify2New _ _ _ _ _ _ ho.held ho.seen hy hset2
  refine ⟨⟨_, none⟩, q, ?_, rfl, hq, hmade⟩
  simp only [serverConsume, hcache, createVerify2, deserialize_none _ ho.pending,
    deserialize_none _ hpend, newPacketVerify2, hset2, ok_bind, pure, Except.pure]

omit [DecidableEq ι] in
/-- Two verify2 packets are valid or not by what is in them. -/
theorem isValid_eq (hV : Laws V) (v : Verifier L) {o o' : PacketVerify2 L}
    (hpend : o.pending = none) (hq : V.seen2 o.value = some q) (hpend' : o'.pending = none)
    (hq' : V.seen2 o'.value = some q') : isValid L v o o' = .ok (V.valid q q') := by
  have hval := hV.aggregate.isValid v.inst o.value o'.value q q' hq hq'
  simp only [isValid, deserialize_none _ hpend, deserialize_none _ hpend', hval, ok_bind]
  cases V.valid q q' <;> rfl

theorem consume_verify2 (hV : Laws V) (hcache : n.cache u = some c) {o o' : PacketVerify2 L}
    (hp2 : c.p2 = some o) (hheld : V.held c.v.inst = some ⟨V.ident n.server.inst, b, r⟩)
    (hpend : o.pending = none) (hq : V.seen2 o.value = some q) (hpend' : o'.pending = none)
    (hq' : V.seen2 o'.value = some q') :
    serverConsume L n ⟨u, .verify2 o'⟩ = (.ok .quiet,
      if V.valid q q' then
        { n.logged u .aggregateData with server := (aggregate L n.server c.v).2 }
      else n.logged u .invalidData) := by
  obtain ⟨v, p1, p2⟩ := c
  cases hp2
  have hvalid := isValid_eq hV v hpend hq hpend' hq'
  have hagg : (aggregate L n.server v).1 = .ok () := (hV.aggregate.aggregate _ _ _ _ hheld).1
  cases hb : V.valid q q' with
  | true =>
    rw [hb] at hvalid
    have hstore := del_store (n := ({ n.logged u .aggregateData with
      server := (aggregate L n.server v).2 } : Node L ι)) (u := u) hcache
    simp only [serverConsume, hcache, hvalid, hagg, hstore, if_true]
  | false =>
    rw [hb] at hvalid
    have hstore := del_store (n := n.logged u .invalidData) (u := u) hcache
    simp only [serverConsume, hcache, hvalid, hstore, Bool.false_eq_true, if_false]

omit [DecidableEq ι] in
theorem aggregate_keeps (hV : Laws V) {s : Server L} {v : Verifier L}
    (hheld : V.held v.inst = some ⟨V.ident s.inst, b, r⟩) :
    V.ident (aggregate L s v).2.inst = V.ident s.inst ∧
      V.acc (aggregate L s v).2.inst = V.acc s.inst + V.data (V.ident s.inst) b :=
  (hV.aggregate.aggregate _ _ _ _ hheld).2

/-- A packet that goes back into the queue leaves the server as it was. -/
theorem consume_again {m : Packet L ι} (h : (serverConsume L n m).1 = .ok .again) :
    (serverConsume L n m).2 = n := by
  obtain ⟨u, body⟩ := m
  cases body with
  | data b =>
    simp only [serverConsume] at h
    split at h <;> cases h
  | verify1 o =>
    cases hc : n.cache u with
    | none => simp only [serverConsume, hc]
    | some c =>
      simp only [serverConsume, hc] at h
      split at h <;> cases h
  | verify2 o =>
    simp only [serverConsume] at h ⊢
    split at h
    · split at h
      · cases h
      · split at h <;> cases h
      · cases h
    · rfl

theorem consume_verify1_again {o : PacketVerify1 L} (h : n.sent1 u = none) :
    serverConsume L n ⟨u, .verify1 o⟩ = (.ok .again, n) := by
  have hc : n.cache u = none := by simpa [Node.sent1] using h
  simp only [serverConsume, hc]

theorem consume_verify2_again {o : PacketVerify2 L} (h : n.sent2 u = none) :
    serverConsume L n ⟨u, .verify2 o⟩ = (.ok .again, n) := by
  simp only [serverConsume]
  split
  · rename_i hc
    simp [Node.sent2, hc] at h
  · rfl

end Turns

end PrioProcessor.L6
