import PrioProcessor.L1Prio.Plain
import PrioProcessor.Core.Lazy

/-!
# The wrapper classes

`prio_processor/prio/wrapper.py` wraps the libprio calls in classes. The three
that can be pickled (`PacketVerify1`, `PacketVerify2`, `TotalShare`) have the
same `deserialize`, `__getstate__` and `__setstate__` over their own libprio
calls: each is a `Codec`, an object of the class is a `Lazy` value whose
`pending` bytes are `_serial_data`, and a round trip through `pickle` is
`loads` of `dumps`.

* `createVerify2_congr`, `isValid_congr`, `totalShareFinal_congr`: a consumer
  deserializes its arguments first, so it does not tell apart objects that
  deserialize alike.
-/
namespace PrioProcessor.L1.Wrapper

variable (L : Libprio)

/-- `if self._serial_data:` of bytes. -/
def truthy (b : Bytes) : Bool := !b.isEmpty

/-- mirrors prio_processor/prio/wrapper.py:193-205 -/
def packetVerify1 : Codec PyExc L.PacketVerify1 Bytes L.Config :=
  ⟨L.prioPacketVerify1New, L.prioPacketVerify1Write, L.prioPacketVerify1Read, truthy⟩

/-- mirrors prio_processor/prio/wrapper.py:217-229 -/
def packetVerify2 : Codec PyExc L.PacketVerify2 Bytes L.Config :=
  ⟨L.prioPacketVerify2New, L.prioPacketVerify2Write, L.prioPacketVerify2Read, truthy⟩

/-- mirrors prio_processor/prio/wrapper.py:239-251 -/
def totalShare : Codec PyExc L.TotalShare Bytes L.Config :=
  ⟨L.prioTotalShareNew, L.prioTotalShareWrite, L.prioTotalShareRead, truthy⟩

abbrev PacketVerify1 : Type := Lazy L.PacketVerify1 Bytes

abbrev PacketVerify2 : Type := Lazy L.PacketVerify2 Bytes

abbrev TotalShare : Type := Lazy L.TotalShare Bytes

/-- A verifier, and the configuration of its server. -/
structure Verifier where
  config : L.Config
  inst : L.Verifier

structure Server where
  config : L.Config
  serverId : ServerId
  inst : L.Server

/-- `Client(config).encode(data)`
mirrors prio_processor/prio/wrapper.py:117-122 -/
def clientEncode (config : L.Config) (data : Bytes) (coins : L.Coins) :
    Except PyExc (Bytes × Bytes) := L.prioClientEncode config data coins

/-- `Server(config, server_id, private_key, secret)`
mirrors prio_processor/prio/wrapper.py:126-138 -/
def newServer (config : L.Config) (serverId : ServerId) (privateKey : L.PrivateKey)
    (secret : Bytes) : Server L :=
  ⟨config, serverId, L.prioServerNew config serverId privateKey secret⟩

/-- mirrors prio_processor/prio/wrapper.py:140-141,155-158 -/
def createVerifier (s : Server L) (data : Bytes) : Except PyExc (Verifier L) × Server L :=
  let r := L.prioVerifierSetData s.inst (L.prioVerifierNew s.inst) data
  (r.1.map fun _ => ⟨s.config, r.2.2⟩, { s with inst := r.2.1 })

/-- mirrors prio_processor/prio/wrapper.py:143-144 -/
def aggregate (s : Server L) (v : Verifier L) : Except PyExc Unit × Server L :=
  let r := L.prioServerAggregate s.inst v.inst
  (r.1, { s with inst := r.2 })

/-- `PacketVerify1(verifier)`
mirrors prio_processor/prio/wrapper.py:160-161,188-191 -/
def createVerify1 (v : Verifier L) : Except PyExc (PacketVerify1 L) := do
  let r := L.prioPacketVerify1SetData L.prioPacketVerify1New v.inst
  r.1
  pure ⟨r.2, none⟩

/-- `PacketVerify2(verifier, A, B)`
mirrors prio_processor/prio/wrapper.py:210-215 -/
def newPacketVerify2 (v : Verifier L) (p₁ p₂ : L.PacketVerify1) :
    Except PyExc (PacketVerify2 L) := do
  let r := L.prioPacketVerify2SetData L.prioPacketVerify2New v.inst p₁ p₂
  r.1
  pure ⟨r.2, none⟩

/-- mirrors prio_processor/prio/wrapper.py:163-170 -/
def createVerify2 (v : Verifier L) (verify1A verify1B : PacketVerify1 L) :
    Except PyExc (PacketVerify2 L) := do
  let a := (packetVerify1 L).deserialize v.config verify1A
  a.1
  let b := (packetVerify1 L).deserialize v.config verify1B
  b.1
  newPacketVerify2 L v a.2.value b.2.value

/-- mirrors prio_processor/prio/wrapper.py:172-183 -/
def isValid (v : Verifier L) (verify2A verify2B : PacketVerify2 L) : Except PyExc Bool := do
  let a := (packetVerify2 L).deserialize v.config verify2A
  a.1
  let b := (packetVerify2 L).deserialize v.config verify2B
  b.1
  match L.prioVerifierIsValid v.inst a.2.value b.2.value with
  | .ok () => .ok true
  | .error .runtimeError => .ok false
  | .error e => .error e

/-- `TotalShare(server)`
mirrors prio_processor/prio/wrapper.py:146-147,234-237 -/
def totalShares (server : L.Server) : Except PyExc (TotalShare L) := do
  let r := L.prioTotalShareSetData L.prioTotalShareNew server
  r.1
  pure ⟨r.2, none⟩

/-- mirrors prio_processor/prio/wrapper.py:259-263 -/
def totalShareFinal (config : L.Config) (tA tB : TotalShare L) : Except PyExc (List ℕ) := do
  let a := (totalShare L).deserialize config tA
  a.1
  let b := (totalShare L).deserialize config tB
  b.1
  L.prioTotalShareFinal config a.2.value b.2.value

variable {L}

theorem createVerify2_congr {v : Verifier L} {a a' b b' : PacketVerify1 L}
    (ha : (packetVerify1 L).deserialize v.config a = (packetVerify1 L).deserialize v.config a')
    (hb : (packetVerify1 L).deserialize v.config b = (packetVerify1 L).deserialize v.config b') :
    createVerify2 L v a b = createVerify2 L v a' b' := by
  unfold createVerify2
  rw [ha, hb]

theorem isValid_congr {v : Verifier L} {a a' b b' : PacketVerify2 L}
    (ha : (packetVerify2 L).deserialize v.config a = (packetVerify2 L).deserialize v.config a')
    (hb : (packetVerify2 L).deserialize v.config b = (packetVerify2 L).deserialize v.config b') :
    isValid L v a b = isValid L v a' b' := by
  unfold isValid
  rw [ha, hb]

theorem totalShareFinal_congr {config : L.Config} {a a' b b' : TotalShare L}
    (ha : (totalShare L).deserialize config a = (totalShare L).deserialize config a')
    (hb : (totalShare L).deserialize config b = (totalShare L).deserialize config b') :
    totalShareFinal L config a b = totalShareFinal L config a' b' := by
  unfold totalShareFinal
  rw [ha, hb]

/-! ## What the classes rely on -/

variable (L) in
/-- A packet or total share that was set holds data, is written to bytes that
are not empty, and is what reading the bytes with a configuration of `shared`
gives. -/
structure PickleLaw (shared : L.Config → Prop) : Prop where
  packet1 : (packetVerify1 L).Law
    (fun p => ∃ v, L.prioPacketVerify1SetData L.prioPacketVerify1New v = (.ok (), p)) shared
  packet2 : (packetVerify2 L).Law
    (fun p => ∃ v p₁ p₂, L.prioPacketVerify2SetData L.prioPacketVerify2New v p₁ p₂ = (.ok (), p))
    shared
  total : (totalShare L).Law
    (fun t => ∃ s, L.prioTotalShareSetData L.prioTotalShareNew s = (.ok (), t)) shared

theorem createVerify1_made {v : Verifier L} {o : PacketVerify1 L} (h : createVerify1 L v = .ok o) :
    ∃ p, o = ⟨p, none⟩ ∧
      ∃ v, L.prioPacketVerify1SetData L.prioPacketVerify1New v = (.ok (), p) := by
  unfold createVerify1 at h
  rcases hr : L.prioPacketVerify1SetData L.prioPacketVerify1New v.inst with ⟨e | u, p⟩
  · rw [hr] at h; cases h
  · rw [hr] at h; cases h; exact ⟨p, rfl, _, hr⟩

theorem newPacketVerify2_made {v : Verifier L} {p₁ p₂ : L.PacketVerify1} {o : PacketVerify2 L}
    (h : newPacketVerify2 L v p₁ p₂ = .ok o) : ∃ p, o = ⟨p, none⟩ ∧
      ∃ v p₁ p₂, L.prioPacketVerify2SetData L.prioPacketVerify2New v p₁ p₂ = (.ok (), p) := by
  unfold newPacketVerify2 at h
  rcases hr : L.prioPacketVerify2SetData L.prioPacketVerify2New v.inst p₁ p₂ with ⟨e | u, p⟩
  · rw [hr] at h; cases h
  · rw [hr] at h; cases h; exact ⟨p, rfl, _, _, _, hr⟩

theorem createVerify2_made {v : Verifier L} {a b : PacketVerify1 L} {o : PacketVerify2 L}
    (h : createVerify2 L v a b = .ok o) : ∃ p, o = ⟨p, none⟩ ∧
      ∃ v p₁ p₂, L.prioPacketVerify2SetData L.prioPacketVerify2New v p₁ p₂ = (.ok (), p) := by
  unfold createVerify2 at h
  rcases ha : (packetVerify1 L).deserialize v.config a with ⟨e | u, a'⟩
  · rw [ha] at h; cases h
  · rcases hb : (packetVerify1 L).deserialize v.config b with ⟨e | u, b'⟩
    · rw [ha, hb] at h; cases h
    · rw [ha, hb] at h; exact newPacketVerify2_made h

theorem totalShares_made {s : L.Server} {o : TotalShare L} (h : totalShares L s = .ok o) :
    ∃ t, o = ⟨t, none⟩ ∧ ∃ s, L.prioTotalShareSetData L.prioTotalShareNew s = (.ok (), t) := by
  unfold totalShares at h
  rcases hr : L.prioTotalShareSetData L.prioTotalShareNew s with ⟨e | u, t⟩
  · rw [hr] at h; cases h
  · rw [hr] at h; cases h; exact ⟨t, rfl, _, hr⟩

/-! ## The implementation `plain` -/

theorem plain_pickle (shared : Plain.Config → Prop) : PickleLaw plain shared where
  packet1 := {
    holds := fun p h => by
      obtain ⟨v, hv⟩ := h
      cases v with
      | none => cases hv
      | some w => cases hv; exact nofun
    written := fun p h => by
      obtain ⟨v, hv⟩ := h
      cases v with
      | none => cases hv
      | some w => cases hv; exact ⟨_, rfl⟩
    truthy := fun p b hp hw => by
      rcases hp with rfl | ⟨v, hv⟩
      · cases hw
      · cases v with
        | none => cases hv
        | some w => cases hv; cases hw; rfl
    read := fun p b c hp hw _ => by
      rcases hp with rfl | ⟨v, hv⟩
      · cases hw
      · cases v with
        | none => cases hv
        | some w => cases hv; cases hw; rfl }
  packet2 := {
    holds := fun p h => by
      obtain ⟨v, p₁, p₂, hv⟩ := h
      rcases v with - | w <;> rcases p₁ with - | x <;> rcases p₂ with - | y <;> cases hv
      exact nofun
    written := fun p h => by
      obtain ⟨v, p₁, p₂, hv⟩ := h
      rcases v with - | w <;> rcases p₁ with - | x <;> rcases p₂ with - | y <;> cases hv
      exact ⟨_, rfl⟩
    truthy := fun p b hp hw => by
      rcases hp with rfl | ⟨v, p₁, p₂, hv⟩
      · cases hw
      · rcases v with - | w <;> rcases p₁ with - | x <;> rcases p₂ with - | y <;> cases hv
        cases hw; rfl
    read := fun p b c hp hw _ => by
      rcases hp with rfl | ⟨v, p₁, p₂, hv⟩
      · cases hw
      · rcases v with - | w <;> rcases p₁ with - | x <;> rcases p₂ with - | y <;> cases hv
        cases hw; rfl }
  total := {
    holds := fun t h => by
      obtain ⟨s, hs⟩ := h
      cases hs; exact nofun
    written := fun t h => by
      obtain ⟨s, hs⟩ := h
      cases hs; exact ⟨_, rfl⟩
    truthy := fun t b ht hw => by
      rcases ht with rfl | ⟨s, hs⟩
      · cases hw
      · cases hs; cases hw; rfl
    read := fun t b c ht hw _ => by
      rcases ht with rfl | ⟨s, hs⟩
      · cases hw
      · cases hs
        cases hw
        obtain ⟨-, i, -, -, -, ⟨x, y⟩⟩ := s
        cases i <;> rfl }

end PrioProcessor.L1.Wrapper
