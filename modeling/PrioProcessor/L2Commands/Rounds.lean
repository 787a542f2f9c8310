import PrioProcessor.L1Prio.Plain
import PrioProcessor.Core.Effect
import PrioProcessor.Core.Base64

/-!
# The libprio calls of the commands

The command-line tools (`prio_processor/prio/commands.py`) and the Spark
functions (`prio_processor/spark/udf.py`) make the same libprio calls inside
their `try` blocks: `verify1Calls`, `verify2Calls` and `aggregateCalls`, over
the objects each block changes (`Round1`, `Round2`, `Round3`). An argument is
`none` where a table has a null; Python then raises `TypeError` in place of
the call.

* `verify1Calls_ok`, `verify2Calls_ok`: a packet that is written was made of
  the share given to this call.
* `verify1Calls_live`, `verify2Calls_live`: a share that decodes gets a packet.
* `rowCalls_exec`, `aggregateCalls_exec`: what one row of `aggregate` does, as a
  function of the row and the accumulator.
-/
namespace PrioProcessor.L2

open L1

/-- The options of a server's command.
mirrors prio_processor/prio/options.py:11-55,121-138 -/
structure Args where
  batchId : Bytes
  nData : ℕ
  serverId : ServerId
  privateKeyHex : Bytes
  sharedSecret : String
  publicKeyHexInternal : Bytes
  publicKeyHexExternal : Bytes
  deriving DecidableEq, Repr

/-- `bytes(x)` of a value that may be null. -/
def bytesArg : Option Bytes → Except PyExc Bytes
  | some b => .ok b
  | none => .error .typeError

theorem bytesArg_ok {b : Option Bytes} {x : Bytes} (h : bytesArg b = .ok x) : b = some x := by
  cases b with
  | none => cases h
  | some b => cases h; rfl

theorem bytesArg_error {b : Option Bytes} {e : PyExc} (h : bytesArg b = .error e) :
    e = .typeError := by
  cases b with
  | none => cases h; rfl
  | some b => cases h

/-- `base64.b64decode`. -/
def pyB64decode (s : String) : Except PyExc Bytes :=
  match b64decode s with
  | some b => .ok b
  | none => .error .valueError

@[simp] theorem pyB64decode_b64encode (b : Bytes) : pyB64decode (b64encode b) = .ok b := by
  unfold pyB64decode; rw [b64decode_b64encode]

section Calls

variable (L : Libprio)

/-- mirrors prio_processor/prio/commands.py:21-25 -/
def importPublicKeys (publicKeyHexInternal publicKeyHexExternal : Bytes) :
    Except PyExc (L.PublicKey × L.PublicKey) := do
  let internal ← L.publicKeyImportHex publicKeyHexInternal
  let external ← L.publicKeyImportHex publicKeyHexExternal
  pure (internal, external)

/-- mirrors prio_processor/prio/commands.py:28-32 -/
def importKeys (privateKeyHex publicKeyHexInternal publicKeyHexExternal : Bytes) :
    Except PyExc (L.PrivateKey × L.PublicKey × L.PublicKey) := do
  let privateKey ← L.privateKeyImportHex privateKeyHex publicKeyHexInternal
  let (internal, external) ← importPublicKeys L publicKeyHexInternal publicKeyHexExternal
  pure (privateKey, internal, external)

/-- `PRIO_SERVER_A` and `PRIO_SERVER_B`.
mirrors prio_processor/prio/commands.py:35-36 -/
def matchServer (serverId : ServerId) : ServerId := if serverId = .A then .A else .B

/-- The configuration and the server object every command starts from.
mirrors prio_processor/prio/commands.py:124-133,185-194,265-274 and
prio_processor/spark/udf.py:78-86,118-127,167-176 -/
def openServer (a : Args) (sharedSecret : Except PyExc Bytes) :
    Except PyExc (L.Config × L.Server) := do
  let (privateKey, internal, external) ←
    importKeys L a.privateKeyHex a.publicKeyHexInternal a.publicKeyHexExternal
  let config := L.prioConfigNew a.nData internal external a.batchId
  let secret ← sharedSecret
  pure (config, L.prioServerNew config (matchServer a.serverId) privateKey secret)

/-- Options whose keys and secret the commands accept. -/
structure Opened (a : Args) where
  privateKey : L.PrivateKey
  internal : L.PublicKey
  external : L.PublicKey
  seed : Bytes
  keys : importKeys L a.privateKeyHex a.publicKeyHexInternal a.publicKeyHexExternal =
    .ok (privateKey, internal, external)
  secret : b64decode a.sharedSecret = some seed

/-- The objects of verify1. -/
structure Round1 where
  server : L.Server
  verifier : L.Verifier
  packet : L.PacketVerify1

/-- The objects of verify2. -/
structure Round2 where
  server : L.Server
  verifier : L.Verifier
  packet1Internal : L.PacketVerify1
  packet1External : L.PacketVerify1
  packet : L.PacketVerify2

/-- The objects of aggregate. -/
structure Round3 where
  server : L.Server
  verifier : L.Verifier
  packet2Internal : L.PacketVerify2
  packet2External : L.PacketVerify2

def Round1.new (server : L.Server) : Round1 L :=
  ⟨server, L.prioVerifierNew server, L.prioPacketVerify1New⟩

def Round2.new (server : L.Server) : Round2 L :=
  ⟨server, L.prioVerifierNew server, L.prioPacketVerify1New, L.prioPacketVerify1New,
    L.prioPacketVerify2New⟩

def Round3.new (server : L.Server) : Round3 L :=
  ⟨server, L.prioVerifierNew server, L.prioPacketVerify2New, L.prioPacketVerify2New⟩

/-- mirrors prio_processor/prio/commands.py:150-152 and
prio_processor/spark/udf.py:91-93 -/
def verify1Calls (share : Option Bytes) : Eff PyExc (Round1 L) Bytes := do
  let share ← Eff.lift (bytesArg share)
  Eff.call fun o =>
    let r := L.prioVerifierSetData o.server o.verifier share
    (r.1, { o with server := r.2.1, verifier := r.2.2 })
  Eff.call fun o =>
    let r := L.prioPacketVerify1SetData o.packet o.verifier
    (r.1, { o with packet := r.2 })
  Eff.call fun o => (L.prioPacketVerify1Write o.packet, o)

/-- mirrors prio_processor/prio/commands.py:225-232 and
prio_processor/spark/udf.py:134-140 -/
def verify2Calls (config : L.Config) (share internal external : Option Bytes) :
    Eff PyExc (Round2 L) Bytes := do
  let share ← Eff.lift (bytesArg share)
  Eff.call fun o =>
    let r := L.prioVerifierSetData o.server o.verifier share
    (r.1, { o with server := r.2.1, verifier := r.2.2 })
  let internal ← Eff.lift (bytesArg internal)
  Eff.call fun o =>
    let r := L.prioPacketVerify1Read o.packet1Internal internal config
    (r.1, { o with packet1Internal := r.2 })
  let external ← Eff.lift (bytesArg external)
  Eff.call fun o =>
    let r := L.prioPacketVerify1Read o.packet1External external config
    (r.1, { o with packet1External := r.2 })
  Eff.call fun o =>
    let r := L.prioPacketVerify2SetData o.packet o.verifier o.packet1Internal o.packet1External
    (r.1, { o with packet := r.2 })
  Eff.call fun o => (L.prioPacketVerify2Write o.packet, o)

/-- mirrors prio_processor/prio/commands.py:299-303 and
prio_processor/spark/udf.py:188-192 -/
def aggregateCalls (config : L.Config) (share internal external : Option Bytes) :
    Eff PyExc (Round3 L) Unit := do
  let share ← Eff.lift (bytesArg share)
  Eff.call fun o =>
    let r := L.prioVerifierSetData o.server o.verifier share
    (r.1, { o with server := r.2.1, verifier := r.2.2 })
  let internal ← Eff.lift (bytesArg internal)
  Eff.call fun o =>
    let r := L.prioPacketVerify2Read o.packet2Internal internal config
    (r.1, { o with packet2Internal := r.2 })
  let external ← Eff.lift (bytesArg external)
  Eff.call fun o =>
    let r := L.prioPacketVerify2Read o.packet2External external config
    (r.1, { o with packet2External := r.2 })
  Eff.call fun o => (L.prioVerifierIsValid o.verifier o.packet2Internal o.packet2External, o)
  Eff.call fun o =>
    let r := L.prioServerAggregate o.server o.verifier
    (r.1, { o with server := r.2 })

/-- The final vector from two total shares.
mirrors prio_processor/prio/commands.py:355-365 and
prio_processor/spark/udf.py:265-276 -/
def finalCalls (config : L.Config) (serverId : ServerId) (internal external : Option Bytes) :
    Except PyExc (List ℕ) := do
  let internal ← bytesArg internal
  let shareInternal := L.prioTotalShareRead L.prioTotalShareNew internal config
  shareInternal.1
  let external ← bytesArg external
  let shareExternal := L.prioTotalShareRead L.prioTotalShareNew external config
  shareExternal.1
  -- ordering matters
  if matchServer serverId = .B then
    L.prioTotalShareFinal config shareExternal.2 shareInternal.2
  else
    L.prioTotalShareFinal config shareInternal.2 shareExternal.2

end Calls

@[simp] theorem matchServer_eq (i : ServerId) : matchServer i = i := by cases i <;> rfl

namespace Opened

variable {L : Libprio} {a : Args}

def config (o : Opened L a) : L.Config :=
  L.prioConfigNew a.nData o.internal o.external a.batchId

/-- The server object as `PrioServer_new` makes it. -/
def server (o : Opened L a) : L.Server :=
  L.prioServerNew o.config a.serverId o.privateKey o.seed

/-- What the server object was made with. -/
def ident (o : Opened L a) : Ident L := ⟨o.config, a.serverId, o.privateKey, o.seed⟩

theorem openServer_eq (o : Opened L a) :
    openServer L a (pyB64decode a.sharedSecret) = .ok (o.config, o.server) := by
  unfold openServer pyB64decode
  rw [o.keys, o.secret, matchServer_eq]
  rfl

theorem ident_server {V : L1.View L} (o : Opened L a) (hS : V.SetDataLaw) :
    V.ident o.server = o.ident := hS.new_ident _ _ _ _

end Opened

variable {L : Libprio} {V : L1.View L}

/-! ## verify1 -/

/-- A row moves the server by its `PrioVerifier_set_data` alone. -/
theorem verify1Calls_server (b : Bytes) (o : Round1 L) :
    ((verify1Calls L (some b)).exec o).2.server =
      (L.prioVerifierSetData o.server o.verifier b).2.1 := by
  unfold verify1Calls
  rw [Eff.exec_bind]
  simp only [Eff.exec_lift, bytesArg]
  rw [Eff.exec_bind]
  simp only [Eff.exec_call]
  cases (L.prioVerifierSetData o.server o.verifier b).1 with
  | error e => rfl
  | ok u =>
    have hkeep : Eff.Keeps (fun o' : Round1 L =>
        o'.server = (L.prioVerifierSetData o.server o.verifier b).2.1) (do
          Eff.call fun o =>
            let r := L.prioPacketVerify1SetData o.packet o.verifier
            (r.1, { o with packet := r.2 })
          Eff.call fun o => (L.prioPacketVerify1Write o.packet, o) : Eff PyExc (Round1 L) Bytes) :=
      Eff.keeps_bind (Eff.keeps_call fun _ h => h) fun _ => Eff.keeps_call fun _ h => h
    exact hkeep _ rfl

theorem verify1Calls_ok (hS : V.SetDataLaw) (hP : V.PacketLaw) {b q : Bytes} {o : Round1 L}
    (h : ((verify1Calls L (some b)).exec o).1 = .ok q) :
    V.decodes (V.ident o.server) b = true ∧ ∃ r,
      V.held (L.prioVerifierSetData o.server o.verifier b).2.2 = some ⟨V.ident o.server, b, r⟩ ∧
      V.Made1 ⟨V.ident o.server, b, r⟩ q := by
  unfold verify1Calls at h
  simp only [Eff.exec_bind_fst_ok, Eff.exec_lift, bytesArg, Eff.exec_call] at h
  obtain ⟨_, hb, u, hset, v, hpkt, hw⟩ := h
  cases hb
  have hd : V.decodes (V.ident o.server) b = true := by
    by_contra hd
    rw [hS.result, if_neg hd] at hset
    cases hset
  obtain ⟨r, hr⟩ := hS.held o.server o.verifier b hd
  obtain ⟨q', hq', hmade⟩ := hP.set1 o.packet _ _ hr hpkt
  rw [hP.write1 _ _ hq' q hw]
  exact ⟨hd, r, hr, hmade⟩

theorem verify1Calls_error (hR : View.VerifyRaises L) {b : Option Bytes} {o : Round1 L} {e : PyExc}
    (h : ((verify1Calls L b).exec o).1 = .error e) : e = .runtimeError ∨ bytesArg b = .error e := by
  unfold verify1Calls at h
  simp only [Eff.exec_bind_fst_error, Eff.exec_lift, Eff.exec_call] at h
  rcases h with h | ⟨_, -, h | ⟨_, -, h | ⟨_, -, h⟩⟩⟩
  · exact .inr h
  · exact .inl (hR.setData _ _ _ _ h)
  · exact .inl (hR.set1 _ _ _ h)
  · exact .inl (hR.write1 _ _ h)

theorem verify1Calls_ok_some {b : Option Bytes} {q : Bytes} {o : Round1 L}
    (h : ((verify1Calls L b).exec o).1 = .ok q) : ∃ b', b = some b' := by
  unfold verify1Calls at h
  simp only [Eff.exec_bind_fst_ok, Eff.exec_lift] at h
  obtain ⟨b', hb, -⟩ := h
  exact ⟨b', bytesArg_ok hb⟩

theorem verify1Calls_live (hS : V.SetDataLaw) (hP : V.PacketLaw) (hL : V.LiveLaw) {b : Bytes}
    {o : Round1 L} (hd : V.decodes (V.ident o.server) b = true) :
    ∃ q, ((verify1Calls L (some b)).exec o).1 = .ok q := by
  obtain ⟨r, hr⟩ := hS.held o.server o.verifier b hd
  have hset := hL.set1 o.packet _ _ hr
  obtain ⟨q, hq, -⟩ := hP.set1 o.packet _ _ hr hset
  refine ⟨q, ?_⟩
  unfold verify1Calls
  simp only [Eff.exec_bind_fst_ok, Eff.exec_lift, bytesArg, Eff.exec_call]
  exact ⟨b, rfl, (), by rw [hS.result, if_pos hd], (), hset, hL.write1 _ _ hq⟩

/-! ## verify2 -/

theorem verify2Calls_server (config : L.Config) (b : Bytes) (x y : Option Bytes) (o : Round2 L) :
    ((verify2Calls L config (some b) x y).exec o).2.server =
      (L.prioVerifierSetData o.server o.verifier b).2.1 := by
  unfold verify2Calls
  rw [Eff.exec_bind]
  simp only [Eff.exec_lift, bytesArg]
  rw [Eff.exec_bind]
  simp only [Eff.exec_call]
  cases (L.prioVerifierSetData o.server o.verifier b).1 with
  | error e => rfl
  | ok u =>
    have hkeep : ∀ m : Eff PyExc (Round2 L) Bytes,
        Eff.Keeps (fun o' => o'.server = (L.prioVerifierSetData o.server o.verifier b).2.1) m →
        (m.exec { o with server := (L.prioVerifierSetData o.server o.verifier b).2.1,
                         verifier := (L.prioVerifierSetData o.server o.verifier b).2.2 }).2.server =
          (L.prioVerifierSetData o.server o.verifier b).2.1 := fun m hm => hm _ rfl
    refine hkeep _ (Eff.keeps_bind (Eff.keeps_lift _) fun _ => ?_)
    refine Eff.keeps_bind (Eff.keeps_call fun _ h => h) fun _ => ?_
    refine Eff.keeps_bind (Eff.keeps_lift _) fun _ => ?_
    refine Eff.keeps_bind (Eff.keeps_call fun _ h => h) fun _ => ?_
    exact Eff.keeps_bind (Eff.keeps_call fun _ h => h) fun _ => Eff.keeps_call fun _ h => h

theorem verify2Calls_ok (hS : V.SetDataLaw) (hP : V.PacketLaw) {config : L.Config}
    {b x y q : Bytes} {o : Round2 L}
    (h : ((verify2Calls L config (some b) (some x) (some y)).exec o).1 = .ok q) :
    V.decodes (V.ident o.server) b = true ∧ ∃ r,
      V.held (L.prioVerifierSetData o.server o.verifier b).2.2 = some ⟨V.ident o.server, b, r⟩ ∧
      V.Made2 ⟨V.ident o.server, b, r⟩ x y q := by
  unfold verify2Calls at h
  simp only [Eff.exec_bind_fst_ok, Eff.exec_lift, bytesArg, Eff.exec_call] at h
  obtain ⟨_, hb, u, hset, _, hx, _, hread, _, hy, _, hread', v, hpkt, hw⟩ := h
  cases hb; cases hx; cases hy
  have hd : V.decodes (V.ident o.server) b = true := by
    by_contra hd
    rw [hS.result, if_neg hd] at hset
    cases hset
  obtain ⟨r, hr⟩ := hS.held o.server o.verifier b hd
  obtain ⟨q', hq', hmade⟩ :=
    hP.set2 o.packet _ _ _ _ x y hr (hP.read1 _ _ _ hread) (hP.read1 _ _ _ hread') hpkt
  rw [hP.write2 _ _ hq' q hw]
  exact ⟨hd, r, hr, hmade⟩

theorem verify2Calls_error (hR : View.VerifyRaises L) {config : L.Config}
    {b x y : Option Bytes} {o : Round2 L} {e : PyExc}
    (h : ((verify2Calls L config b x y).exec o).1 = .error e) :
    e = .runtimeError ∨ bytesArg b = .error e ∨ bytesArg x = .error e ∨ bytesArg y = .error e := by
  unfold verify2Calls at h
  simp only [Eff.exec_bind_fst_error, Eff.exec_lift, Eff.exec_call] at h
  rcases h with h | ⟨_, -, h | ⟨_, -, h | ⟨_, -, h | ⟨_, -, h | ⟨_, -, h | ⟨_, -, h |
    ⟨_, -, h⟩⟩⟩⟩⟩⟩⟩
  · exact .inr (.inl h)
  · exact .inl (hR.setData _ _ _ _ h)
  · exact .inr (.inr (.inl h))
  · exact .inl (hR.read1 _ _ _ _ h)
  · exact .inr (.inr (.inr h))
  · exact .inl (hR.read1 _ _ _ _ h)
  · exact .inl (hR.set2 _ _ _ _ _ h)
  · exact .inl (hR.write2 _ _ h)

theorem verify2Calls_ok_some {config : L.Config} {b x y : Option Bytes} {q : Bytes} {o : Round2 L}
    (h : ((verify2Calls L config b x y).exec o).1 = .ok q) :
    ∃ b' x' y', b = some b' ∧ x = some x' ∧ y = some y' := by
  unfold verify2Calls at h
  simp only [Eff.exec_bind_fst_ok, Eff.exec_lift] at h
  obtain ⟨b', hb, _, -, x', hx, _, -, y', hy, -⟩ := h
  exact ⟨b', x', y', bytesArg_ok hb, bytesArg_ok hx, bytesArg_ok hy⟩

theorem verify2Calls_live (hS : V.SetDataLaw) (hP : V.PacketLaw) (hL : V.LiveLaw)
    (config : L.Config) {b x y : Bytes} {o : Round2 L}
    (hd : V.decodes (V.ident o.server) b = true) (hx : V.reads1 x = true)
    (hy : V.reads1 y = true) :
    ∃ q, ((verify2Calls L config (some b) (some x) (some y)).exec o).1 = .ok q := by
  obtain ⟨r, hr⟩ := hS.held o.server o.verifier b hd
  have hread := hL.read1 o.packet1Internal x config
  have hread' := hL.read1 o.packet1External y config
  rw [if_pos hx] at hread
  rw [if_pos hy] at hread'
  have hs := hP.read1 _ _ _ hread
  have hs' := hP.read1 _ _ _ hread'
  have hset := hL.set2 o.packet _ _ _ _ x y hr hs hs'
  obtain ⟨q, hq, -⟩ := hP.set2 o.packet _ _ _ _ x y hr hs hs' hset
  refine ⟨q, ?_⟩
  unfold verify2Calls
  simp only [Eff.exec_bind_fst_ok, Eff.exec_lift, bytesArg, Eff.exec_call]
  exact ⟨b, rfl, (), by rw [hS.result, if_pos hd], x, rfl, (), hread, y, rfl, (), hread', (), hset,
    hL.write2 _ _ hq⟩

/-- A row that returns a packet has read both verify1 packets. -/
theorem verify2Calls_reads (hL : V.LiveLaw) {config : L.Config} {b x y : Bytes} {q : Bytes}
    {o : Round2 L} (h : ((verify2Calls L config (some b) (some x) (some y)).exec o).1 = .ok q) :
    V.reads1 x = true ∧ V.reads1 y = true := by
  unfold verify2Calls at h
  simp only [Eff.exec_bind_fst_ok, Eff.exec_lift, bytesArg, Eff.exec_call] at h
  obtain ⟨_, -, _, -, _, hx, _, hread, _, hy, _, hread', -⟩ := h
  cases hx
  cases hy
  constructor
  · by_contra hx
    rw [hL.read1, if_neg hx] at hread
    cases hread
  · by_contra hy
    rw [hL.read1, if_neg hy] at hread'
    cases hread'

/-! ## aggregate -/

/-- What one row of `aggregate` returns at server `i`. -/
def aggregateResult (V : View L) (i : Ident L) (share internal external : Option Bytes) :
    Except PyExc Unit :=
  match share with
  | none => .error .typeError
  | some b =>
    if V.decodes i b then
      match internal, external with
      | some x, some y =>
        if V.reads2 x && V.reads2 y && V.valid x y then .ok () else .error .runtimeError
      | some x, none => if V.reads2 x then .error .typeError else .error .runtimeError
      | none, _ => .error .typeError
    else .error .runtimeError

/-- The accumulator after a row that returned `r`. -/
def addShare (V : View L) (i : Ident L) (r : Except PyExc Unit) (share : Option Bytes)
    (acc : ℕ → ZMod V.modulus) : ℕ → ZMod V.modulus :=
  match r, share with
  | .ok (), some b => acc + V.data i b
  | _, _ => acc

theorem aggregateResult_ok_iff {i : Ident L} {b x y : Bytes} :
    aggregateResult V i (some b) (some x) (some y) = .ok () ↔
      V.decodes i b = true ∧ V.reads2 x = true ∧ V.reads2 y = true ∧ V.valid x y = true := by
  unfold aggregateResult
  by_cases hd : V.decodes i b = true
  · simp only [hd, if_true, true_and]
    by_cases hv : (V.reads2 x && V.reads2 y && V.valid x y) = true
    · rw [if_pos hv]; simpa [and_assoc] using hv
    · rw [if_neg hv]; simpa [and_assoc] using hv
  · simp [hd]

theorem aggregateResult_ok_some {i : Ident L} {b x y : Option Bytes} {u : Unit}
    (h : aggregateResult V i b x y = .ok u) :
    ∃ b' x' y', b = some b' ∧ x = some x' ∧ y = some y' := by
  unfold aggregateResult at h
  split at h
  · cases h
  · split at h
    · split at h
      · exact ⟨_, _, _, rfl, rfl, rfl⟩
      · split at h <;> cases h
      · cases h
    · cases h

theorem aggregateCalls_error (hR : View.AggregateRaises L) {config : L.Config}
    {b x y : Option Bytes} {o : Round3 L} {e : PyExc}
    (h : ((aggregateCalls L config b x y).exec o).1 = .error e) :
    e = .runtimeError ∨ bytesArg b = .error e ∨ bytesArg x = .error e ∨ bytesArg y = .error e := by
  unfold aggregateCalls at h
  simp only [Eff.exec_bind_fst_error, Eff.exec_lift, Eff.exec_call] at h
  rcases h with h | ⟨_, -, h | ⟨_, -, h | ⟨_, -, h | ⟨_, -, h | ⟨_, -, h | ⟨_, -, h |
    ⟨_, -, h⟩⟩⟩⟩⟩⟩⟩
  · exact .inr (.inl h)
  · exact .inl (hR.setData _ _ _ _ h)
  · exact .inr (.inr (.inl h))
  · exact .inl (hR.read2 _ _ _ _ h)
  · exact .inr (.inr (.inr h))
  · exact .inl (hR.read2 _ _ _ _ h)
  · exact .inl (hR.isValid _ _ _ _ h)
  · exact .inl (hR.aggregate _ _ _ h)

/-- A call that returns if `p`. -/
def returnsIf (p : Bool) : Except PyExc Unit := if p then .ok () else .error .runtimeError

/-- What one row of `aggregate` returns, call by call. -/
def rowResult (V : View L) (O : View.Outcomes L) (config : L.Config) (i : Ident L)
    (share internal external : Option Bytes) : Except PyExc Unit := do
  let share ← bytesArg share
  returnsIf (V.decodes i share)
  let internal ← bytesArg internal
  returnsIf (O.reads2 config internal)
  let external ← bytesArg external
  returnsIf (O.reads2 config external)
  returnsIf (O.valid i share internal external)
  returnsIf (O.adds i share)

theorem aggregateResult_eq (config : L.Config) (i : Ident L) (share x y : Option Bytes) :
    aggregateResult V i share x y = rowResult V V.outcomes config i share x y := by
  unfold aggregateResult rowResult View.outcomes
  rcases share with - | b
  · rfl
  cases hd : V.decodes i b
  · simp [bytesArg, returnsIf, hd, bind, Except.bind]
  rcases x with - | x
  · simp [bytesArg, returnsIf, hd, bind, Except.bind]
  cases hx : V.reads2 x
  · cases y <;> simp [bytesArg, returnsIf, hd, hx, bind, Except.bind]
  rcases y with - | y
  · simp [bytesArg, returnsIf, hd, hx, bind, Except.bind]
  cases hy : V.reads2 y
  · simp [bytesArg, returnsIf, hd, hx, hy, bind, Except.bind]
  · cases hv : V.valid x y <;> simp [bytesArg, returnsIf, hd, hx, hy, hv, bind, Except.bind]

theorem rowResult_ok {O : View.Outcomes L} {config : L.Config} {i : Ident L}
    {b x y : Option Bytes} {u : Unit} (h : rowResult V O config i b x y = .ok u) :
    ∃ b', b = some b' := by
  rcases b with - | b
  · cases h
  · exact ⟨b, rfl⟩

theorem returnsIf_error {p : Bool} {e : PyExc} (h : returnsIf p = .error e) :
    e = .runtimeError := by
  cases p with
  | false => cases h; rfl
  | true => cases h

theorem rowResult_error {O : View.Outcomes L} {config : L.Config} {i : Ident L}
    {b x y : Option Bytes} {e : PyExc} (h : rowResult V O config i b x y = .error e) :
    e = .typeError ∨ e = .runtimeError := by
  unfold rowResult at h
  rcases bind_error h with h | ⟨b, h⟩
  · exact .inl (bytesArg_error h)
  rcases bind_error h with h | ⟨-, h⟩
  · exact .inr (returnsIf_error h)
  rcases bind_error h with h | ⟨x, h⟩
  · exact .inl (bytesArg_error h)
  rcases bind_error h with h | ⟨-, h⟩
  · exact .inr (returnsIf_error h)
  rcases bind_error h with h | ⟨y, h⟩
  · exact .inl (bytesArg_error h)
  rcases bind_error h with h | ⟨-, h⟩
  · exact .inr (returnsIf_error h)
  rcases bind_error h with h | ⟨-, h⟩
  · exact .inr (returnsIf_error h)
  · exact .inr (returnsIf_error h)

/-- Along the server and the accumulator of the objects, one row of `aggregate`
is `rowResult` and `addShare`, whatever the other objects were left with. -/
theorem rowCalls_exec {O : View.Outcomes L} (hS : V.SetDataLaw) (hO : V.ContentLaw O)
    (config : L.Config) (share x y : Option Bytes) (o : Round3 L) :
    ((aggregateCalls L config share x y).exec o).1 =
      rowResult V O config (V.ident o.server) share x y ∧
    V.ident ((aggregateCalls L config share x y).exec o).2.server = V.ident o.server ∧
    V.acc ((aggregateCalls L config share x y).exec o).2.server =
      addShare V (V.ident o.server) (rowResult V O config (V.ident o.server) share x y) share
        (V.acc o.server) := by
  unfold aggregateCalls rowResult
  rcases share with - | b
  · exact ⟨rfl, rfl, rfl⟩
  have hset := hS.result o.server o.verifier b
  have hid := hS.ident o.server o.verifier b
  have hacc := hS.acc o.server o.verifier b
  simp only [Eff.exec_bind, Eff.exec_lift, Eff.exec_call, bytesArg, hset, hO.read2, ok_bind,
    returnsIf]
  cases hd : V.decodes (V.ident o.server) b
  · exact ⟨rfl, hid, hacc⟩
  rcases x with - | x
  · exact ⟨rfl, hid, hacc⟩
  simp only [if_true, ok_bind]
  cases hx : O.reads2 config x
  · exact ⟨rfl, hid, hacc⟩
  rcases y with - | y
  · exact ⟨rfl, hid, hacc⟩
  simp only [if_true, ok_bind]
  cases hy : O.reads2 config y
  · exact ⟨rfl, hid, hacc⟩
  -- from here on all three objects hold what this row put there
  obtain ⟨r, hr⟩ := hS.held o.server o.verifier b hd
  simp only [if_true, ok_bind, hO.isValid _ _ _ _ _ _ _ _ hr (hO.read2_seen _ _ _ hx)
    (hO.read2_seen _ _ _ hy)]
  cases hv : O.valid (V.ident o.server) b x y
  · exact ⟨rfl, hid, hacc⟩
  simp only [if_true, ok_bind]
  obtain ⟨hres, hid', hacc'⟩ := hO.aggregate _ _ b r (hid.symm ▸ hr)
  rw [hid] at hres hid' hacc'
  rw [hacc] at hacc'
  refine ⟨hres, hid', hacc'.trans ?_⟩
  cases ha : O.adds (V.ident o.server) b <;> rfl

/-- The same for the outcomes of `AggregateLaw`. -/
theorem aggregateCalls_exec (hS : V.SetDataLaw) (hA : V.AggregateLaw) (config : L.Config)
    (share x y : Option Bytes) (o : Round3 L) :
    ((aggregateCalls L config share x y).exec o).1 =
      aggregateResult V (V.ident o.server) share x y ∧
    V.ident ((aggregateCalls L config share x y).exec o).2.server = V.ident o.server ∧
    V.acc ((aggregateCalls L config share x y).exec o).2.server =
      addShare V (V.ident o.server) (aggregateResult V (V.ident o.server) share x y) share
        (V.acc o.server) := by
  rw [aggregateResult_eq config]
  exact rowCalls_exec hS hA.content config share x y o

/-! ## publish -/

/-- Server A's and server B's total shares open to the sum of what they stand
for, at server A and, with internal and external swapped, at server B. -/
theorem finalCalls_eq (hT : V.TotalLaw) (config : L.Config) {wA wB : Bytes}
    {g h : ℕ → ZMod V.modulus} (hA : V.WrittenTotal (.A, g) wA) (hB : V.WrittenTotal (.B, h) wB) :
    finalCalls L config .A (some wA) (some wB) =
      .ok ((List.range (L.prioConfigNumDataFields config)).map fun j => (g j + h j).val) ∧
    finalCalls L config .B (some wB) (some wA) =
      .ok ((List.range (L.prioConfigNumDataFields config)).map fun j => (g j + h j).val) := by
  obtain ⟨rfl, tA, htA⟩ := hA
  obtain ⟨rfl, tB, htB⟩ := hB
  obtain ⟨hrA, hsA⟩ := hT.read L.prioTotalShareNew tA _ config htA
  obtain ⟨hrB, hsB⟩ := hT.read L.prioTotalShareNew tB _ config htB
  have hfin := hT.final config _ _ g h hsA hsB
  constructor
  · unfold finalCalls
    simp only [bytesArg, bind, Except.bind, hrA, hrB, matchServer_eq, reduceCtorEq, if_false]
    exact hfin
  · unfold finalCalls
    simp only [bytesArg, bind, Except.bind, hrA, hrB, matchServer_eq, if_true]
    exact hfin

/-! ## Two servers

The options of a server A and a server B of the implementation `plain`, with
two data fields. -/

namespace Sample

def argsA : Args := ⟨[98], 2, .A, [1], b64encode [7], [10], [20]⟩

def argsB : Args := ⟨[98], 2, .B, [2], b64encode [7], [20], [10]⟩

def openedA : Opened plain argsA := ⟨[1], [10], [20], [7], rfl, b64decode_b64encode _⟩

def openedB : Opened plain argsB := ⟨[2], [20], [10], [7], rfl, b64decode_b64encode _⟩

end Sample

end PrioProcessor.L2
