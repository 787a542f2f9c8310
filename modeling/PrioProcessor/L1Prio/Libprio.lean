import PrioProcessor.Core.Base64
import PrioProcessor.Core.Effect
import Mathlib.Data.ZMod.Basic
import Mathlib.Tactic.Abel
import Mathlib.Data.List.GetD

/-!
# The libprio interface

`prio_processor` calls the C library through the `libprio` wrapper of the
`prio` package, which is not part of the repository: its types and functions
are the fields of `Libprio`, so every definition over them holds for any
implementation. Objects that a call changes are passed in and out; a call
that raises returns the changed objects too.

`View` names what an implementation's objects stand for, and the `…Law`
structures state, one call at a time, what the commands rely on. A result
takes only the laws it needs.
-/
namespace PrioProcessor.L1

/-- The exceptions the source catches or lets through. `binascii.Error` is a
`ValueError`; `analysisException` is Spark's. -/
inductive PyExc where
  | runtimeError | valueError | typeError | keyError | analysisException
  deriving DecidableEq, Repr

/-- `--server-id` (`click.Choice(["A", "B"])`), and the value of `match_server`.
mirrors prio_processor/prio/commands.py:35-36, prio_processor/prio/options.py:33-39 -/
inductive ServerId where
  | A | B
  deriving DecidableEq, Repr

/-- mirrors the calls of prio_processor/prio/commands.py and
prio_processor/spark/udf.py -/
structure Libprio where
  PublicKey : Type
  PrivateKey : Type
  Config : Type
  Server : Type
  Verifier : Type
  PacketVerify1 : Type
  PacketVerify2 : Type
  TotalShare : Type
  /-- the randomness of one `PrioClient_encode` -/
  Coins : Type
  publicKeyImportHex : Bytes → Except PyExc PublicKey
  privateKeyImportHex : Bytes → Bytes → Except PyExc PrivateKey
  prioConfigNew : ℕ → PublicKey → PublicKey → Bytes → Config
  prioConfigNumDataFields : Config → ℕ
  prioClientEncode : Config → Bytes → Coins → Except PyExc (Bytes × Bytes)
  prioServerNew : Config → ServerId → PrivateKey → Bytes → Server
  prioServerAggregate : Server → Verifier → Except PyExc Unit × Server
  prioServerWrite : Server → Except PyExc Bytes
  prioServerRead : Server → Bytes → Config → Except PyExc Unit × Server
  prioServerMerge : Server → Server → Except PyExc Unit × Server
  prioVerifierNew : Server → Verifier
  prioVerifierSetData : Server → Verifier → Bytes → Except PyExc Unit × Server × Verifier
  prioVerifierIsValid : Verifier → PacketVerify2 → PacketVerify2 → Except PyExc Unit
  prioPacketVerify1New : PacketVerify1
  prioPacketVerify1SetData : PacketVerify1 → Verifier → Except PyExc Unit × PacketVerify1
  prioPacketVerify1Write : PacketVerify1 → Except PyExc Bytes
  prioPacketVerify1Read : PacketVerify1 → Bytes → Config → Except PyExc Unit × PacketVerify1
  prioPacketVerify2New : PacketVerify2
  prioPacketVerify2SetData :
    PacketVerify2 → Verifier → PacketVerify1 → PacketVerify1 → Except PyExc Unit × PacketVerify2
  prioPacketVerify2Write : PacketVerify2 → Except PyExc Bytes
  prioPacketVerify2Read : PacketVerify2 → Bytes → Config → Except PyExc Unit × PacketVerify2
  prioTotalShareNew : TotalShare
  prioTotalShareSetData : TotalShare → Server → Except PyExc Unit × TotalShare
  prioTotalShareWrite : TotalShare → Except PyExc Bytes
  prioTotalShareRead : TotalShare → Bytes → Config → Except PyExc Unit × TotalShare
  /-- the words of the returned buffer (`array.array("L", final)`) -/
  prioTotalShareFinal : Config → TotalShare → TotalShare → Except PyExc (List ℕ)

/-! ## What the objects stand for -/

/-- The arguments a server object was made with. -/
structure Ident (L : Libprio) where
  config : L.Config
  id : ServerId
  key : L.PrivateKey
  seed : Bytes

/-- What a verifier holds after a share was set: the server it belongs to,
the share and the evaluation point. -/
structure Held (L : Libprio) (Point : Type) where
  server : Ident L
  share : Bytes
  point : Point

/-- A reading of the objects of an implementation. -/
structure View (L : Libprio) where
  /-- the modulus of the field (`Config`: 87 bits by default) -/
  modulus : ℕ
  Point : Type
  /-- the pseudorandom stream of a seed -/
  stream : Bytes → ℕ → Point
  ident : L.Server → Ident L
  /-- how many values of its stream a server has taken -/
  pos : L.Server → ℕ
  /-- the accumulator, by data field -/
  acc : L.Server → ℕ → ZMod modulus
  held : L.Verifier → Option (Held L Point)
  /-- the contents of a packet, as the bytes it is written as -/
  seen1 : L.PacketVerify1 → Option Bytes
  seen2 : L.PacketVerify2 → Option Bytes
  summed : L.TotalShare → Option (ServerId × (ℕ → ZMod modulus))
  /-- `PrioVerifier_set_data` accepts the share -/
  decodes : Ident L → Bytes → Bool
  /-- the share of the data vector in a share -/
  data : Ident L → Bytes → ℕ → ZMod modulus
  /-- `PrioPacketVerify1_read` and `PrioPacketVerify2_read` accept the bytes -/
  reads1 : Bytes → Bool
  reads2 : Bytes → Bool
  /-- `PrioVerifier_isValid` accepts the two packets -/
  valid : Bytes → Bytes → Bool
  /-- a verify1 packet of what a verifier holds -/
  Made1 : Held L Point → Bytes → Prop
  /-- a verify2 packet of what a verifier holds, from the verify1 packets
  `internal` and `external` -/
  Made2 : Held L Point → Bytes → Bytes → Bytes → Prop
  /-- the bytes of a total share -/
  totalBytes : ServerId × (ℕ → ZMod modulus) → Bytes
  /-- a failing `PrioVerifier_set_data` takes a value of the stream -/
  failTakes : Bool

/-- A client's data: one 0/1 byte for each field. -/
structure ClientVector (n : ℕ) (x : Bytes) : Prop where
  length : x.length = n
  bit : ∀ b ∈ x, b = 0 ∨ b = 1

/-- Field `j` of a client's data. -/
def field (x : Bytes) (j : ℕ) : ℕ := (x.getD j 0).toNat

theorem ClientVector.field_le {n : ℕ} {x : Bytes} (h : ClientVector n x) (j : ℕ) :
    field x j ≤ 1 := by
  unfold field
  by_cases hj : j < x.length
  · rw [List.getD_eq_getElem _ _ hj]
    rcases h.bit _ (List.getElem_mem hj) with h0 | h1
    · rw [h0]; decide
    · rw [h1]; decide
  · rw [List.getD_eq_default _ _ (by omega)]; decide

variable {L : Libprio}

namespace View

/-- The shares `a` (at server `i`) and `b` (at server `k`) are the two halves of
the client vector `x`. -/
structure Halves (V : View L) (n : ℕ) (i k : Ident L) (a b x : Bytes) : Prop where
  vector : ClientVector n x
  sum : ∀ j < n, V.data i a j + V.data k b j = (field x j : ZMod V.modulus)

/-! ## Laws -/

/-- `PrioConfig_new` keeps the number of data fields. -/
def ConfigLaw (L : Libprio) : Prop :=
  ∀ n a b batch, L.prioConfigNumDataFields (L.prioConfigNew n a b batch) = n

/-- `PrioServer_new` starts with an empty accumulator. Whether
`PrioVerifier_set_data` accepts a share depends on the share and the server;
it leaves the accumulator alone and, when it accepts, the verifier holds the
share. -/
structure SetDataLaw (V : View L) : Prop where
  new_ident : ∀ c i k s, V.ident (L.prioServerNew c i k s) = ⟨c, i, k, s⟩
  new_acc : ∀ c i k s, V.acc (L.prioServerNew c i k s) = 0
  result : ∀ s v b, (L.prioVerifierSetData s v b).1 =
    if V.decodes (V.ident s) b then .ok () else .error .runtimeError
  ident : ∀ s v b, V.ident (L.prioVerifierSetData s v b).2.1 = V.ident s
  acc : ∀ s v b, V.acc (L.prioVerifierSetData s v b).2.1 = V.acc s
  held : ∀ s v b, V.decodes (V.ident s) b = true →
    ∃ r, V.held (L.prioVerifierSetData s v b).2.2 = some ⟨V.ident s, b, r⟩

theorem SetDataLaw.error {V : View L} (h : V.SetDataLaw) {s : L.Server} {v : L.Verifier} {b : Bytes}
    {e : PyExc} (he : (L.prioVerifierSetData s v b).1 = .error e) : e = .runtimeError := by
  rw [h.result] at he
  split at he
  · cases he
  · cases he; rfl

/-- The packets of the two verification rounds: a call either raises
`RuntimeError` or makes a packet of what the verifier holds. -/
structure PacketLaw (V : View L) : Prop where
  set1 : ∀ p v h, V.held v = some h → (L.prioPacketVerify1SetData p v).1 = .ok () →
    ∃ q, V.seen1 (L.prioPacketVerify1SetData p v).2 = some q ∧ V.Made1 h q
  set1_error : ∀ p v e, (L.prioPacketVerify1SetData p v).1 = .error e → e = .runtimeError
  write1 : ∀ p q, V.seen1 p = some q → ∀ w, L.prioPacketVerify1Write p = .ok w → w = q
  write1_error : ∀ p e, L.prioPacketVerify1Write p = .error e → e = .runtimeError
  read1 : ∀ p b c, (L.prioPacketVerify1Read p b c).1 = .ok () →
    V.seen1 (L.prioPacketVerify1Read p b c).2 = some b
  read1_error : ∀ p b c e, (L.prioPacketVerify1Read p b c).1 = .error e → e = .runtimeError
  set2 : ∀ p v h p₁ p₂ x y, V.held v = some h → V.seen1 p₁ = some x → V.seen1 p₂ = some y →
    (L.prioPacketVerify2SetData p v p₁ p₂).1 = .ok () →
    ∃ q, V.seen2 (L.prioPacketVerify2SetData p v p₁ p₂).2 = some q ∧ V.Made2 h x y q
  set2_error : ∀ p v p₁ p₂ e, (L.prioPacketVerify2SetData p v p₁ p₂).1 = .error e →
    e = .runtimeError
  write2 : ∀ p q, V.seen2 p = some q → ∀ w, L.prioPacketVerify2Write p = .ok w → w = q
  write2_error : ∀ p e, L.prioPacketVerify2Write p = .error e → e = .runtimeError

/-- The calls of the two verification rounds raise `RuntimeError` only. -/
structure VerifyRaises (L : Libprio) : Prop where
  setData : ∀ s v b e, (L.prioVerifierSetData s v b).1 = .error e → e = .runtimeError
  set1 : ∀ p v e, (L.prioPacketVerify1SetData p v).1 = .error e → e = .runtimeError
  write1 : ∀ p e, L.prioPacketVerify1Write p = .error e → e = .runtimeError
  read1 : ∀ p b c e, (L.prioPacketVerify1Read p b c).1 = .error e → e = .runtimeError
  set2 : ∀ p v p₁ p₂ e, (L.prioPacketVerify2SetData p v p₁ p₂).1 = .error e → e = .runtimeError
  write2 : ∀ p e, L.prioPacketVerify2Write p = .error e → e = .runtimeError

theorem PacketLaw.raises {V : View L} (hP : V.PacketLaw) (hS : V.SetDataLaw) : VerifyRaises L where
  setData _ _ _ _ h := hS.error h
  set1 := hP.set1_error
  write1 := hP.write1_error
  read1 := hP.read1_error
  set2 := hP.set2_error
  write2 := hP.write2_error

/-- The calls of the aggregate loop raise `RuntimeError` only. -/
structure AggregateRaises (L : Libprio) : Prop where
  setData : ∀ s v b e, (L.prioVerifierSetData s v b).1 = .error e → e = .runtimeError
  read2 : ∀ p b c e, (L.prioPacketVerify2Read p b c).1 = .error e → e = .runtimeError
  isValid : ∀ v p q e, L.prioVerifierIsValid v p q = .error e → e = .runtimeError
  aggregate : ∀ s v e, (L.prioServerAggregate s v).1 = .error e → e = .runtimeError

/-- A server's total share can be set and written. -/
def TotalWritten (L : Libprio) : Prop := ∀ s,
  (L.prioTotalShareSetData L.prioTotalShareNew s).1 = .ok () ∧
    ∃ w, L.prioTotalShareWrite (L.prioTotalShareSetData L.prioTotalShareNew s).2 = .ok w

/-- What the aggregate loop calls: whether a verify2 packet is read depends on
its bytes, whether `isValid` accepts on the two packets, and
`PrioServer_aggregate` adds the share the verifier holds. -/
structure AggregateLaw (V : View L) : Prop where
  read2 : ∀ p b c, (L.prioPacketVerify2Read p b c).1 =
    if V.reads2 b then .ok () else .error .runtimeError
  read2_seen : ∀ p b c, V.reads2 b = true → V.seen2 (L.prioPacketVerify2Read p b c).2 = some b
  isValid : ∀ v p q x y, V.seen2 p = some x → V.seen2 q = some y →
    L.prioVerifierIsValid v p q = if V.valid x y then .ok () else .error .runtimeError
  aggregate : ∀ s v b r, V.held v = some ⟨V.ident s, b, r⟩ →
    (L.prioServerAggregate s v).1 = .ok () ∧
    V.ident (L.prioServerAggregate s v).2 = V.ident s ∧
    V.acc (L.prioServerAggregate s v).2 = V.acc s + V.data (V.ident s) b

/-- Which calls of the aggregate loop return, by the contents of their arguments. -/
structure Outcomes (L : Libprio) where
  /-- `PrioPacketVerify2_read` -/
  reads2 : L.Config → Bytes → Bool
  /-- `PrioVerifier_isValid`, by the share in the verifier and the two packets -/
  valid : Ident L → Bytes → Bytes → Bytes → Bool
  /-- `PrioServer_aggregate`, by the share in the verifier -/
  adds : Ident L → Bytes → Bool

/-- The calls of the aggregate loop, where `PrioVerifier_isValid` may look at the
share and `PrioServer_aggregate` may raise: a packet read that returns
overwrites its object, a call that raises leaves the accumulator alone. -/
structure ContentLaw (V : View L) (O : Outcomes L) : Prop where
  read2 : ∀ p b c, (L.prioPacketVerify2Read p b c).1 =
    if O.reads2 c b then .ok () else .error .runtimeError
  read2_seen : ∀ p b c, O.reads2 c b = true → V.seen2 (L.prioPacketVerify2Read p b c).2 = some b
  isValid : ∀ v p q i b r x y, V.held v = some ⟨i, b, r⟩ → V.seen2 p = some x →
    V.seen2 q = some y →
    L.prioVerifierIsValid v p q = if O.valid i b x y then .ok () else .error .runtimeError
  aggregate : ∀ s v b r, V.held v = some ⟨V.ident s, b, r⟩ →
    (L.prioServerAggregate s v).1 =
      (if O.adds (V.ident s) b then .ok () else .error .runtimeError) ∧
    V.ident (L.prioServerAggregate s v).2 = V.ident s ∧
    V.acc (L.prioServerAggregate s v).2 =
      if O.adds (V.ident s) b then V.acc s + V.data (V.ident s) b else V.acc s

/-- The outcomes `AggregateLaw` describes. -/
def outcomes (V : View L) : Outcomes L := ⟨fun _ => V.reads2, fun _ _ => V.valid, fun _ _ => true⟩

theorem AggregateLaw.content {V : View L} (h : V.AggregateLaw) : V.ContentLaw V.outcomes where
  read2 p b c := h.read2 p b c
  read2_seen p b c hb := h.read2_seen p b c hb
  isValid v p q _ _ _ x y _ hp hq := h.isValid v p q x y hp hq
  aggregate s v b r hv := h.aggregate s v b r hv

/-- `PrioServer_read` restores what `PrioServer_write` wrote,
`PrioServer_merge` adds an accumulator. -/
structure MergeLaw (V : View L) : Prop where
  write : ∀ s, ∃ b, L.prioServerWrite s = .ok b
  read : ∀ s s₀ b c, L.prioServerWrite s₀ = .ok b → (L.prioServerRead s b c).1 = .ok () ∧
    V.ident (L.prioServerRead s b c).2 = V.ident s ∧
    V.acc (L.prioServerRead s b c).2 = V.acc s₀
  merge : ∀ s t, (L.prioServerMerge s t).1 = .ok () ∧
    V.ident (L.prioServerMerge s t).2 = V.ident s ∧
    V.acc (L.prioServerMerge s t).2 = V.acc s + V.acc t

/-- Total shares: written and read back, and opened from server A's and server
B's share, in this order. -/
structure TotalLaw (V : View L) : Prop where
  set : ∀ t s, (L.prioTotalShareSetData t s).1 = .ok () ∧
    V.summed (L.prioTotalShareSetData t s).2 = some ((V.ident s).id, V.acc s)
  write : ∀ t σ, V.summed t = some σ → L.prioTotalShareWrite t = .ok (V.totalBytes σ)
  read : ∀ t t₀ σ c, V.summed t₀ = some σ →
    (L.prioTotalShareRead t (V.totalBytes σ) c).1 = .ok () ∧
    V.summed (L.prioTotalShareRead t (V.totalBytes σ) c).2 = some σ
  final : ∀ c t t' g h, V.summed t = some (.A, g) → V.summed t' = some (.B, h) →
    L.prioTotalShareFinal c t t' =
      .ok ((List.range (L.prioConfigNumDataFields c)).map fun j => (g j + h j).val)

/-- `w` is what a total share standing for `σ` is written as. -/
def WrittenTotal (V : View L) (σ : ServerId × (ℕ → ZMod V.modulus)) (w : Bytes) : Prop :=
  w = V.totalBytes σ ∧ ∃ t, V.summed t = some σ

/-- `PrioVerifier_isValid` treats the two packets alike. -/
def SymmLaw (V : View L) : Prop := ∀ x y, V.valid x y = V.valid y x

/-- Two shares whose packets verify at server `i` and server `k` are the two
halves of a client vector. -/
def SoundLaw (V : View L) (n : ℕ) (i k : Ident L) : Prop :=
  ∀ a b r₁ r₂ s₁ s₂ pa pb qa qb, V.Made1 ⟨i, a, r₁⟩ pa → V.Made1 ⟨k, b, s₁⟩ pb →
    V.Made2 ⟨i, a, r₂⟩ pa pb qa → V.Made2 ⟨k, b, s₂⟩ pb pa qb → V.valid qa qb = true →
    ∃ x, V.Halves n i k a b x

/-- A share whose decoding succeeds takes the next value of the server's
stream as its evaluation point; a failing call takes one or none, always the
same way. -/
structure StreamLaw (V : View L) : Prop where
  new_pos : ∀ c i k s, V.pos (L.prioServerNew c i k s) = 0
  held : ∀ s v b, V.decodes (V.ident s) b = true →
    V.held (L.prioVerifierSetData s v b).2.2 =
      some ⟨V.ident s, b, V.stream (V.ident s).seed (V.pos s)⟩
  pos : ∀ s v b, V.pos (L.prioVerifierSetData s v b).2.1 =
    V.pos s + if V.decodes (V.ident s) b || V.failTakes then 1 else 0

/-- `PrioServer_aggregate` takes no value of the server's stream. -/
def QuietLaw (V : View L) : Prop := ∀ s v, V.pos (L.prioServerAggregate s v).2 = V.pos s

/-- Whether a verify1 packet is read depends on its bytes, the packets libprio
wrote are read, and on a verifier that holds a share and on packets that were
read no call of the two verification rounds raises. -/
structure LiveLaw (V : View L) : Prop where
  set1 : ∀ p v h, V.held v = some h → (L.prioPacketVerify1SetData p v).1 = .ok ()
  write1 : ∀ p q, V.seen1 p = some q → L.prioPacketVerify1Write p = .ok q
  read1 : ∀ p b c, (L.prioPacketVerify1Read p b c).1 =
    if V.reads1 b then .ok () else .error .runtimeError
  made1 : ∀ b h, V.Made1 h b → V.reads1 b = true
  set2 : ∀ p v h p₁ p₂ x y, V.held v = some h → V.seen1 p₁ = some x → V.seen1 p₂ = some y →
    (L.prioPacketVerify2SetData p v p₁ p₂).1 = .ok ()
  write2 : ∀ p q, V.seen2 p = some q → L.prioPacketVerify2Write p = .ok q
  made2 : ∀ b h x y, V.Made2 h x y b → V.reads2 b = true

/-- `a` and `b` are what `PrioClient_encode` makes of the 0/1 vector `x` under
`config`. -/
def Encodes (_ : View L) (n : ℕ) (config : L.Config) (a b x : Bytes) : Prop :=
  ClientVector n x ∧ ∃ coins, L.prioClientEncode config x coins = .ok (a, b)

/-- What a client encodes decodes at server `i` and server `k`, and its halves
add up to the vector. -/
structure EncodeLaw (V : View L) (n : ℕ) (config : L.Config) (i k : Ident L) : Prop where
  decodes : ∀ a b x, V.Encodes n config a b x → V.decodes i a = true ∧ V.decodes k b = true
  halves : ∀ a b x, V.Encodes n config a b x → V.Halves n i k a b x

/-- The two rounds accept a pair of shares exactly when both rounds at both
servers used one evaluation point and the pair is one of `Pair`. -/
def PointLaw (V : View L) (i k : Ident L) (Pair : Bytes → Bytes → Prop) : Prop :=
  ∀ a b r₁ r₂ s₁ s₂ pa pb qa qb, V.Made1 ⟨i, a, r₁⟩ pa → V.Made1 ⟨k, b, s₁⟩ pb →
    V.Made2 ⟨i, a, r₂⟩ pa pb qa → V.Made2 ⟨k, b, s₂⟩ pb pa qb →
    (V.valid qa qb = true ↔ (r₁ = r₂ ∧ r₁ = s₁ ∧ r₁ = s₂) ∧ Pair a b)

/-- The pairs of shares that verify are the encodings of 0/1 vectors. -/
def SnipLaw (V : View L) (n : ℕ) (config : L.Config) (i k : Ident L) : Prop :=
  V.PointLaw i k fun a b => ∃ x, V.Encodes n config a b x

/-! ## Sums of shares -/

/-- Shares of a list of rows at two servers, row by row halves of client
vectors, add up to the sum of the vectors. -/
theorem sum_halves {ι : Type} {V : View L} {n : ℕ} {i k : Ident L} {ids : List ι}
    {a b client : ι → Bytes} (h : ∀ u ∈ ids, V.Halves n i k (a u) (b u) (client u)) {j : ℕ}
    (hj : j < n) :
    ((ids.map fun u => V.data i (a u)).sum j + (ids.map fun u => V.data k (b u)).sum j).val =
      (ids.map fun u => field (client u) j).sum % V.modulus := by
  have hsum : (ids.map fun u => V.data i (a u)).sum j + (ids.map fun u => V.data k (b u)).sum j =
      (((ids.map fun u => field (client u) j).sum : ℕ) : ZMod V.modulus) := by
    induction ids with
    | nil => simp
    | cons u ids ih =>
      have ih := ih fun v hv => h v (List.mem_cons_of_mem _ hv)
      have hu := (h u List.mem_cons_self).sum j hj
      simp only [List.map_cons, List.sum_cons, Pi.add_apply, Nat.cast_add]
      rw [← ih, ← hu]
      abel
  rw [hsum, ZMod.val_natCast]

/-- No field of a sum exceeds the number of vectors. -/
theorem sum_field_le {ι : Type} {n : ℕ} {ids : List ι} {client : ι → Bytes}
    (h : ∀ u ∈ ids, ClientVector n (client u)) (j : ℕ) :
    (ids.map fun u => field (client u) j).sum ≤ ids.length := by
  induction ids with
  | nil => simp
  | cons u ids ih =>
    have ih := ih fun v hv => h v (List.mem_cons_of_mem _ hv)
    have hu : field (client u) j ≤ 1 := (h u List.mem_cons_self).field_le j
    simp only [List.map_cons, List.sum_cons, List.length_cons]
    omega

/-- Fewer vectors than the modulus add up without wrapping. -/
theorem sum_field_mod {ι : Type} {n m : ℕ} {ids : List ι} {client : ι → Bytes}
    (h : ∀ u ∈ ids, ClientVector n (client u)) (hlt : ids.length < m) (j : ℕ) :
    (ids.map fun u => field (client u) j).sum % m = (ids.map fun u => field (client u) j).sum :=
  Nat.mod_eq_of_lt (lt_of_le_of_lt (sum_field_le h j) hlt)

end View

end PrioProcessor.L1
