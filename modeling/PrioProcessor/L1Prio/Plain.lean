import PrioProcessor.L1Prio.Libprio
import Mathlib.Tactic.IntervalCases

/-!
# An implementation of the interface

`plain` implements `Libprio` with shares in the clear: two data fields, the
values modulo 256, packets that carry the share and its evaluation point. It
satisfies every law of `View` (`plain_setData` … `plain_snip`), so no result
that assumes the laws is about nothing, and concrete runs of the commands can
be evaluated on it.
-/
namespace PrioProcessor.L1.Plain

structure Config where
  n : ℕ
  keyA : Bytes
  keyB : Bytes
  batch : Bytes
  deriving DecidableEq, Repr

/-- The two data fields of an accumulator. -/
structure Pair where
  fst : UInt8
  snd : UInt8
  deriving DecidableEq, Repr

def Pair.at (s : Pair) (j : ℕ) : ZMod 256 :=
  if j = 0 then s.fst.toNat else if j = 1 then s.snd.toNat else 0

def Pair.add (s t : Pair) : Pair := ⟨s.fst + t.fst, s.snd + t.snd⟩

structure Server where
  config : Config
  id : ServerId
  key : Bytes
  seed : Bytes
  pos : ℕ
  acc : Pair
  deriving DecidableEq, Repr

structure Verifier where
  config : Config
  id : ServerId
  key : Bytes
  seed : Bytes
  share : Bytes
  point : UInt8
  deriving DecidableEq, Repr

def isBit (b : UInt8) : Bool := b == 0 || b == 1

def stream (seed : Bytes) (k : ℕ) : UInt8 := seed.headD 0 + UInt8.ofNat k

def clientEncode (x : Bytes) (coins : Pair) : Except PyExc (Bytes × Bytes) :=
  match x with
  | [u, v] =>
    if isBit u && isBit v then .ok ([coins.fst, coins.snd], [u - coins.fst, v - coins.snd])
    else .error .runtimeError
  | _ => .error .runtimeError

def decodes (b : Bytes) : Bool := b.length == 2

def setData (s : Server) (v : Option Verifier) (b : Bytes) :
    Except PyExc Unit × Server × Option Verifier :=
  if decodes b then
    (.ok (), { s with pos := s.pos + 1 },
      some ⟨s.config, s.id, s.key, s.seed, b, stream s.seed s.pos⟩)
  else (.error .runtimeError, s, v)

def packet1 (point : UInt8) (share : Bytes) : Bytes := point :: share

/-- The first byte says whether both verify1 packets used the same point. -/
def packet2 (point : UInt8) (share x y : Bytes) : Bytes :=
  (if x.head? = some point ∧ y.head? = some point then 1 else 0) :: point :: share

def valid : Bytes → Bytes → Bool
  | [1, r, a, b], [1, s, c, d] => r == s && isBit (a + c) && isBit (b + d)
  | _, _ => false

def readSome (b : Bytes) (p : Option Bytes) : Except PyExc Unit × Option Bytes :=
  if b.isEmpty then (.error .runtimeError, p) else (.ok (), some b)

def orRaise {α : Type} : Option α → Except PyExc α
  | some a => .ok a
  | none => .error .runtimeError

def ofShare (b : Bytes) : Pair := ⟨b.getD 0 0, b.getD 1 0⟩

def idByte : ServerId → UInt8
  | .A => 0
  | .B => 1

def totalRead (b : Bytes) (t : Option (ServerId × Pair)) :
    Except PyExc Unit × Option (ServerId × Pair) :=
  match b with
  | [i, u, v] => (.ok (), some (if i = 0 then .A else .B, ⟨u, v⟩))
  | _ => (.error .runtimeError, t)

def totalFinal (n : ℕ) : Option (ServerId × Pair) → Option (ServerId × Pair) →
    Except PyExc (List ℕ)
  | some (.A, g), some (.B, h) => .ok ((List.range n).map fun j => (g.at j + h.at j).val)
  | _, _ => .error .runtimeError

end Plain

open Plain in
def plain : Libprio where
  PublicKey := Bytes
  PrivateKey := Bytes
  Config := Config
  Server := Server
  Verifier := Option Verifier
  PacketVerify1 := Option Bytes
  PacketVerify2 := Option Bytes
  TotalShare := Option (ServerId × Pair)
  Coins := Pair
  publicKeyImportHex k := .ok k
  privateKeyImportHex k _ := .ok k
  prioConfigNew n a b batch := ⟨n, a, b, batch⟩
  prioConfigNumDataFields c := c.n
  prioClientEncode _ x coins := clientEncode x coins
  prioServerNew c i k s := ⟨c, i, k, s, 0, ⟨0, 0⟩⟩
  prioServerAggregate s v := match v with
    | some h => (.ok (), { s with acc := s.acc.add (ofShare h.share) })
    | none => (.error .runtimeError, s)
  prioServerWrite s := .ok [s.acc.fst, s.acc.snd]
  prioServerRead s b _ := match b with
    | [u, v] => (.ok (), { s with acc := ⟨u, v⟩ })
    | _ => (.error .runtimeError, s)
  prioServerMerge s t := (.ok (), { s with acc := s.acc.add t.acc })
  prioVerifierNew _ := none
  prioVerifierSetData := setData
  prioVerifierIsValid _ p q := match p, q with
    | some x, some y => if valid x y then .ok () else .error .runtimeError
    | _, _ => .error .runtimeError
  prioPacketVerify1New := none
  prioPacketVerify1SetData p v := match v with
    | some h => (.ok (), some (packet1 h.point h.share))
    | none => (.error .runtimeError, p)
  prioPacketVerify1Write := orRaise
  prioPacketVerify1Read p b _ := readSome b p
  prioPacketVerify2New := none
  prioPacketVerify2SetData p v p₁ p₂ := match v, p₁, p₂ with
    | some h, some x, some y => (.ok (), some (packet2 h.point h.share x y))
    | _, _, _ => (.error .runtimeError, p)
  prioPacketVerify2Write := orRaise
  prioPacketVerify2Read p b _ := readSome b p
  prioTotalShareNew := none
  prioTotalShareSetData _ s := (.ok (), some (s.id, s.acc))
  prioTotalShareWrite t := match t with
    | some (i, g) => .ok [idByte i, g.fst, g.snd]
    | none => .error .runtimeError
  prioTotalShareRead t b _ := totalRead b t
  prioTotalShareFinal c t t' := totalFinal c.n t t'

open Plain in
/-- What the objects of `plain` stand for. -/
def plainView : View plain where
  modulus := 256
  Point := UInt8
  stream := stream
  ident s := ⟨s.config, s.id, s.key, s.seed⟩
  pos s := s.pos
  acc s := s.acc.at
  held v := v.map fun h => ⟨⟨h.config, h.id, h.key, h.seed⟩, h.share, h.point⟩
  seen1 p := p
  seen2 p := p
  summed t := t.map fun (i, g) => (i, g.at)
  decodes _ b := decodes b
  data _ b := (ofShare b).at
  reads1 b := !b.isEmpty
  reads2 b := !b.isEmpty
  valid := valid
  Made1 h q := q = packet1 h.point h.share
  Made2 h x y q := q = packet2 h.point h.share x y
  totalBytes σ := [idByte σ.1, UInt8.ofNat (σ.2 0).val, UInt8.ofNat (σ.2 1).val]
  failTakes := false

namespace Plain

theorem toNat_add (a b : UInt8) : ((a + b).toNat : ZMod 256) = a.toNat + b.toNat := by
  rw [UInt8.toNat_add, ZMod.natCast_mod _ 256, Nat.cast_add]

theorem at_add (s t : Pair) : (s.add t).at = s.at + t.at := by
  funext j
  simp only [Pair.at, Pair.add, Pi.add_apply]
  split
  · exact toNat_add _ _
  · split
    · exact toNat_add _ _
    · simp

theorem at_zero : (⟨0, 0⟩ : Pair).at = 0 := by
  funext j
  simp [Pair.at]

theorem ofNat_val (b : UInt8) : UInt8.ofNat ((b.toNat : ZMod 256)).val = b := by
  rw [ZMod.val_natCast, Nat.mod_eq_of_lt b.toNat_lt, UInt8.ofNat_toNat]

theorem isBit_iff (b : UInt8) : isBit b = true ↔ b = 0 ∨ b = 1 := by
  simp [isBit]

theorem clientVector_iff (x : Bytes) :
    ClientVector 2 x ↔ ∃ u v, x = [u, v] ∧ isBit u = true ∧ isBit v = true := by
  constructor
  · rintro ⟨hl, hb⟩
    obtain ⟨u, v, rfl⟩ := List.length_eq_two.1 hl
    exact ⟨u, v, rfl, (isBit_iff _).2 (hb u (by simp)), (isBit_iff _).2 (hb v (by simp))⟩
  · rintro ⟨u, v, rfl, hu, hv⟩
    refine ⟨rfl, fun b hb => ?_⟩
    simp only [List.mem_cons, List.not_mem_nil, or_false] at hb
    rcases hb with rfl | rfl
    · exact (isBit_iff _).1 hu
    · exact (isBit_iff _).1 hv

theorem clientEncode_iff (x a b : Bytes) (coins : Pair) :
    clientEncode x coins = .ok (a, b) ↔ ∃ u v, x = [u, v] ∧ isBit u = true ∧ isBit v = true ∧
      a = [coins.fst, coins.snd] ∧ b = [u - coins.fst, v - coins.snd] := by
  unfold clientEncode
  split
  · rename_i u v
    constructor
    · intro h
      split at h
      · rename_i hb
        rw [Bool.and_eq_true] at hb
        cases h
        exact ⟨u, v, rfl, hb.1, hb.2, rfl, rfl⟩
      · cases h
    · rintro ⟨_, _, hx, hu, hv, rfl, rfl⟩
      cases hx
      rw [hu, hv]; rfl
  · rename_i hne
    constructor
    · intro h; cases h
    · rintro ⟨u, v, rfl, -⟩
      exact absurd rfl (hne u v)

/-- The pairs of shares `clientEncode` makes: two bytes each, adding up to two
bits. -/
theorem encodes_iff (c : Config) (a b x : Bytes) :
    plainView.Encodes 2 c a b x ↔ ∃ u v s t, a = [u, v] ∧ b = [s, t] ∧ x = [u + s, v + t] ∧
      isBit (u + s) = true ∧ isBit (v + t) = true := by
  constructor
  · rintro ⟨-, coins, he⟩
    obtain ⟨u, v, rfl, hu, hv, rfl, rfl⟩ := (clientEncode_iff x a b coins).1 he
    have hadd : ∀ c w : UInt8, c + (w - c) = w := fun c w => by
      rw [UInt8.add_comm, UInt8.sub_add_cancel]
    exact ⟨_, _, _, _, rfl, rfl, by rw [hadd, hadd], by rwa [hadd], by rwa [hadd]⟩
  · rintro ⟨u, v, s, t, rfl, rfl, rfl, hu, hv⟩
    have hsub : ∀ c w : UInt8, c + w - c = w := fun c w => by
      rw [UInt8.add_comm, UInt8.add_sub_cancel]
    exact ⟨(clientVector_iff _).2 ⟨_, _, rfl, hu, hv⟩, ⟨u, v⟩,
      (clientEncode_iff _ _ _ _).2 ⟨_, _, rfl, hu, hv, rfl, by rw [hsub, hsub]⟩⟩

/-- Two shares whose bytes add up to `x` are halves of `x`. -/
theorem halves (i k : Ident plain) {u v s t : UInt8} (hu : isBit (u + s) = true)
    (hv : isBit (v + t) = true) : plainView.Halves 2 i k [u, v] [s, t] [u + s, v + t] where
  vector := (clientVector_iff _).2 ⟨_, _, rfl, hu, hv⟩
  sum j hj := by
    change (Pair.at ⟨u, v⟩ j) + (Pair.at ⟨s, t⟩ j) = _
    interval_cases j
    · exact (toNat_add u s).symm
    · exact (toNat_add v t).symm

theorem valid_iff (x y : Bytes) : valid x y = true ↔ ∃ r a b c d, x = [1, r, a, b] ∧
    y = [1, r, c, d] ∧ isBit (a + c) = true ∧ isBit (b + d) = true := by
  unfold valid
  split
  · simp only [Bool.and_eq_true, beq_iff_eq, List.cons.injEq, and_true, true_and]
    constructor
    · rintro ⟨⟨rfl, h₁⟩, h₂⟩
      exact ⟨_, _, _, _, _, ⟨rfl, rfl, rfl⟩, ⟨rfl, rfl, rfl⟩, h₁, h₂⟩
    · rintro ⟨r, a, b, c, d, ⟨rfl, rfl, rfl⟩, ⟨rfl, rfl, rfl⟩, h₁, h₂⟩
      exact ⟨⟨rfl, h₁⟩, h₂⟩
  · rename_i hne
    simp only [Bool.false_eq_true, false_iff]
    rintro ⟨r, a, b, c, d, rfl, rfl, -, -⟩
    exact hne r a b r c d rfl rfl

theorem setData_held (s : Server) (v : Option Verifier) (b : Bytes) (h : decodes b = true) :
    plainView.held (setData s v b).2.2 =
      some ⟨plainView.ident s, b, stream s.seed s.pos⟩ := by
  unfold setData; rw [if_pos h]; rfl

/-! ## The laws -/

theorem plain_config : View.ConfigLaw plain := fun _ _ _ _ => rfl

theorem plain_setData : plainView.SetDataLaw where
  new_ident _ _ _ _ := rfl
  new_acc _ _ _ _ := at_zero
  result s v b := by
    change (setData s v b).1 = if decodes b = true then _ else _
    unfold setData; split <;> rfl
  ident s v b := by
    change plainView.ident (setData s v b).2.1 = _
    unfold setData; split <;> rfl
  acc s v b := by
    change plainView.acc (setData s v b).2.1 = _
    unfold setData; split <;> rfl
  held s v b h := ⟨stream s.seed s.pos, setData_held s v b h⟩

theorem plain_packet : plainView.PacketLaw where
  set1 p v h hv _ := by
    cases v with
    | none => cases hv
    | some w => cases hv; exact ⟨_, rfl, rfl⟩
  set1_error p v e h := by
    cases v with
    | none => cases h; rfl
    | some w => cases h
  write1 p q hp w hw := by cases hp; cases hw; rfl
  write1_error p e h := by
    cases p with
    | none => cases h; rfl
    | some w => cases h
  read1 p b c h := by
    cases b with
    | nil => cases h
    | cons x xs => rfl
  read1_error p b c e h := by
    cases b with
    | nil => cases h; rfl
    | cons x xs => cases h
  set2 p v h p₁ p₂ x y hv h₁ h₂ _ := by
    cases v with
    | none => cases hv
    | some w => cases hv; cases h₁; cases h₂; exact ⟨_, rfl, rfl⟩
  set2_error p v p₁ p₂ e h := by
    cases v with
    | none => cases h; rfl
    | some w =>
      cases p₁ with
      | none => cases h; rfl
      | some x =>
        cases p₂ with
        | none => cases h; rfl
        | some y => cases h
  write2 p q hp w hw := by cases hp; cases hw; rfl
  write2_error p e h := by
    cases p with
    | none => cases h; rfl
    | some w => cases h

theorem plain_aggregate : plainView.AggregateLaw where
  read2 p b c := by cases b <;> rfl
  read2_seen p b c h := by
    cases b with
    | nil => cases h
    | cons x xs => rfl
  isValid v p q x y hp hq := by cases hp; cases hq; rfl
  aggregate s v b r hv := by
    cases v with
    | none => cases hv
    | some w =>
      have hb : w.share = b := congrArg Held.share (Option.some.inj hv)
      rw [← hb]
      exact ⟨rfl, rfl, at_add _ _⟩

theorem plain_aggregateRaises : View.AggregateRaises plain where
  setData _ _ _ _ h := plain_setData.error h
  read2 p b c e h := by
    rw [plain_aggregate.read2] at h
    split at h
    · cases h
    · cases h; rfl
  isValid v p q e h := by
    rcases p with - | x
    · cases h; rfl
    rcases q with - | y
    · cases h; rfl
    rw [plain_aggregate.isValid v _ _ x y rfl rfl] at h
    split at h
    · cases h
    · cases h; rfl
  aggregate s v e h := by
    rcases v with - | w
    · cases h; rfl
    · cases h

theorem plain_totalWritten : View.TotalWritten plain := fun _ => ⟨rfl, _, rfl⟩

theorem plain_merge : plainView.MergeLaw where
  write s := ⟨_, rfl⟩
  read s s₀ b c h := by cases h; exact ⟨rfl, rfl, rfl⟩
  merge s t := ⟨rfl, rfl, at_add _ _⟩

theorem plain_total : plainView.TotalLaw where
  set t s := ⟨rfl, rfl⟩
  write t σ h := by
    cases t with
    | none => cases h
    | some w =>
      cases h
      change Except.ok [idByte w.1, w.2.fst, w.2.snd] = .ok [idByte w.1, _, _]
      simp only [Pair.at, if_true, one_ne_zero, if_false, ofNat_val]
  read t t₀ σ c h := by
    cases t₀ with
    | none => cases h
    | some w =>
      cases h
      refine ⟨rfl, ?_⟩
      change some ((if idByte w.1 = 0 then ServerId.A else .B), Pair.at ⟨_, _⟩) = some (w.1, w.2.at)
      have hid : (if idByte w.1 = 0 then ServerId.A else .B) = w.1 := by cases w.1 <;> rfl
      simp only [Pair.at, if_true, one_ne_zero, if_false, ofNat_val, hid]
  final c t t' g h ht ht' := by
    cases t with
    | none => cases ht
    | some w =>
      cases t' with
      | none => cases ht'
      | some w' =>
        obtain ⟨_, w⟩ := w; obtain ⟨_, w'⟩ := w'
        cases ht; cases ht'; rfl

theorem plain_symm : plainView.SymmLaw := by
  intro x y
  rw [Bool.eq_iff_iff]
  change valid x y = true ↔ valid y x = true
  rw [valid_iff, valid_iff]
  constructor
  · rintro ⟨r, a, b, c, d, rfl, rfl, h₁, h₂⟩
    exact ⟨r, c, d, a, b, rfl, rfl, UInt8.add_comm a c ▸ h₁, UInt8.add_comm b d ▸ h₂⟩
  · rintro ⟨r, a, b, c, d, rfl, rfl, h₁, h₂⟩
    exact ⟨r, c, d, a, b, rfl, rfl, UInt8.add_comm a c ▸ h₁, UInt8.add_comm b d ▸ h₂⟩

theorem plain_stream : plainView.StreamLaw where
  new_pos _ _ _ _ := rfl
  held s v b h := setData_held s v b h
  pos s v b := by
    change (setData s v b).2.1.pos = s.pos + if (decodes b || false) = true then 1 else 0
    unfold setData; split <;> simp_all

theorem plain_quiet : plainView.QuietLaw := fun s v => by cases v <;> rfl

theorem plain_live : plainView.LiveLaw where
  set1 p v h hv := by
    cases v with
    | none => cases hv
    | some w => rfl
  write1 p q h := by cases h; rfl
  read1 p b c := by cases b <;> rfl
  made1 b h hb := by cases hb; rfl
  set2 p v h p₁ p₂ x y hv h₁ h₂ := by
    cases v with
    | none => cases hv
    | some w => cases h₁; cases h₂; rfl
  write2 p q h := by cases h; rfl
  made2 b h x y hb := by cases hb; rfl

theorem plain_encode (c : plain.Config) (i k : Ident plain) : plainView.EncodeLaw 2 c i k where
  decodes a b x h := by
    obtain ⟨u, v, s, t, rfl, rfl, -⟩ := (encodes_iff c a b x).1 h
    exact ⟨rfl, rfl⟩
  halves a b x h := by
    obtain ⟨u, v, s, t, rfl, rfl, rfl, hu, hv⟩ := (encodes_iff c a b x).1 h
    exact halves i k hu hv

/-- What two valid verify2 packets say about the shares and the points. -/
theorem valid_packets {a b : Bytes} {r₁ r₂ s₁ s₂ : UInt8} :
    valid (packet2 r₂ a (packet1 r₁ a) (packet1 s₁ b)) (packet2 s₂ b (packet1 s₁ b) (packet1 r₁ a))
      = true ↔ (r₁ = r₂ ∧ r₁ = s₁ ∧ r₁ = s₂) ∧ ∃ u v s t, a = [u, v] ∧ b = [s, t] ∧
        isBit (u + s) = true ∧ isBit (v + t) = true := by
  rw [valid_iff]
  simp only [packet2, packet1, List.head?_cons, Option.some.injEq, List.cons.injEq]
  constructor
  · rintro ⟨r, u, v, s, t, ⟨h₁, h₂, h₃⟩, ⟨h₄, h₅, h₆⟩, hu, hv⟩
    have h₁ : r₁ = r₂ ∧ s₁ = r₂ := by by_contra hc; rw [if_neg hc] at h₁; cases h₁
    have h₄ : s₁ = s₂ ∧ r₁ = s₂ := by by_contra hc; rw [if_neg hc] at h₄; cases h₄
    obtain ⟨rfl, rfl⟩ := h₁
    exact ⟨⟨rfl, rfl, h₄.2⟩, u, v, s, t, h₃, h₆, hu, hv⟩
  · rintro ⟨⟨rfl, rfl, rfl⟩, u, v, s, t, rfl, rfl, hu, hv⟩
    exact ⟨r₁, u, v, s, t, by simp, by simp, hu, hv⟩

theorem plain_snip (c : plain.Config) (i k : Ident plain) : plainView.SnipLaw 2 c i k := by
  intro a b r₁ r₂ s₁ s₂ pa pb qa qb ha hb hqa hqb
  cases ha; cases hb; cases hqa; cases hqb
  refine valid_packets.trans (and_congr_right fun _ => ?_)
  constructor
  · rintro ⟨u, v, s, t, ha, hb, hu, hv⟩
    exact ⟨_, (encodes_iff c a b _).2 ⟨u, v, s, t, ha, hb, rfl, hu, hv⟩⟩
  · rintro ⟨x, hx⟩
    obtain ⟨u, v, s, t, ha, hb, -, hu, hv⟩ := (encodes_iff c a b x).1 hx
    exact ⟨u, v, s, t, ha, hb, hu, hv⟩

theorem plain_sound (i k : Ident plain) : plainView.SoundLaw 2 i k := by
  intro a b r₁ r₂ s₁ s₂ pa pb qa qb ha hb hqa hqb hv
  cases ha; cases hb; cases hqa; cases hqb
  obtain ⟨-, u, v, s, t, rfl, rfl, hu, hv⟩ := valid_packets.1 hv
  exact ⟨_, halves i k hu hv⟩

end Plain

end PrioProcessor.L1
