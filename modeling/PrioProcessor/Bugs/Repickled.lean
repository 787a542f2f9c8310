import PrioProcessor.L1Prio.Wrapper
import PrioProcessor.L2Commands.Rounds

/-!
# A restored object is pickled empty

`__setstate__` of `PacketVerify1`, `PacketVerify2` and `TotalShare`
(prio_processor/prio/wrapper.py:200-251) keeps the pickled bytes in
`_serial_data` until `deserialize` is called, but `__getstate__` writes
`instance`, which is a new, empty object until then. So an object that is
restored and pickled again before it was deserialized (by a relay, or a cache)
loses its data: `__getstate__` raises or yields the bytes of an empty object.

Counterexample: a `PacketVerify1` of server A, pickled and restored; its
`__getstate__` does not yield the bytes it was restored from, and a second
round trip raises, so `create_verify2` is never reached (`pickled_twice`).

Condition on the history (`Codec.stale`, `transparent_iff`): `deserialize` is
called between any two round trips. After the other histories the object is not
written as it was, and a consumer takes it for an empty one (`stale_fresh`).
-/
namespace PrioProcessor.Bugs.Repickled

open L1 L1.Wrapper L2

variable {L : Libprio}

/-- After the history the object is used like the original one: by
`create_verify2`, and by the next `pickle.dumps` after a `deserialize`. -/
def Transparent1 (shared : L.Config → Prop) (o : Wrapper.PacketVerify1 L)
    (ops : List (LazyOp L.Config)) : Prop :=
  ∃ o', (packetVerify1 L).run ops o = .ok o' ∧
    (∀ v other, shared v.config → createVerify2 L v o' other = createVerify2 L v o other ∧
      createVerify2 L v other o' = createVerify2 L v other o) ∧
    ∀ c, shared c → (packetVerify1 L).rewritten c o' = (packetVerify1 L).rewritten c o

/-- The same for `is_valid`. -/
def Transparent2 (shared : L.Config → Prop) (o : Wrapper.PacketVerify2 L)
    (ops : List (LazyOp L.Config)) : Prop :=
  ∃ o', (packetVerify2 L).run ops o = .ok o' ∧
    (∀ v other, shared v.config → isValid L v o' other = isValid L v o other ∧
      isValid L v other o' = isValid L v other o) ∧
    ∀ c, shared c → (packetVerify2 L).rewritten c o' = (packetVerify2 L).rewritten c o

/-- The same for `total_share_final`. -/
def TransparentTotal (shared : L.Config → Prop) (o : Wrapper.TotalShare L)
    (ops : List (LazyOp L.Config)) : Prop :=
  ∃ o', (totalShare L).run ops o = .ok o' ∧
    (∀ c other, shared c → totalShareFinal L c o' other = totalShareFinal L c o other ∧
      totalShareFinal L c other o' = totalShareFinal L c other o) ∧
    ∀ c, shared c → (totalShare L).rewritten c o' = (totalShare L).rewritten c o

section Kinds

variable {shared : L.Config → Prop} (hL : PickleLaw L shared) {ops : List (LazyOp L.Config)}
  (hops : Codec.Within shared ops)
include hL hops

theorem transparent1_iff {v : Verifier L} {o : Wrapper.PacketVerify1 L} (hv : shared v.config)
    (ho : createVerify1 L v = .ok o) :
    Transparent1 shared o ops ↔ Codec.stale false ops = false := by
  obtain ⟨p, rfl, hp⟩ := createVerify1_made ho
  refine ⟨fun h => ?_, fun hs => ?_⟩
  · obtain ⟨o', hr, -, hsame⟩ := h
    exact (Codec.kept_iff hL.packet1 hp hops hv).2 ⟨o', hr, hsame⟩
  · obtain ⟨o', q, hr, ho'⟩ := Codec.run_kept hL.packet1 hp hops (q := false) rfl hs
    have hread : ∀ c, shared c → (packetVerify1 L).deserialize c o' =
        (packetVerify1 L).deserialize c ⟨p, none⟩ :=
      fun c hc => Codec.deserialize_standsFor hL.packet1 (.inr hp) ho' hc
    refine ⟨o', hr, fun w other hw => ⟨?_, ?_⟩, fun c hc => ?_⟩
    · exact createVerify2_congr (hread _ hw) rfl
    · exact createVerify2_congr rfl (hread _ hw)
    · unfold Codec.rewritten
      rw [hread c hc]

theorem transparent2_iff {v : Verifier L} {a b : Wrapper.PacketVerify1 L}
    {o : Wrapper.PacketVerify2 L} (hv : shared v.config) (ho : createVerify2 L v a b = .ok o) :
    Transparent2 shared o ops ↔ Codec.stale false ops = false := by
  obtain ⟨p, rfl, hp⟩ := createVerify2_made ho
  refine ⟨fun h => ?_, fun hs => ?_⟩
  · obtain ⟨o', hr, -, hsame⟩ := h
    exact (Codec.kept_iff hL.packet2 hp hops hv).2 ⟨o', hr, hsame⟩
  · obtain ⟨o', q, hr, ho'⟩ := Codec.run_kept hL.packet2 hp hops (q := false) rfl hs
    have hread : ∀ c, shared c → (packetVerify2 L).deserialize c o' =
        (packetVerify2 L).deserialize c ⟨p, none⟩ :=
      fun c hc => Codec.deserialize_standsFor hL.packet2 (.inr hp) ho' hc
    refine ⟨o', hr, fun w other hw => ⟨?_, ?_⟩, fun c hc => ?_⟩
    · exact isValid_congr (hread _ hw) rfl
    · exact isValid_congr rfl (hread _ hw)
    · unfold Codec.rewritten
      rw [hread c hc]

theorem transparentTotal_iff {s : L.Server} {o : Wrapper.TotalShare L} {c₀ : L.Config}
    (hc₀ : shared c₀) (ho : totalShares L s = .ok o) :
    TransparentTotal shared o ops ↔ Codec.stale false ops = false := by
  obtain ⟨t, rfl, ht⟩ := totalShares_made ho
  refine ⟨fun h => ?_, fun hs => ?_⟩
  · obtain ⟨o', hr, -, hsame⟩ := h
    exact (Codec.kept_iff hL.total ht hops hc₀).2 ⟨o', hr, hsame⟩
  · obtain ⟨o', q, hr, ho'⟩ := Codec.run_kept hL.total ht hops (q := false) rfl hs
    have hread : ∀ c, shared c → (totalShare L).deserialize c o' =
        (totalShare L).deserialize c ⟨t, none⟩ :=
      fun c hc => Codec.deserialize_standsFor hL.total (.inr ht) ho' hc
    refine ⟨o', hr, fun c other hc => ⟨?_, ?_⟩, fun c hc => ?_⟩
    · exact totalShareFinal_congr (hread _ hc) rfl
    · exact totalShareFinal_congr rfl (hread _ hc)
    · unfold Codec.rewritten
      rw [hread c hc]

/-- After any other history that does not raise, the consumers take the object
for a new, empty one. -/
theorem stale_fresh (hs : Codec.stale false ops = true) :
    (∀ v o o', createVerify1 L v = .ok o → (packetVerify1 L).run ops o = .ok o' →
      ∀ w other, shared w.config →
        createVerify2 L w o' other = createVerify2 L w ⟨(packetVerify1 L).fresh, none⟩ other ∧
        createVerify2 L w other o' = createVerify2 L w other ⟨(packetVerify1 L).fresh, none⟩) ∧
    (∀ v a b o o', createVerify2 L v a b = .ok o → (packetVerify2 L).run ops o = .ok o' →
      ∀ w other, shared w.config →
        isValid L w o' other = isValid L w ⟨(packetVerify2 L).fresh, none⟩ other ∧
        isValid L w other o' = isValid L w other ⟨(packetVerify2 L).fresh, none⟩) ∧
    ∀ s o o', totalShares L s = .ok o → (totalShare L).run ops o = .ok o' →
      ∀ c other, shared c →
        totalShareFinal L c o' other = totalShareFinal L c ⟨(totalShare L).fresh, none⟩ other ∧
        totalShareFinal L c other o' = totalShareFinal L c other ⟨(totalShare L).fresh, none⟩ := by
  refine ⟨fun v o o' ho hr w other hw => ?_, fun v a b o o' ho hr w other hw => ?_,
    fun s o o' ho hr c other hc => ?_⟩
  · obtain ⟨p, rfl, hp⟩ := createVerify1_made ho
    have hread := Codec.deserialize_lost hL.packet1 hp hops hs hr hw
    exact ⟨createVerify2_congr hread rfl, createVerify2_congr rfl hread⟩
  · obtain ⟨p, rfl, hp⟩ := createVerify2_made ho
    have hread := Codec.deserialize_lost hL.packet2 hp hops hs hr hw
    exact ⟨isValid_congr hread rfl, isValid_congr rfl hread⟩
  · obtain ⟨t, rfl, ht⟩ := totalShares_made ho
    have hread := Codec.deserialize_lost hL.total ht hops hs hr hc
    exact ⟨totalShareFinal_congr hread rfl, totalShareFinal_congr rfl hread⟩

end Kinds

/-- **Condition**: round trips are transparent exactly in the histories that
deserialize between any two of them; an object that was just restored is never
pickled as the bytes it was restored from. -/
theorem transparent_iff {shared : L.Config → Prop} (hL : PickleLaw L shared)
    {ops : List (LazyOp L.Config)} (hops : Codec.Within shared ops) :
    (∀ v o, shared v.config → createVerify1 L v = .ok o →
      (Transparent1 shared o ops ↔ Codec.stale false ops = false) ∧
      ∀ s, (packetVerify1 L).dumps o = .ok s →
        (packetVerify1 L).dumps ((packetVerify1 L).loads s) ≠ .ok s) ∧
    (∀ v a b o, shared v.config → createVerify2 L v a b = .ok o →
      (Transparent2 shared o ops ↔ Codec.stale false ops = false) ∧
      ∀ s, (packetVerify2 L).dumps o = .ok s →
        (packetVerify2 L).dumps ((packetVerify2 L).loads s) ≠ .ok s) ∧
    ∀ s o c, shared c → totalShares L s = .ok o →
      (TransparentTotal shared o ops ↔ Codec.stale false ops = false) ∧
      ∀ s, (totalShare L).dumps o = .ok s →
        (totalShare L).dumps ((totalShare L).loads s) ≠ .ok s := by
  refine ⟨fun v o hv ho => ⟨transparent1_iff hL hops hv ho, fun s hs => ?_⟩,
    fun v a b o hv ho => ⟨transparent2_iff hL hops hv ho, fun s hs => ?_⟩,
    fun s o c hc ho => ⟨transparentTotal_iff hL hops hc ho, fun w hw => ?_⟩⟩
  · obtain ⟨p, rfl, hp⟩ := createVerify1_made ho
    exact Codec.write_fresh_ne hL.packet1 hp hs hv
  · obtain ⟨p, rfl, hp⟩ := createVerify2_made ho
    exact Codec.write_fresh_ne hL.packet2 hp hs hv
  · obtain ⟨t, rfl, ht⟩ := totalShares_made ho
    exact Codec.write_fresh_ne hL.total ht hw hc

/-! ## A packet pickled twice -/

/-- A verifier of server A that holds a share. -/
def verifierA : Wrapper.Verifier plain :=
  ⟨Sample.openedA.config, (plain.prioVerifierSetData Sample.openedA.server none [3, 4]).2.2⟩

/-- Its verify1 packet. -/
def packetA : Wrapper.PacketVerify1 plain := ⟨some [7, 3, 4], none⟩

theorem transparent_iff_sample :
    let ops : List (LazyOp plain.Config) :=
      [.roundTrip, .deserialize Sample.openedA.config, .roundTrip]
    Transparent1 (· = Sample.openedA.config) packetA ops ∧
      (packetVerify1 plain).dumps ((packetVerify1 plain).loads [7, 3, 4]) ≠ .ok [7, 3, 4] := by
  intro ops
  have hops : Codec.Within (· = Sample.openedA.config) ops := fun c hc => by
    simpa [ops] using hc
  obtain ⟨hiff, hne⟩ :=
    (transparent_iff (plain_pickle _) hops).1 verifierA packetA rfl rfl
  exact ⟨hiff.2 rfl, hne _ rfl⟩

/-- **Counterexample**: a second round trip of a verify1 packet raises, and the
restored packet is not pickled as the bytes it was restored from. -/
theorem pickled_twice : createVerify1 plain verifierA = .ok packetA ∧
    ¬ Transparent1 (· = Sample.openedA.config) packetA [.roundTrip, .roundTrip] ∧
    (packetVerify1 plain).dumps packetA = .ok [7, 3, 4] ∧
    (packetVerify1 plain).dumps ((packetVerify1 plain).loads [7, 3, 4]) = .error .runtimeError := by
  refine ⟨rfl, ?_, rfl, rfl⟩
  rintro ⟨o', hr, -⟩
  cases hr

end PrioProcessor.Bugs.Repickled
