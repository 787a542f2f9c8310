import PrioProcessor.L2Commands.Cli

/-!
# The command-line servers agree on what they sum

Server A and server B run verify1, verify2 and aggregate on files of their
own, with rows missing, in another order, or refused by libprio at any call of
the two verification rounds. An id that server A's aggregate accepts has a
line in both verify2 files, so both servers decoded a share of it
(`holds_verify2`); the two packets are the same ones on the other side, so
server B accepts it too (`accepts_peer`). `servers_agree` adds the soundness
of verification: the accepted pairs are halves of client vectors, and both
servers publish the sum of these vectors.
-/
namespace PrioProcessor.L3.CliAgreement

open L1 L2 L2.Cli

variable {L : Libprio} {V : L1.View L}

/-! ## What the packets of an id are made of -/

/-- The packet of an id in a verify1 file was made from a share of the id. -/
theorem holds_verify1 {i : Ident L} {raw lines : List Datum}
    (h : ∀ y ∈ lines, ∃ d ∈ raw, ∃ r, Line1 V i d r y) {id : String} {q : Bytes}
    (hq : Holds lines id q) : ∃ d ∈ raw, d.id = id ∧ ∃ r, V.Made1 ⟨i, d.bytes, r⟩ q := by
  obtain ⟨y, hy, rfl, -, rfl⟩ := hq
  obtain ⟨d, hd, r, -, -, q, hmade, rfl⟩ := h y hy
  refine ⟨d, hd, rfl, r, ?_⟩
  rw [bytes_encoded]; exact hmade

/-- The packet of an id in a verify2 file was made from a share of the id and
from its packets in the two verify1 files. -/
theorem holds_verify2 {i : Ident L} {raw vi ve lines : List Datum}
    (h : ∀ y ∈ lines, ∃ d ∈ raw, ∃ r, Line2 V i vi ve d r y) {id : String} {q : Bytes}
    (hq : Holds lines id q) : ∃ d ∈ raw, d.id = id ∧ d.Decodes ∧ V.decodes i d.bytes = true ∧
      ∃ r x z, Holds vi id x ∧ Holds ve id z ∧ V.Made2 ⟨i, d.bytes, r⟩ x z q := by
  obtain ⟨y, hy, rfl, -, rfl⟩ := hq
  obtain ⟨d, hd, r, hdec, hacc, x, z, q, hx, hz, hmade, rfl⟩ := h y hy
  refine ⟨d, hd, rfl, hdec, hacc, r, x, z, hx, hz, ?_⟩
  rw [bytes_encoded]; exact hmade

/-! ## Agreement -/

/-- An id accepted at one server is accepted at the other. -/
theorem accepts_peer (hY : V.SymmLaw) {i k : Ident L} {raw raw' v2 v2' vi ve : List Datum}
    (hv : (v2.map Datum.id).Nodup) (hv' : (v2'.map Datum.id).Nodup)
    (hmem : ∀ y ∈ v2', ∃ d ∈ raw', ∃ r, Line2 V k vi ve d r y) {id : String}
    (h : id ∈ (raw.filter (accepts V i v2 v2')).map Datum.id) :
    id ∈ (raw'.filter (accepts V k v2' v2)).map Datum.id := by
  obtain ⟨-, x, y, -, hx, hy, -, hrx, hry, hval⟩ := (mem_added_iff hv hv').1 h
  obtain ⟨e, he, hid, hdec, hdecodes, -⟩ := holds_verify2 hmem hy
  exact (mem_added_iff hv' hv).2 ⟨e.bytes, y, x, ⟨e, he, hid, hdec, rfl⟩, hy, hx, hdecodes, hry,
    hrx, (hY y x).trans hval⟩

/-- The two shares of an accepted id are halves of a client vector. -/
theorem accepted_halves {n : ℕ} {i k : Ident L} (hV : V.SoundLaw n i k)
    {raw raw' v1 v1' v2 v2' : List Datum} (hu : (raw.map Datum.id).Nodup)
    (hu' : (raw'.map Datum.id).Nodup) (hn : (v1.map Datum.id).Nodup)
    (hn' : (v1'.map Datum.id).Nodup) (hv : (v2.map Datum.id).Nodup)
    (hv' : (v2'.map Datum.id).Nodup)
    (h₁ : ∀ y ∈ v1, ∃ d ∈ raw, ∃ r, Line1 V i d r y)
    (h₁' : ∀ y ∈ v1', ∃ d ∈ raw', ∃ r, Line1 V k d r y)
    (h₂ : ∀ y ∈ v2, ∃ d ∈ raw, ∃ r, Line2 V i v1 v1' d r y)
    (h₂' : ∀ y ∈ v2', ∃ d ∈ raw', ∃ r, Line2 V k v1' v1 d r y) {id : String}
    (h : id ∈ (raw.filter (accepts V i v2 v2')).map Datum.id) :
    ∃ x, V.Halves n i k (shareOf raw id) (shareOf raw' id) x := by
  obtain ⟨-, qa, qb, -, hqa, hqb, -, -, -, hval⟩ := (mem_added_iff hv hv').1 h
  -- one share and one verify1 packet of the id at each server
  obtain ⟨dA, hdA, hidA, -, -, rA, xA, zA, hxA, hzA, hmA⟩ := holds_verify2 h₂ hqa
  obtain ⟨dB, hdB, hidB, -, -, rB, xB, zB, hxB, hzB, hmB⟩ := holds_verify2 h₂' hqb
  obtain ⟨eA, heA, hjA, sA, hmadeA⟩ := holds_verify1 h₁ hxA
  obtain ⟨eB, heB, hjB, sB, hmadeB⟩ := holds_verify1 h₁' hxB
  have heqA : eA = dA := List.inj_on_of_nodup_map hu heA hdA (hjA.trans hidA.symm)
  have heqB : eB = dB := List.inj_on_of_nodup_map hu' heB hdB (hjB.trans hidB.symm)
  have hzxA : zB = xA := holds_unique hn hzB hxA
  have hzxB : zA = xB := holds_unique hn' hzA hxB
  subst heqA heqB hzxA hzxB
  rw [← hidA, shareOf_eq hu hdA, hidA, ← hidB, shareOf_eq hu' hdB]
  exact hV _ _ _ _ _ _ _ _ _ _ hmadeA hmadeB hmA hmB hval

/-- Server A and server B add the same ids, each once, and publish the sum of
the client vectors of these ids. -/
theorem servers_agree (hC : View.ConfigLaw L) (hS : V.SetDataLaw) (hP : V.PacketLaw)
    (hA : V.AggregateLaw) (hT : V.TotalLaw) (hY : V.SymmLaw) {a b : Args} (oA : Opened L a)
    (oB : Opened L b) (ha : a.serverId = .A) (hb : b.serverId = .B) (hn : b.nData = a.nData)
    (hV : V.SoundLaw a.nData oA.ident oB.ident) {rawA rawB : List Datum}
    (huA : (rawA.map Datum.id).Nodup) (huB : (rawB.map Datum.id).Nodup)
    (hdA : ∀ d ∈ rawA, d.Decodes) (hdB : ∀ d ∈ rawB, d.Decodes) :
    ∃ f, pipeline L a b rawA rawB = .ok f ∧
      (∀ id, id ∈ f.aggregateA.added ↔ id ∈ f.aggregateB.added) ∧
      f.aggregateA.added.Nodup ∧ f.aggregateB.added.Nodup ∧
      f.publishA = f.publishB ∧
      ∃ client : String → Bytes,
        (∀ id ∈ f.aggregateA.added, ∃ x y, Holds rawA id x ∧ Holds rawB id y ∧
          V.Halves a.nData oA.ident oB.ident x y (client id)) ∧
        (f.publishA = (List.range a.nData).map fun j =>
          (f.aggregateA.added.map fun id => field (client id) j).sum % V.modulus) ∧
        (f.aggregateA.added.length < V.modulus →
          f.publishA = (List.range a.nData).map fun j =>
            (f.aggregateA.added.map fun id => field (client id) j).sum) := by
  obtain ⟨f, hpipe, p⟩ := pipeline_produced hC hS hP hA hT oA oB ha hb hn hdA hdB
  have hu1A := huA.sublist p.ids1A
  have hu1B := huB.sublist p.ids1B
  have hu2A := huA.sublist p.ids2A
  have hu2B := huB.sublist p.ids2B
  have hiff : ∀ id, id ∈ f.aggregateA.added ↔ id ∈ f.aggregateB.added := fun id => by
    rw [p.addedA, p.addedB]
    exact ⟨accepts_peer hY hu2A hu2B p.made2B, accepts_peer hY hu2B hu2A p.made2A⟩
  have hndA : f.aggregateA.added.Nodup := p.addedA ▸ huA.sublist (List.filter_sublist.map Datum.id)
  have hndB : f.aggregateB.added.Nodup := p.addedB ▸ huB.sublist (List.filter_sublist.map Datum.id)
  have hperm := (List.perm_ext_iff_of_nodup hndA hndB).2 hiff
  have hhalf : ∀ id ∈ f.aggregateA.added,
      ∃ x, V.Halves a.nData oA.ident oB.ident (shareOf rawA id) (shareOf rawB id) x := fun id hid =>
    accepted_halves hV huA huB hu1A hu1B hu2A hu2B p.made1A p.made1B p.made2A p.made2B
      (p.addedA ▸ hid)
  choose! client hclient using hhalf
  have hvector : f.publishA = (List.range a.nData).map fun j =>
      (f.aggregateA.added.map fun id => field (client id) j).sum % V.modulus := by
    rw [p.publishA]
    refine List.map_congr_left fun j hj => ?_
    rw [shareSum_eq huA, shareSum_eq huB, ← p.addedA, ← p.addedB, ← (hperm.map _).sum_eq]
    exact View.sum_halves hclient (List.mem_range.1 hj)
  refine ⟨f, hpipe, hiff, hndA, hndB, p.publishB.symm, client, fun id hid => ?_, hvector,
    fun hlt => ?_⟩
  · have hidA := hid
    have hidB := (hiff id).1 hid
    rw [p.addedA] at hidA
    rw [p.addedB] at hidB
    obtain ⟨d, hd, rfl⟩ := List.mem_map.1 hidA
    obtain ⟨e, he, hide⟩ := List.mem_map.1 hidB
    have hd := (List.mem_filter.1 hd).1
    have he := (List.mem_filter.1 he).1
    refine ⟨_, _, ⟨d, hd, rfl, hdA d hd, (shareOf_eq huA hd).symm⟩, ⟨e, he, hide, hdB e he, ?_⟩,
      hclient _ hid⟩
    rw [← hide, shareOf_eq huB he]
  · refine hvector.trans (List.map_congr_left fun j _ => ?_)
    exact View.sum_field_mod (fun id hid => (hclient id hid).vector) hlt j

/-- Server A has a share that does not decode. -/
def sampleA : List Datum :=
  [⟨"u", b64encode [3, 4]⟩, ⟨"v", b64encode [9]⟩, ⟨"w", b64encode [5, 5]⟩]

def sampleB : List Datum := [⟨"u", b64encode [254, 252]⟩, ⟨"w", b64encode [252, 251]⟩]

theorem servers_agree_sample : ∃ f,
    pipeline plain Sample.argsA Sample.argsB sampleA sampleB = .ok f ∧
      f.aggregateA.added = ["u", "w"] ∧ (∀ id, id ∈ f.aggregateB.added → id ∈ ["u", "w"]) ∧
      f.publishA = f.publishB := by
  have huA : (sampleA.map Datum.id).Nodup := by decide
  have huB : (sampleB.map Datum.id).Nodup := by decide
  have hdA : ∀ d ∈ sampleA, d.Decodes := by decide
  have hdB : ∀ d ∈ sampleB, d.Decodes := by decide
  obtain ⟨f, hf, hiff, -, -, hpub, -⟩ := servers_agree Plain.plain_config Plain.plain_setData
    Plain.plain_packet Plain.plain_aggregate Plain.plain_total Plain.plain_symm Sample.openedA
    Sample.openedB rfl rfl rfl (Plain.plain_sound _ _) huA huB hdA hdB
  have hadded : (pipeline plain Sample.argsA Sample.argsB sampleA sampleB).map
      (fun f => f.aggregateA.added) = .ok ["u", "w"] := by rfl
  rw [hf] at hadded
  have hadded := Except.ok.inj hadded
  exact ⟨f, hf, hadded, fun id hid => hadded ▸ (hiff id).2 hid, hpub⟩

end PrioProcessor.L3.CliAgreement
