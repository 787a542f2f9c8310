import PrioProcessor.L2Commands.Spark

/-!
# The Spark pipeline, end to end

Server A and server B run verify1, verify2, aggregate and publish on raw
tables of their own. Every row's server is new, so verify1 and verify2 of both
servers evaluate every share at the first value of the shared stream, and the
packets of an id verify exactly when its two payloads are one client's
encoding (`verified_iff_encodes`). Hence both servers add the same ids, those
of the encodings in both tables, and publish the same record
(`end_to_end`), for every order and every partitioning of the rows.
-/
namespace PrioProcessor.L3.SparkEndToEnd

open L1 L2 L2.Spark

variable {L : Libprio} {V : L1.View L} {io : SparkIo} {a b : Args}

/-- The verify tables of one batch, with what their packets are. -/
structure Tables (V : L1.View L) (io : SparkIo) (oA : Opened L a) (oB : Opened L b)
    (rawA rawB : List Row) (v : Verified) : Prop where
  idsA : (rawA.map Row.id).Nodup
  idsB : (rawB.map Row.id).Nodup
  spec1A : Spec1 V io oA rawA v.verify1A
  spec1B : Spec1 V io oB rawB v.verify1B
  spec2A : Spec2 V io oA rawA v.verify1A v.verify1B v.verify2A
  spec2B : Spec2 V io oB rawB v.verify1B v.verify1A v.verify2B

theorem tables (hio : io.Law) (hS : V.SetDataLaw) (hP : V.PacketLaw) (hR : V.StreamLaw)
    (oA : Opened L a) (oB : Opened L b) {A B : Plan} {rawA rawB : List Row} {v : Verified}
    (huA : (rawA.map Row.id).Nodup) (huB : (rawB.map Row.id).Nodup)
    (h : verifyStages L io A B a b rawA rawB = .ok v) : Tables V io oA oB rawA rawB v := by
  obtain ⟨h1A, h1B, h2A, h2B⟩ := verifyStages_ok h
  have s1A := verify1_spec oA hio hS hP hR huA h1A
  have s1B := verify1_spec oB hio hS hP hR huB h1B
  exact ⟨huA, huB, s1A, s1B, verify2_spec oA hio hS hP hR huA s1A.ids s1B.ids h2A,
    verify2_spec oB hio hS hP hR huB s1B.ids s1A.ids h2B⟩

section Tables

variable {oA : Opened L a} {oB : Opened L b} {rawA rawB : List Row} {v : Verified}

/-- The verify2 packets of an id verify exactly when the payloads of the id are
the two halves of one encoding. -/
theorem verified_iff_encodes (hL : V.LiveLaw) (hpoint : Udf.point V oB = Udf.point V oA)
    (hE : V.EncodeLaw a.nData oA.config oA.ident oB.ident)
    (hN : V.SnipLaw a.nData oA.config oA.ident oB.ident) (t : Tables V io oA oB rawA rawB v)
    {id : String} :
    (∃ qa qb, Carries io v.verify2A id qa ∧ Carries io v.verify2B id qb ∧ V.valid qa qb = true) ↔
      ∃ x y z, Carries io rawA id x ∧ Carries io rawB id y ∧
        V.Encodes a.nData oA.config x y z := by
  constructor
  · rintro ⟨qa, qb, hqa, hqb, hv⟩
    obtain ⟨x, pa, pb, hx, hpa, hpb, -, hma⟩ := t.spec2A.made id qa hqa
    obtain ⟨y, pb', pa', hy, hpb', hpa', -, hmb⟩ := t.spec2B.made id qb hqb
    -- both servers read the same two verify1 packets, made of the same two shares
    have hpbe := hpb'.unique t.spec1B.ids hpb
    have hpae := hpa'.unique t.spec1A.ids hpa
    subst hpbe hpae
    obtain ⟨x', hx', -, hma'⟩ := t.spec1A.made id _ hpa
    obtain ⟨y', hy', -, hmb'⟩ := t.spec1B.made id _ hpb
    have hxe := hx'.unique t.idsA hx
    have hye := hy'.unique t.idsB hy
    subst hxe hye
    obtain ⟨-, z, hz⟩ := (hN _ _ _ _ _ _ _ _ _ _ hma' hmb' hma hmb).1 hv
    exact ⟨x', y', z, hx, hy, hz⟩
  · rintro ⟨x, y, z, hx, hy, hz⟩
    obtain ⟨hdx, hdy⟩ := hE.decodes x y z hz
    obtain ⟨pa, hpa⟩ := t.spec1A.live hL id x hx hdx
    obtain ⟨pb, hpb⟩ := t.spec1B.live hL id y hy hdy
    obtain ⟨x', hx', -, hma'⟩ := t.spec1A.made id pa hpa
    obtain ⟨y', hy', -, hmb'⟩ := t.spec1B.made id pb hpb
    have hxe := hx'.unique t.idsA hx
    have hye := hy'.unique t.idsB hy
    subst hxe hye
    obtain ⟨qa, hqa⟩ := t.spec2A.live hL id x' pa pb hx hpa hpb hdx (hL.made1 _ _ hma')
      (hL.made1 _ _ hmb')
    obtain ⟨qb, hqb⟩ := t.spec2B.live hL id y' pb pa hy hpb hpa hdy (hL.made1 _ _ hmb')
      (hL.made1 _ _ hma')
    obtain ⟨x'', pa', pb', hx'', hpa', hpb', -, hma⟩ := t.spec2A.made id qa hqa
    obtain ⟨y'', pb'', pa'', hy'', hpb'', hpa'', -, hmb⟩ := t.spec2B.made id qb hqb
    cases hx''.unique t.idsA hx
    cases hy''.unique t.idsB hy
    cases hpa'.unique t.spec1A.ids hpa
    cases hpa''.unique t.spec1A.ids hpa
    cases hpb'.unique t.spec1B.ids hpb
    cases hpb''.unique t.spec1B.ids hpb
    refine ⟨qa, qb, hqa, hqb, (hN _ _ _ _ _ _ _ _ _ _ hma' hmb' hma hmb).2 ⟨?_, z, hz⟩⟩
    exact ⟨rfl, hpoint.symm, hpoint.symm⟩

end Tables

/-! ## One server -/

section Server

variable {k : Args} {o : Opened L a} {o' : Opened L k} {raw raw' vi ve vi' ve' own peer : List Row}

/-- The ids a server's aggregate joins are those of both verify2 tables. -/
theorem mem_joined (s : Spec2 V io o raw vi ve own) {id : String} :
    id ∈ (joinTables io raw own peer).map Udf.Joined.id ↔
      id ∈ own.map Row.id ∧ id ∈ peer.map Row.id := by
  constructor
  · intro h
    obtain ⟨row, hrow, rfl⟩ := List.mem_map.1 h
    obtain ⟨x, -, y, hy, z, hz, hyx, hzx, rfl⟩ := mem_joinTables.1 hrow
    exact ⟨List.mem_map.2 ⟨y, hy, hyx⟩, List.mem_map.2 ⟨z, hz, hzx⟩⟩
  · rintro ⟨hown, hpeer⟩
    obtain ⟨y, hy, rfl⟩ := List.mem_map.1 hown
    obtain ⟨z, hz, hzy⟩ := List.mem_map.1 hpeer
    obtain ⟨q, hq⟩ := s.valid y hy
    obtain ⟨b, -, -, ⟨x, hx, hxy, -⟩, -⟩ := s.made y.id q ⟨y, hy, rfl, hq⟩
    exact List.mem_map.2 ⟨_, mem_joinTables.2 ⟨x, hx, y, hy, z, hz, hxy.symm,
      hzy.trans hxy.symm, rfl⟩, hxy⟩

/-- A server adds the ids whose two verify2 packets verify. -/
theorem mem_added (hL : V.LiveLaw) (s : Spec2 V io o raw vi ve own)
    (s' : Spec2 V io o' raw' vi' ve' peer) {id : String} :
    id ∈ ((joinTables io raw own peer).filter (Udf.accepts V o.ident)).map Udf.Joined.id ↔
      ∃ x y, Carries io own id x ∧ Carries io peer id y ∧ V.valid x y = true := by
  rw [mem_added_iff]
  constructor
  · rintro ⟨b, x, y, -, hx, hy, -, -, -, hv⟩
    exact ⟨x, y, hx, hy, hv⟩
  · rintro ⟨x, y, hx, hy, hv⟩
    obtain ⟨b, p, q, hb, -, -, hd, hm⟩ := s.made id x hx
    obtain ⟨b', p', q', -, -, -, -, hm'⟩ := s'.made id y hy
    exact ⟨b, x, y, hb, hx, hy, hd, hL.made2 _ _ _ _ hm, hL.made2 _ _ _ _ hm', hv⟩

theorem joined_nodup (io : SparkIo) (hu : (raw.map Row.id).Nodup) (hi : (own.map Row.id).Nodup)
    (he : (peer.map Row.id).Nodup) :
    ((joinTables io raw own peer).map Udf.Joined.id).Nodup :=
  hu.sublist (joinTables_ids io hi he)

/-- The sum of the accepted shares, by id. -/
theorem shareSum_added {i : Ident L} (hu : (raw.map Row.id).Nodup) {added : List String}
    (hadd : added.Perm
      (((joinTables io raw own peer).filter (Udf.accepts V i)).map Udf.Joined.id))
    {x : String → Bytes} (hx : ∀ id ∈ added, Carries io raw id (x id)) :
    Udf.shareSum V i (joinTables io raw own peer) = (added.map fun id => V.data i (x id)).sum := by
  rw [(hadd.map _).sum_eq]
  refine Udf.shareSum_eq fun row hrow hacc => ?_
  have hid := hadd.mem_iff.2 (List.mem_map.2 ⟨row, List.mem_filter.2 ⟨hrow, hacc⟩, rfl⟩)
  obtain ⟨r, hr, y, -, z, -, -, -, rfl⟩ := mem_joinTables.1 hrow
  obtain ⟨r', hr', hrid, hcol⟩ := hx _ hid
  rw [← hcol, List.inj_on_of_nodup_map hu hr hr' hrid.symm]

end Server

theorem countP_not_eq {α : Type} (p : α → Bool) (xs : List α) :
    xs.countP (fun x => !p x) = xs.length - (xs.filter p).length := by
  have h := List.length_eq_countP_add_countP p (l := xs)
  rw [List.countP_eq_length_filter (p := p)] at h
  have hnot : xs.countP (fun x => !p x) = xs.countP fun x => decide ¬ p x = true :=
    List.countP_congr fun x _ => by simp
  omega

section Counters

variable {oA : Opened L a} {oB : Opened L b} {rawA rawB : List Row} {v : Verified}

/-- The joined tables hold the same ids. -/
theorem joined_perm (t : Tables V io oA oB rawA rawB v) :
    ((joinTables io rawA v.verify2A v.verify2B).map Udf.Joined.id).Perm
      ((joinTables io rawB v.verify2B v.verify2A).map Udf.Joined.id) := by
  have hnA := joined_nodup io t.idsA t.spec2A.ids t.spec2B.ids
  have hnB := joined_nodup io t.idsB t.spec2B.ids t.spec2A.ids
  refine (List.perm_ext_iff_of_nodup hnA hnB).2 fun id => ?_
  rw [mem_joined t.spec2A, mem_joined t.spec2B, and_comm]

theorem accepted_nodup (t : Tables V io oA oB rawA rawB v) :
    (((joinTables io rawA v.verify2A v.verify2B).filter (Udf.accepts V oA.ident)).map
      Udf.Joined.id).Nodup ∧
    (((joinTables io rawB v.verify2B v.verify2A).filter (Udf.accepts V oB.ident)).map
      Udf.Joined.id).Nodup := by
  have hnA := joined_nodup io t.idsA t.spec2A.ids t.spec2B.ids
  have hnB := joined_nodup io t.idsB t.spec2B.ids t.spec2A.ids
  exact ⟨hnA.sublist (List.filter_sublist.map Udf.Joined.id),
    hnB.sublist (List.filter_sublist.map Udf.Joined.id)⟩

/-- Both servers accept the same ids: the check does not depend on the order of
its two packets. -/
theorem accepted_perm (hL : V.LiveLaw) (hY : V.SymmLaw) (t : Tables V io oA oB rawA rawB v) :
    (((joinTables io rawA v.verify2A v.verify2B).filter (Udf.accepts V oA.ident)).map
      Udf.Joined.id).Perm
    (((joinTables io rawB v.verify2B v.verify2A).filter (Udf.accepts V oB.ident)).map
      Udf.Joined.id) := by
  obtain ⟨hsA, hsB⟩ := accepted_nodup t
  refine (List.perm_ext_iff_of_nodup hsA hsB).2 fun id => ?_
  rw [mem_added hL t.spec2A t.spec2B, mem_added hL t.spec2B t.spec2A]
  exact ⟨fun ⟨x, y, hx, hy, hval⟩ => ⟨y, x, hy, hx, (hY y x).trans hval⟩,
    fun ⟨x, y, hx, hy, hval⟩ => ⟨y, x, hy, hx, (hY y x).trans hval⟩⟩

/-- Both servers count the same rows and the same errors. -/
theorem counters_eq (hL : V.LiveLaw) (hY : V.SymmLaw) (t : Tables V io oA oB rawA rawB v) :
    (joinTables io rawA v.verify2A v.verify2B).length =
      (joinTables io rawB v.verify2B v.verify2A).length ∧
    ((joinTables io rawA v.verify2A v.verify2B).countP fun row => !Udf.accepts V oA.ident row) =
      (joinTables io rawB v.verify2B v.verify2A).countP fun row =>
        !Udf.accepts V oB.ident row := by
  have hlen : (joinTables io rawA v.verify2A v.verify2B).length =
      (joinTables io rawB v.verify2B v.verify2A).length := by
    simpa using (joined_perm t).length_eq
  have hacc := (accepted_perm hL hY t).length_eq
  rw [List.length_map, List.length_map] at hacc
  refine ⟨hlen, ?_⟩
  rw [countP_not_eq, countP_not_eq, hlen, hacc]

end Counters

/-- Both servers add the ids whose payloads are one client's encoding, publish
the sum of the encoded vectors, and report the same counters. -/
theorem end_to_end (hio : io.Law) (hC : View.ConfigLaw L) (hS : V.SetDataLaw) (hP : V.PacketLaw)
    (hR : V.StreamLaw) (hL : V.LiveLaw) (hA : V.AggregateLaw) (hM : V.MergeLaw) (hT : V.TotalLaw)
    (hY : V.SymmLaw) (oA : Opened L a) (oB : Opened L b) (ha : a.serverId = .A)
    (hb : b.serverId = .B) (hn : b.nData = a.nData) (hsecret : b.sharedSecret = a.sharedSecret)
    (hE : V.EncodeLaw a.nData oA.config oA.ident oB.ident)
    (hN : V.SnipLaw a.nData oA.config oA.ident oB.ident) (A B : Plan) {rawA rawB : List Row}
    (huA : (rawA.map Row.id).Nodup) (huB : (rawB.map Row.id).Nodup) {v : Verified}
    (hv : verifyStages L io A B a b rawA rawB = .ok v)
    (hsurvives : ∃ id ∈ v.verify2A.map Row.id, id ∈ v.verify2B.map Row.id) :
    ∃ f, sumStages L io A B a b rawA rawB v = .ok f ∧
      (∀ id, id ∈ f.aggregateA.added ↔ id ∈ f.aggregateB.added) ∧
      f.aggregateA.added.Nodup ∧ f.aggregateB.added.Nodup ∧
      (∀ id, id ∈ f.aggregateA.added ↔ ∃ x y z, Carries io rawA id x ∧ Carries io rawB id y ∧
        V.Encodes a.nData oA.config x y z) ∧
      f.publishA = f.publishB ∧
      ∃ client : String → Bytes,
        (∀ id ∈ f.aggregateA.added, ∃ x y, Carries io rawA id x ∧ Carries io rawB id y ∧
          V.Encodes a.nData oA.config x y (client id)) ∧
        (f.publishA.payload = (List.range a.nData).map fun j =>
          (f.aggregateA.added.map fun id => field (client id) j).sum % V.modulus) ∧
        (f.aggregateA.added.length < V.modulus →
          f.publishA.payload = (List.range a.nData).map fun j =>
            (f.aggregateA.added.map fun id => field (client id) j).sum) := by
  have t := tables hio hS hP hR oA oB huA huB hv
  have hpoint : Udf.point V oB = Udf.point V oA := by
    have hseed : oB.seed = oA.seed := Option.some.inj (by rw [← oB.secret, ← oA.secret, hsecret])
    unfold Udf.point; rw [hseed]
  obtain ⟨id₀, h₀A, h₀B⟩ := hsurvives
  have hneA : joinTables io rawA v.verify2A v.verify2B ≠ [] := fun h => by
    have := (mem_joined t.spec2A).2 ⟨h₀A, h₀B⟩
    rw [h] at this; cases this
  have hneB : joinTables io rawB v.verify2B v.verify2A ≠ [] := fun h => by
    have := (mem_joined t.spec2B).2 ⟨h₀B, h₀A⟩
    rw [h] at this; cases this
  obtain ⟨wA, addA, hwA, haddA, haggA⟩ := aggregate_eq oA hS hA hM hT A.joined A.partials hneA
  obtain ⟨wB, addB, hwB, haddB, haggB⟩ := aggregate_eq oB hS hA hM hT B.joined B.partials hneB
  rw [ha] at hwA
  rw [hb] at hwB
  obtain ⟨hsA, hsB⟩ := accepted_nodup t
  have hacc := accepted_perm hL hY t
  obtain ⟨hlen, herr⟩ := counters_eq hL hY t
  have hencodes : ∀ id, id ∈ addA ↔ ∃ x y z, Carries io rawA id x ∧ Carries io rawB id y ∧
      V.Encodes a.nData oA.config x y z := fun id => by
    rw [haddA.mem_iff, mem_added hL t.spec2A t.spec2B, verified_iff_encodes hL hpoint hE hN t]
  have hclient : ∀ id ∈ addA, ∃ x y z, Carries io rawA id x ∧ Carries io rawB id y ∧
      V.Encodes a.nData oA.config x y z := fun id hid => (hencodes id).1 hid
  choose! x y client hx hy hz using hclient
  obtain ⟨hpA, hpB⟩ := publish_eq hio hC hT oA oB ha hb hn hwA hwB
    ((joinTables io rawA v.verify2A v.verify2B).countP fun row => !Udf.accepts V oA.ident row)
    (joinTables io rawA v.verify2A v.verify2B).length
    ((joinTables io rawB v.verify2B v.verify2A).countP fun row => !Udf.accepts V oB.ident row)
    (joinTables io rawB v.verify2B v.verify2A).length
  have haddAB : addA.Perm addB := (haddA.trans hacc).trans haddB.symm
  have hpayload : ((List.range a.nData).map fun j =>
      (Udf.shareSum V oA.ident (joinTables io rawA v.verify2A v.verify2B) j +
        Udf.shareSum V oB.ident (joinTables io rawB v.verify2B v.verify2A) j).val) =
      (List.range a.nData).map fun j =>
        (addA.map fun id => field (client id) j).sum % V.modulus := by
    refine List.map_congr_left fun j hj => ?_
    rw [shareSum_added huA haddA hx, shareSum_added huB (haddAB.trans haddB) hy]
    exact View.sum_halves (fun id hid => hE.halves _ _ _ (hz id hid)) (List.mem_range.1 hj)
  refine ⟨_, sumStages_ok haggA haggB hpA hpB, fun id => haddAB.mem_iff, haddA.nodup_iff.2 hsA,
    haddB.nodup_iff.2 hsB, hencodes, ?_, client, fun id hid => ⟨x id, y id, hx id hid, hy id hid,
      hz id hid⟩, hpayload, fun hlt => ?_⟩
  · rw [herr, hlen]
  · refine hpayload.trans (List.map_congr_left fun j _ => ?_)
    exact View.sum_field_mod (fun id hid => (hz id hid).1) hlt j

/-- A null payload, a share that does not decode, and two shares that are not
one client's; the servers use different orders and partitions. -/
theorem end_to_end_sample :
    let A : Plan := ⟨.halves, .whole, .halves, .halves⟩
    let B : Plan := ⟨.whole, .halves, .whole, .halves⟩
    let rawA : List Row := [⟨"t", none⟩, ⟨"u", some (b64encode [3, 4])⟩,
      ⟨"v", some (b64encode [9])⟩, ⟨"w", some (b64encode [5, 5])⟩, ⟨"z", some (b64encode [5, 5])⟩]
    let rawB : List Row := [⟨"w", some (b64encode [252, 251])⟩, ⟨"u", some (b64encode [254, 252])⟩,
      ⟨"v", some (b64encode [9, 9])⟩, ⟨"z", some (b64encode [5, 5])⟩]
    ∃ v f, verifyStages plain Sample.io A B Sample.argsA Sample.argsB rawA rawB = .ok v ∧
      sumStages plain Sample.io A B Sample.argsA Sample.argsB rawA rawB v = .ok f ∧
      (∀ id, id ∈ f.aggregateA.added ↔ id ∈ f.aggregateB.added) ∧ f.publishA = f.publishB := by
  intro A B rawA rawB
  have hv : verifyStages plain Sample.io A B Sample.argsA Sample.argsB rawA rawB = .ok
      ⟨[⟨"w", some "BwUF"⟩, ⟨"z", some "BwUF"⟩, ⟨"u", some "BwME"⟩],
        [⟨"w", some "B/z7"⟩, ⟨"u", some "B/78"⟩, ⟨"v", some "BwkJ"⟩, ⟨"z", some "BwUF"⟩],
        [⟨"u", some "AQcDBA=="⟩, ⟨"w", some "AQcFBQ=="⟩, ⟨"z", some "AQcFBQ=="⟩],
        [⟨"u", some "AQf+/A=="⟩, ⟨"z", some "AQcFBQ=="⟩, ⟨"w", some "AQf8+w=="⟩]⟩ := by
    decide +kernel
  obtain ⟨f, hf, hids, -, -, -, hpub, -⟩ := end_to_end Sample.io_law Plain.plain_config
    Plain.plain_setData Plain.plain_packet Plain.plain_stream Plain.plain_live
    Plain.plain_aggregate Plain.plain_merge Plain.plain_total Plain.plain_symm Sample.openedA
    Sample.openedB rfl rfl rfl rfl (Plain.plain_encode _ _ _) (Plain.plain_snip _ _ _) A B
    (by decide) (by decide) hv (by decide)
  exact ⟨_, f, hv, hf, hids, hpub⟩

end PrioProcessor.L3.SparkEndToEnd
