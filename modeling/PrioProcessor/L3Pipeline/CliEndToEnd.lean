import PrioProcessor.Bugs.SharedStream
import PrioProcessor.L2Commands.Encode
import PrioProcessor.L3Pipeline.SparkEndToEnd

/-!
# From the client data to the published sums

`prio encode-shares`, then `verify1`, `verify2`, `aggregate` and `publish` of the
command-line tools at both servers, the round trip of
tests/test_prio_commands_end_to_end.py.

A command keeps one server for its file, and the evaluation point of a row is
the value of the server's stream at the number of rows before it that took one.
In files without a bad row this is the number of the row in all four passes
(`Clean.points`), so every pair of shares that verifies is added at both
servers (`clean_adds`); the files of `encode-shares` are of this kind
(`encoded_clean`).
-/
namespace PrioProcessor.L3.CliEndToEnd

open L1 L2 L2.Cli Bugs.SharedStream

variable {L : Libprio} {V : L1.View L} {a b : Args}

/-- Two files with the same ids in one order, all of whose shares decode. -/
structure Clean (V : L1.View L) (i k : Ident L) (fileA fileB : List Datum) : Prop where
  ids : fileB.map Datum.id = fileA.map Datum.id
  nodup : (fileA.map Datum.id).Nodup
  base64A : ∀ d ∈ fileA, d.Decodes
  base64B : ∀ d ∈ fileB, d.Decodes
  decodesA : ∀ d ∈ fileA, V.decodes i d.bytes = true
  decodesB : ∀ d ∈ fileB, V.decodes k d.bytes = true

section Clean

variable {i k : Ident L} {fileA fileB : List Datum}

theorem Clean.symm (h : Clean V i k fileA fileB) : Clean V k i fileB fileA :=
  ⟨h.ids.symm, h.ids ▸ h.nodup, h.base64B, h.base64A, h.decodesB, h.decodesA⟩

theorem before_ids (file : List Datum) (id : String) :
    (before file id).map Datum.id = (file.map Datum.id).takeWhile fun x => x ≠ id := by
  unfold before
  rw [List.takeWhile_map]
  rfl

/-- A row takes the value with its own number in verify1. -/
theorem Clean.taken1_eq (h : Clean V i k fileA fileB) (id : String) :
    taken1 V i fileA id = (before fileA id).length := by
  unfold taken1
  refine List.countP_eq_length.2 fun d hd => ?_
  have hm : d ∈ fileA := (List.takeWhile_sublist _).subset hd
  have hbase64 : (b64decode d.payload).isSome = true := h.base64A d hm
  unfold takes1
  rw [hbase64, h.decodesA d hm]
  rfl

theorem Clean.taken2_eq (h : Clean V i k fileA fileB) (id : String) :
    taken2 V i k fileA fileB id = (before fileA id).length := by
  unfold taken2
  refine List.countP_eq_length.2 fun d hd => ?_
  have hm : d ∈ fileA := (List.takeWhile_sublist _).subset hd
  have hid : d.id ∈ fileB.map Datum.id := by
    rw [h.ids]
    exact List.mem_map_of_mem hm
  obtain ⟨e, he, heid⟩ := List.mem_map.1 hid
  unfold paired
  rw [h.decodesA d hm, Bool.true_and, List.any_eq_true]
  exact ⟨e, he, by simp [heid, h.decodesB e he]⟩

theorem Clean.before_length (h : Clean V i k fileA fileB) (id : String) :
    (before fileB id).length = (before fileA id).length := by
  have hids : (before fileB id).map Datum.id = (before fileA id).map Datum.id := by
    rw [before_ids, before_ids, h.ids]
  simpa using congrArg List.length hids

theorem Clean.aligned (h : Clean V i k fileA fileB) (id : String) :
    Aligned V i k fileA fileB id := by
  have hlen := h.before_length id
  refine ⟨?_, ?_, ?_⟩
  · rw [h.taken2_eq, h.taken1_eq]
  · rw [h.symm.taken1_eq, h.taken1_eq, hlen]
  · rw [h.symm.taken2_eq, h.taken1_eq, hlen]

end Clean

section Files

variable {oA : Opened L a} {oB : Opened L b} {fileA fileB : List Datum}

/-- One point in the four passes. -/
theorem Clean.points (h : Clean V oA.ident oB.ident fileA fileB) (hL : V.LiveLaw)
    (hseed : oB.seed = oA.seed) {v1A v1B v2A v2B : List Datum}
    (t : Run V oA oB fileA fileB v1A v1B v2A v2B) (id : String) :
    point1 V oA fileA id = point2 V oA fileA v1A v1B id ∧
      point1 V oA fileA id = point1 V oB fileB id ∧
      point1 V oA fileA id = point2 V oB fileB v1B v1A id := by
  obtain ⟨ha2, hb1, hb2⟩ := h.aligned id
  rw [point2_eq t.file1A t.file1B hL t.idsA t.idsB t.decA,
    point2_eq t.file1B t.file1A hL t.idsB t.idsA t.decB, ha2, hb2]
  unfold taken1 at hb1 ⊢
  unfold point1
  rw [hseed, hb1]
  exact ⟨rfl, rfl, rfl⟩

/-- The commands of a pipeline that ended. -/
theorem pipeline_files {fileA fileB : List Datum} {f : Files}
    (h : pipeline L a b fileA fileB = .ok f) :
    (verify1 L a fileA >>= Written.file) = .ok f.verify1A ∧
    (verify1 L b fileB >>= Written.file) = .ok f.verify1B ∧
    (verify2 L a fileA f.verify1A f.verify1B >>= Written.file) = .ok f.verify2A ∧
    (verify2 L b fileB f.verify1B f.verify1A >>= Written.file) = .ok f.verify2B ∧
    aggregate L a fileA f.verify2A f.verify2B = .ok f.aggregateA ∧
    aggregate L b fileB f.verify2B f.verify2A = .ok f.aggregateB := by
  unfold pipeline at h
  obtain ⟨v1A, h1A, h⟩ := bind_ok h
  obtain ⟨v1B, h1B, h⟩ := bind_ok h
  obtain ⟨v2A, h2A, h⟩ := bind_ok h
  obtain ⟨v2B, h2B, h⟩ := bind_ok h
  obtain ⟨gA, hgA, h⟩ := bind_ok h
  obtain ⟨gB, hgB, h⟩ := bind_ok h
  obtain ⟨pA, -, h⟩ := bind_ok h
  obtain ⟨pB, -, h⟩ := bind_ok h
  cases h
  exact ⟨h1A, h1B, h2A, h2B, hgA, hgB⟩

/-- The verify files of a pipeline that ended are those of a run. -/
theorem pipeline_run (hS : V.SetDataLaw) (hP : V.PacketLaw) (hR : V.StreamLaw)
    (h : Clean V oA.ident oB.ident fileA fileB) {f : Files}
    (hf : pipeline L a b fileA fileB = .ok f) :
    Run V oA oB fileA fileB f.verify1A f.verify1B f.verify2A f.verify2B := by
  obtain ⟨h1A, h1B, h2A, h2B, -, -⟩ := pipeline_files hf
  have huA := h.nodup
  have huB := h.symm.nodup
  obtain ⟨v1A, hv1A, s1A⟩ := verify1_points oA hS hP hR huA h.base64A
  obtain ⟨v1B, hv1B, s1B⟩ := verify1_points oB hS hP hR huB h.base64B
  cases hv1A.symm.trans h1A
  cases hv1B.symm.trans h1B
  have hn1A := huA.sublist s1A.ids
  have hn1B := huB.sublist s1B.ids
  obtain ⟨v2A, hv2A, s2A⟩ :=
    verify2_points oA hS hP hR huA hn1A hn1B h.base64A s1A.decodes s1B.decodes
  obtain ⟨v2B, hv2B, s2B⟩ :=
    verify2_points oB hS hP hR huB hn1B hn1A h.base64B s1B.decodes s1A.decodes
  cases hv2A.symm.trans h2A
  cases hv2B.symm.trans h2B
  exact ⟨huA, huB, h.base64A, h.base64B, s1A, s1B, s2A, s2B⟩

/-- In clean files the verify2 packets of an id verify exactly when its shares
are a pair. -/
theorem Clean.verified_iff (h : Clean V oA.ident oB.ident fileA fileB) (hL : V.LiveLaw)
    (hseed : oB.seed = oA.seed) {Pair : Bytes → Bytes → Prop}
    (hPair : V.PointLaw oA.ident oB.ident Pair) {v1A v1B v2A v2B : List Datum}
    (t : Run V oA oB fileA fileB v1A v1B v2A v2B) {id : String} :
    (∃ qa qb, Holds v2A id qa ∧ Holds v2B id qb ∧ V.valid qa qb = true) ↔
      ∃ x y, Holds fileA id x ∧ Holds fileB id y ∧ Pair x y := by
  constructor
  · intro hq
    obtain ⟨qa, qb, hqa, hqb, hval⟩ := hq
    obtain ⟨x, y, pa, pb, hx, hy, -, -, hma, hmb, hma2, hmb2⟩ := packets t hqa hqb
    exact ⟨x, y, hx, hy, ((hPair _ _ _ _ _ _ _ _ _ _ hma hmb hma2 hmb2).1 hval).2⟩
  · intro hp
    obtain ⟨x, y, hx, hy, hpair⟩ := hp
    have hdx : V.decodes oA.ident x = true := by
      obtain ⟨d, hd, -, -, rfl⟩ := hx
      exact h.decodesA d hd
    have hdy : V.decodes oB.ident y = true := by
      obtain ⟨e, he, -, -, rfl⟩ := hy
      exact h.decodesB e he
    obtain ⟨qa, qb, hqa, hqb⟩ := reaches_verify2 hL t hx hy hdx hdy
    obtain ⟨x', y', pa, pb, hx', hy', -, -, hma, hmb, hma2, hmb2⟩ := packets t hqa hqb
    cases holds_unique t.idsA hx' hx
    cases holds_unique t.idsB hy' hy
    exact ⟨qa, qb, hqa, hqb, (hPair _ _ _ _ _ _ _ _ _ _ hma hmb hma2 hmb2).2
      ⟨h.points hL hseed t id, hpair⟩⟩

/-- An id is added at server A exactly when its verify2 packets verify. -/
theorem added_iff (hL : V.LiveLaw) {v1A v1B v2A v2B : List Datum}
    (t : Run V oA oB fileA fileB v1A v1B v2A v2B) {id : String} :
    id ∈ (fileA.filter (accepts V oA.ident v2A v2B)).map Datum.id ↔
      ∃ qa qb, Holds v2A id qa ∧ Holds v2B id qb ∧ V.valid qa qb = true := by
  have hn2A := t.idsA.sublist t.file2A.ids
  have hn2B := t.idsB.sublist t.file2B.ids
  rw [mem_added_iff hn2A hn2B]
  constructor
  · intro hq
    obtain ⟨-, qa, qb, -, hqa, hqb, -, -, -, hval⟩ := hq
    exact ⟨qa, qb, hqa, hqb, hval⟩
  · intro hq
    obtain ⟨qa, qb, hqa, hqb, hval⟩ := hq
    obtain ⟨x, y, pa, pb, hx, -, hdx, -, -, -, hma2, hmb2⟩ := packets t hqa hqb
    exact ⟨x, qa, qb, hx, hqa, hqb, hdx, hL.made2 _ _ _ _ hma2, hL.made2 _ _ _ _ hmb2, hval⟩

/-- The counters of aggregate. -/
theorem aggregate_counters (hS : V.SetDataLaw) (hA : V.AggregateLaw) (hT : V.TotalLaw)
    {o : Opened L a} {raw vi ve : List Datum} (hraw : ∀ d ∈ raw, d.Decodes)
    (hvi : ∀ d ∈ vi, d.Decodes) (hve : ∀ d ∈ ve, d.Decodes) {g : Aggregated}
    (h : aggregate L a raw vi ve = .ok g) :
    g.share.error + g.added.length = raw.length ∧ g.share.total = raw.length := by
  obtain ⟨w, -, hagg⟩ := aggregate_eq o hS hA hT hraw hvi hve
  cases hagg.symm.trans h
  refine ⟨?_, rfl⟩
  have hle := List.length_filter_le (accepts V o.ident vi ve) raw
  change (raw.countP fun d => !accepts V o.ident vi ve d) + _ = _
  rw [SparkEndToEnd.countP_not_eq, List.length_map]
  omega

/-- The two shares of the id are the encoding of `z`. -/
def Encoded (V : L1.View L) (n : ℕ) (config : L.Config) (fileA fileB : List Datum) (id : String)
    (z : Bytes) : Prop :=
  ∃ x y, Holds fileA id x ∧ Holds fileB id y ∧ V.Encodes n config x y z

/-- The encodings are added, each once at each server; the other rows are
errors; both servers publish the sum of the encoded vectors. -/
structure Sums (V : L1.View L) (n : ℕ) (config : L.Config) (fileA fileB : List Datum)
    (f : Files) : Prop where
  added : ∀ id, id ∈ f.aggregateA.added ↔ ∃ z, Encoded V n config fileA fileB id z
  peer : f.aggregateB.added.Perm f.aggregateA.added
  order : f.aggregateA.added.Sublist (fileA.map Datum.id)
  errorA : f.aggregateA.share.error + f.aggregateA.added.length = fileA.length
  errorB : f.aggregateB.share.error = f.aggregateA.share.error
  totalA : f.aggregateA.share.total = fileA.length
  totalB : f.aggregateB.share.total = fileA.length
  publish : ∃ client : String → Bytes,
    (∀ id ∈ f.aggregateA.added, Encoded V n config fileA fileB id (client id)) ∧
    f.publishA = (List.range n).map fun j =>
      (f.aggregateA.added.map fun id => field (client id) j).sum % V.modulus
  same : f.publishB = f.publishA

theorem shareOf_of_holds {file : List Datum} (hu : (file.map Datum.id).Nodup) {id : String}
    {x : Bytes} (h : Holds file id x) : shareOf file id = x := by
  obtain ⟨d, hd, rfl, -, rfl⟩ := h
  exact shareOf_eq hu hd

theorem clean_sums (hC : View.ConfigLaw L) (hS : V.SetDataLaw) (hP : V.PacketLaw)
    (hR : V.StreamLaw) (hL : V.LiveLaw) (hA : V.AggregateLaw) (hT : V.TotalLaw) (hY : V.SymmLaw)
    (oA : Opened L a) (oB : Opened L b) (ha : a.serverId = .A) (hb : b.serverId = .B)
    (hn : b.nData = a.nData) (hsecret : b.sharedSecret = a.sharedSecret) {config : L.Config}
    (hE : V.EncodeLaw a.nData config oA.ident oB.ident)
    (hV : V.SnipLaw a.nData config oA.ident oB.ident)
    (h : Clean V oA.ident oB.ident fileA fileB) :
    ∃ f, pipeline L a b fileA fileB = .ok f ∧ Sums V a.nData config fileA fileB f := by
  have hseed : oB.seed = oA.seed := Option.some.inj (by rw [← oB.secret, ← oA.secret, hsecret])
  obtain ⟨f, hf, p⟩ := pipeline_produced hC hS hP hA hT oA oB ha hb hn h.base64A h.base64B
  have t := pipeline_run hS hP hR h hf
  have t' : Run V oB oA fileB fileA f.verify1B f.verify1A f.verify2B f.verify2A :=
    ⟨t.idsB, t.idsA, t.decB, t.decA, t.file1B, t.file1A, t.file2B, t.file2A⟩
  obtain ⟨-, -, -, -, haggA, haggB⟩ := pipeline_files hf
  have hadded : ∀ id, id ∈ f.aggregateA.added ↔ ∃ z, Encoded V a.nData config fileA fileB id z := by
    intro id
    rw [p.addedA, added_iff hL t, h.verified_iff hL hseed hV t]
    exact ⟨fun ⟨x, y, hx, hy, z, hz⟩ => ⟨z, x, y, hx, hy, hz⟩,
      fun ⟨z, x, y, hx, hy, hz⟩ => ⟨x, y, hx, hy, z, hz⟩⟩
  have horder : f.aggregateA.added.Sublist (fileA.map Datum.id) := by
    rw [p.addedA]
    exact List.filter_sublist.map _
  have horderB : f.aggregateB.added.Sublist (fileB.map Datum.id) := by
    rw [p.addedB]
    exact List.filter_sublist.map _
  have hpeer : f.aggregateB.added.Perm f.aggregateA.added := by
    refine (List.perm_ext_iff_of_nodup (t.idsB.sublist horderB)
      (t.idsA.sublist horder)).2 fun id => ?_
    rw [p.addedA, p.addedB, added_iff hL t, added_iff hL t']
    exact ⟨fun ⟨qb, qa, hqb, hqa, hv⟩ => ⟨qa, qb, hqa, hqb, (hY qa qb).trans hv⟩,
      fun ⟨qa, qb, hqa, hqb, hv⟩ => ⟨qb, qa, hqb, hqa, (hY qb qa).trans hv⟩⟩
  have hlen : fileB.length = fileA.length := by simpa using congrArg List.length h.ids
  obtain ⟨herrA, htotA⟩ :=
    aggregate_counters (o := oA) hS hA hT h.base64A t.file2A.decodes t.file2B.decodes haggA
  obtain ⟨herrB, htotB⟩ :=
    aggregate_counters (o := oB) hS hA hT h.base64B t.file2B.decodes t.file2A.decodes haggB
  have hclient : ∀ id ∈ f.aggregateA.added, ∃ z, Encoded V a.nData config fileA fileB id z :=
    fun id hid => (hadded id).1 hid
  choose! client hclient using hclient
  have hhalf : ∀ id ∈ f.aggregateA.added,
      V.Halves a.nData oA.ident oB.ident (shareOf fileA id) (shareOf fileB id) (client id) := by
    intro id hid
    obtain ⟨x, y, hx, hy, hz⟩ := hclient id hid
    rw [shareOf_of_holds t.idsA hx, shareOf_of_holds t.idsB hy]
    exact hE.halves _ _ _ hz
  refine ⟨f, hf, hadded, hpeer, horder, herrA, ?_, htotA, htotB.trans hlen,
    ⟨client, hclient, ?_⟩, p.publishB⟩
  · have hperm := hpeer.length_eq
    omega
  · rw [p.publishA]
    refine List.map_congr_left fun j hj => ?_
    rw [shareSum_eq t.idsA, shareSum_eq t.idsB, ← p.addedA, ← p.addedB, (hpeer.map _).sum_eq]
    exact View.sum_halves hhalf (List.mem_range.1 hj)

/-- In files whose shares all decode, a pair that does not verify costs its own
row alone, wherever it stands: both servers publish the sum of the vectors that
the other rows encode. -/
theorem cli_robust (hC : View.ConfigLaw L) (hS : V.SetDataLaw) (hP : V.PacketLaw)
    (hR : V.StreamLaw) (hL : V.LiveLaw) (hA : V.AggregateLaw) (hT : V.TotalLaw) (hY : V.SymmLaw)
    (oA : Opened L a) (oB : Opened L b) (ha : a.serverId = .A) (hb : b.serverId = .B)
    (hn : b.nData = a.nData) (hsecret : b.sharedSecret = a.sharedSecret) {config : L.Config}
    (hE : V.EncodeLaw a.nData config oA.ident oB.ident)
    (hV : V.SnipLaw a.nData config oA.ident oB.ident) {fileA fileB : List Datum}
    (h : Clean V oA.ident oB.ident fileA fileB) (hlt : fileA.length < V.modulus) :
    ∃ f, pipeline L a b fileA fileB = .ok f ∧ Sums V a.nData config fileA fileB f ∧
      ∃ client : String → Bytes,
        (∀ id ∈ f.aggregateA.added, Encoded V a.nData config fileA fileB id (client id)) ∧
        f.publishA = (List.range a.nData).map fun j =>
          (f.aggregateA.added.map fun id => field (client id) j).sum := by
  obtain ⟨f, hf, hsums⟩ := clean_sums hC hS hP hR hL hA hT hY oA oB ha hb hn hsecret hE hV h
  obtain ⟨client, hclient, hpub⟩ := hsums.publish
  refine ⟨f, hf, hsums, client, hclient, hpub.trans (List.map_congr_left fun j _ => ?_)⟩
  have hlen : f.aggregateA.added.length ≤ fileA.length := by
    have hle := hsums.errorA
    omega
  refine View.sum_field_mod (n := a.nData) (fun id hid => ?_) (lt_of_le_of_lt hlen hlt) j
  obtain ⟨x, y, -, -, hz⟩ := hclient id hid
  exact hz.1

end Files

namespace Sample

/-- The shares of `x` decode at both servers, but add up to no vector of bits. -/
def fileA : List Datum := [⟨"x", b64encode [9, 9]⟩, ⟨"u", b64encode [3, 4]⟩]

def fileB : List Datum := [⟨"x", b64encode [9, 9]⟩, ⟨"u", b64encode [254, 252]⟩]

theorem cli_robust_sample : ∃ f,
    pipeline plain L2.Sample.argsA L2.Sample.argsB fileA fileB = .ok f ∧
    Sums plainView 2 L2.Sample.openedA.config fileA fileB f := by
  obtain ⟨f, hf, hsums, -⟩ := cli_robust Plain.plain_config Plain.plain_setData Plain.plain_packet
    Plain.plain_stream Plain.plain_live Plain.plain_aggregate Plain.plain_total Plain.plain_symm
    L2.Sample.openedA L2.Sample.openedB rfl rfl rfl rfl
    (Plain.plain_encode L2.Sample.openedA.config _ _) (Plain.plain_snip _ _ _)
    (⟨rfl, by decide, by decide, by decide, by decide, by decide⟩ :
      Clean plainView L2.Sample.openedA.ident L2.Sample.openedB.ident fileA fileB)
    (show fileA.length < 256 by decide)
  exact ⟨f, hf, hsums⟩

end Sample

/-! ## The files of encode-shares -/

/-- A file of shares, in the order of the input. -/
def sharesFile (uuid : ℕ → String) (input : List (List ℤ)) (x : List ℤ × ℕ → Bytes) : List Datum :=
  input.zipIdx.map fun p => ⟨uuid p.2, b64encode (x p)⟩

/-- The files of encode-shares have the rows in the order of the input, each
under its id, and are the two halves of the encodings. -/
theorem encodeShares_files {e : EncodeArgs} {config : L.Config}
    (hkeys : encodeConfig L e = .ok config)
    (hclient : ∀ x coins, ClientVector e.nData x → ∃ s, L.prioClientEncode config x coins = .ok s)
    (coins : ℕ → L.Coins) (uuid : ℕ → String) {input : List (List ℤ)}
    (hinput : ∀ xs ∈ input, ZeroOne e.nData xs) :
    ∃ x y z : List ℤ × ℕ → Bytes,
      Cli.encodeShares L e coins uuid input =
        .ok (sharesFile uuid input x, sharesFile uuid input y) ∧
      ∀ p ∈ input.zipIdx, bytesOf p.1 = .ok (z p) ∧ V.Encodes e.nData config (x p) (y p) (z p) := by
  have hrow : ∀ p ∈ input.zipIdx, ∃ x y z, bytesOf p.1 = .ok z ∧
      V.Encodes e.nData config x y z ∧ L.prioClientEncode config z (coins p.2) = .ok (x, y) := by
    intro p hp
    obtain ⟨z, hz, hvec⟩ := bytesOf_client (hinput p.1 (List.fst_mem_of_mem_zipIdx hp))
    obtain ⟨s, hs⟩ := hclient z (coins p.2) hvec
    exact ⟨s.1, s.2, z, hz, ⟨hvec, coins p.2, hs⟩, hs⟩
  choose! x y z hz hencodes hshares using hrow
  refine ⟨x, y, z, ?_, fun p hp => ⟨hz p hp, hencodes p hp⟩⟩
  have hout : ∀ p ∈ input.zipIdx, Cli.encodeRow L config (coins p.2) (uuid p.2) p.1 =
      .ok (⟨uuid p.2, b64encode (x p)⟩, ⟨uuid p.2, b64encode (y p)⟩) := by
    intro p hp
    unfold Cli.encodeRow
    rw [hz p hp, ok_bind, hshares p hp, ok_bind]
    rfl
  unfold Cli.encodeShares
  rw [hkeys, ok_bind, mapM_ok hout, ok_bind, List.map_map, List.map_map]
  rfl

theorem sharesFile_ids (uuid : ℕ → String) (input : List (List ℤ)) (x : List ℤ × ℕ → Bytes) :
    (sharesFile uuid input x).map Datum.id = (List.range input.length).map uuid := by
  unfold sharesFile
  rw [List.map_map, List.range_eq_range', ← List.zipIdx_map_snd, List.map_map]
  rfl

/-- Shares of one file decode, those of the other too. -/
theorem encoded_clean {input : List (List ℤ)} {uuid : ℕ → String} (huuid : uuid.Injective)
    {i k : Ident L} {n : ℕ} {config : L.Config} (hE : V.EncodeLaw n config i k)
    {x y z : List ℤ × ℕ → Bytes}
    (h : ∀ p ∈ input.zipIdx, V.Encodes n config (x p) (y p) (z p)) :
    Clean V i k (sharesFile uuid input x) (sharesFile uuid input y) where
  ids := by rw [sharesFile_ids, sharesFile_ids]
  nodup := by
    rw [sharesFile_ids]
    exact List.nodup_range.map huuid
  base64A d hd := by
    obtain ⟨p, -, rfl⟩ := List.mem_map.1 hd
    exact decodes_encoded _ _
  base64B d hd := by
    obtain ⟨p, -, rfl⟩ := List.mem_map.1 hd
    exact decodes_encoded _ _
  decodesA d hd := by
    obtain ⟨p, hp, rfl⟩ := List.mem_map.1 hd
    rw [bytes_encoded]
    exact (hE.decodes _ _ _ (h p hp)).1
  decodesB d hd := by
    obtain ⟨p, hp, rfl⟩ := List.mem_map.1 hd
    rw [bytes_encoded]
    exact (hE.decodes _ _ _ (h p hp)).2

/-- Two vectors with one encoding have the same fields. -/
theorem encodes_field {n : ℕ} {config : L.Config} {i k : Ident L} (hE : V.EncodeLaw n config i k)
    {x y z z' : Bytes} (h : V.Encodes n config x y z) (h' : V.Encodes n config x y z') {j : ℕ}
    (hj : j < n) : field z j ≡ field z' j [MOD V.modulus] :=
  (ZMod.natCast_eq_natCast_iff _ _ _).1
    (((hE.halves _ _ _ h).sum j hj).symm.trans ((hE.halves _ _ _ h').sum j hj))

theorem sum_modEq {ι : Type} {m : ℕ} {ps : List ι} {f g : ι → ℕ}
    (h : ∀ p ∈ ps, f p ≡ g p [MOD m]) : (ps.map f).sum ≡ (ps.map g).sum [MOD m] := by
  induction ps with
  | nil => rfl
  | cons p ps ih =>
    rw [List.map_cons, List.map_cons, List.sum_cons, List.sum_cons]
    exact (h p List.mem_cons_self).add (ih fun q hq => h q (.tail p hq))

/-- The sum of column `j` of the input. -/
def column (input : List (List ℤ)) (j : ℕ) : ℕ := (input.map fun xs => (xs.getD j 0).toNat).sum

theorem column_le {n : ℕ} {input : List (List ℤ)} (h : ∀ xs ∈ input, ZeroOne n xs) (j : ℕ) :
    column input j ≤ input.length := by
  have hbit : ∀ k ∈ input.map fun xs => (xs.getD j 0).toNat, k ≤ 1 := by
    intro k hk
    obtain ⟨xs, hxs, rfl⟩ := List.mem_map.1 hk
    by_cases hj : j < xs.length
    · rw [List.getD_eq_getElem _ _ hj]
      have hbit := (h xs hxs).bit _ (List.getElem_mem hj)
      omega
    · rw [List.getD_eq_default _ _ (by omega)]
      exact Nat.zero_le 1
  unfold column
  simpa using List.sum_le_card_nsmul _ 1 hbit

theorem column_eq (input : List (List ℤ)) (j : ℕ) :
    column input j = (input.zipIdx.map fun p => (p.1.getD j 0).toNat).sum := by
  unfold column
  conv_lhs => rw [← List.zipIdx_map_fst 0 input, List.map_map]
  rfl

/-- A row of the two files is the encoding of its input. -/
theorem encoded_row (uuid : ℕ → String) {input : List (List ℤ)} {n : ℕ} {config : L.Config}
    {x y z : List ℤ × ℕ → Bytes} {p : List ℤ × ℕ} (hp : p ∈ input.zipIdx)
    (h : V.Encodes n config (x p) (y p) (z p)) :
    Encoded V n config (sharesFile uuid input x) (sharesFile uuid input y) (uuid p.2) (z p) :=
  ⟨x p, y p, ⟨_, List.mem_map_of_mem hp, rfl, decodes_encoded _ _, bytes_encoded _ _⟩,
    ⟨_, List.mem_map_of_mem hp, rfl, decodes_encoded _ _, bytes_encoded _ _⟩, h⟩

/-- The files of encode-shares go through the commands of both servers without
an error, and both publish the sums of the columns of the client data. -/
theorem cli_counts (hC : View.ConfigLaw L) (hS : V.SetDataLaw) (hP : V.PacketLaw)
    (hR : V.StreamLaw) (hL : V.LiveLaw) (hA : V.AggregateLaw) (hT : V.TotalLaw) (hY : V.SymmLaw)
    (oA : Opened L a) (oB : Opened L b) (ha : a.serverId = .A) (hb : b.serverId = .B)
    (hn : b.nData = a.nData) (hsecret : b.sharedSecret = a.sharedSecret)
    (hE : V.EncodeLaw a.nData oA.config oA.ident oB.ident)
    (hV : V.SnipLaw a.nData oA.config oA.ident oB.ident) {e : EncodeArgs}
    (hbatch : e.batchId = a.batchId) (hdata : e.nData = a.nData)
    (hinternal : e.publicKeyHexInternal = a.publicKeyHexInternal)
    (hexternal : e.publicKeyHexExternal = a.publicKeyHexExternal)
    (hclient : ∀ x coins, ClientVector e.nData x →
      ∃ s, L.prioClientEncode oA.config x coins = .ok s)
    (coins : ℕ → L.Coins) {uuid : ℕ → String} (huuid : uuid.Injective) {input : List (List ℤ)}
    (hinput : ∀ xs ∈ input, ZeroOne e.nData xs) (hlt : input.length < V.modulus) :
    ∃ outA outB f, Cli.encodeShares L e coins uuid input = .ok (outA, outB) ∧
      pipeline L a b outA outB = .ok f ∧
      f.aggregateA.added = (List.range input.length).map uuid ∧
      f.aggregateB.added.Perm f.aggregateA.added ∧
      f.aggregateA.share.error = 0 ∧ f.aggregateB.share.error = 0 ∧
      f.publishA = (List.range a.nData).map (column input) ∧ f.publishB = f.publishA := by
  have hkeys := encodeConfig_opened oA hbatch hdata hinternal hexternal
  obtain ⟨x, y, z, hfiles, hrows⟩ := encodeShares_files (V := V) hkeys hclient coins uuid hinput
  rw [hdata] at hrows
  have hclean := encoded_clean huuid hE fun p hp => (hrows p hp).2
  obtain ⟨f, hf, hsums⟩ := clean_sums hC hS hP hR hL hA hT hY oA oB ha hb hn hsecret hE hV hclean
  have hrow := fun p (hp : p ∈ input.zipIdx) => encoded_row uuid hp (hrows p hp).2
  have hlen : (sharesFile uuid input x).length = input.length := by
    unfold sharesFile
    rw [List.length_map, List.length_zipIdx]
  have hadded : f.aggregateA.added = (List.range input.length).map uuid := by
    rw [← sharesFile_ids uuid input x]
    refine hsums.order.eq_of_length_le ((hclean.nodup.subperm fun id hid => ?_).length_le)
    obtain ⟨d, hd, rfl⟩ := List.mem_map.1 hid
    obtain ⟨p, hp, rfl⟩ := List.mem_map.1 hd
    exact (hsums.added _).2 ⟨z p, hrow p hp⟩
  have herror : f.aggregateA.share.error = 0 := by
    have herr := hsums.errorA
    rw [hlen, hadded, List.length_map, List.length_range] at herr
    omega
  refine ⟨_, _, f, hfiles, hf, hadded, hsums.peer, herror, hsums.errorB.trans herror, ?_,
    hsums.same⟩
  obtain ⟨client, hclients, hpub⟩ := hsums.publish
  rw [hpub]
  refine List.map_congr_left fun j hj => ?_
  have hj : j < a.nData := List.mem_range.1 hj
  have hfield : ∀ p ∈ input.zipIdx,
      field (client (uuid p.2)) j ≡ (p.1.getD j 0).toNat [MOD V.modulus] := by
    intro p hp
    have hmem : uuid p.2 ∈ f.aggregateA.added := (hsums.added _).2 ⟨z p, hrow p hp⟩
    obtain ⟨x', y', hx', hy', hz'⟩ := hclients _ hmem
    obtain ⟨x₀, y₀, hx₀, hy₀, hz₀⟩ := hrow p hp
    cases holds_unique hclean.nodup hx' hx₀
    cases holds_unique hclean.symm.nodup hy' hy₀
    rw [← field_bytesOf (hdata ▸ hinput p.1 (List.fst_mem_of_mem_zipIdx hp)) (hrows p hp).1]
    exact encodes_field hE hz' hz₀ hj
  have hindices : f.aggregateA.added.map (fun id => field (client id) j) =
      input.zipIdx.map fun p => field (client (uuid p.2)) j := by
    rw [hadded, List.range_eq_range', ← List.zipIdx_map_snd, List.map_map, List.map_map]
    rfl
  calc (f.aggregateA.added.map fun id => field (client id) j).sum % V.modulus
      = column input j % V.modulus := by
        rw [hindices, column_eq]
        exact sum_modEq hfield
    _ = column input j := Nat.mod_eq_of_lt (lt_of_le_of_lt (column_le hinput j) hlt)

namespace Sample

def encodeArgs : EncodeArgs := ⟨[98], 2, [10], [20]⟩

theorem plain_encodes (x : Bytes) (coins : Plain.Pair) (h : ClientVector 2 x) :
    ∃ s, Plain.clientEncode x coins = .ok s := by
  obtain ⟨u, v, rfl, hu, hv⟩ := (Plain.clientVector_iff x).1 h
  exact ⟨_, (Plain.clientEncode_iff _ _ _ _).2 ⟨u, v, rfl, hu, hv, rfl, rfl⟩⟩

/-- Three clients with two fields. -/
def input : List (List ℤ) := [[1, 0], [1, 1], [0, 0]]

theorem zeroOne : ∀ xs ∈ input, ZeroOne encodeArgs.nData xs := by
  intro xs hxs
  simp only [input, List.mem_cons, List.not_mem_nil, or_false] at hxs
  rcases hxs with rfl | rfl | rfl <;> exact ⟨rfl, by decide⟩

theorem cli_counts_sample : ∃ outA outB f,
    Cli.encodeShares plain encodeArgs (fun _ => ⟨3, 4⟩) toString input = .ok (outA, outB) ∧
      pipeline plain L2.Sample.argsA L2.Sample.argsB outA outB = .ok f ∧
      f.publishA = [2, 1] ∧ f.publishB = f.publishA := by
  obtain ⟨outA, outB, f, hfiles, hf, -, -, -, -, hpub, hsame⟩ := cli_counts Plain.plain_config
    Plain.plain_setData Plain.plain_packet Plain.plain_stream Plain.plain_live
    Plain.plain_aggregate Plain.plain_total Plain.plain_symm
    L2.Sample.openedA L2.Sample.openedB rfl rfl rfl rfl
    (Plain.plain_encode _ _ _) (Plain.plain_snip _ _ _) (show encodeArgs.batchId = _ from rfl)
    rfl rfl rfl plain_encodes (fun _ => ⟨3, 4⟩) Python.toString_injective zeroOne
    (show input.length < 256 by decide)
  exact ⟨outA, outB, f, hfiles, hf, hpub, hsame⟩

end Sample

end PrioProcessor.L3.CliEndToEnd
