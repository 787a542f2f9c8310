import PrioProcessor.L2Commands.CliPoints

/-!
# A bad row shifts the evaluation points of the rows behind it

The command-line verify1 and verify2 keep one server for a whole file
(prio_processor/prio/commands.py:131-134,192-195), so the evaluation point of a
row depends on how many rows before it reached `PrioVerifier_set_data` and
took a value of the server's stream. A row that decodes at server A and is
refused at server B takes a value in A's verify1, but in no other pass: verify2
skips it because its id has no external packet. Every row behind it is then
verified at different points and refused by both servers.
tests/test_prio_commands_end_to_end.py:338-430 expects a batch to survive a bad
row, which it puts last; the Spark functions make a new server for every row
(prio_processor/spark/udf.py:77-96).

Counterexample: the row `x` before the row `u` in A's file, refused by B: `u` is
no longer added (`bad_row_first`).

Exact condition (`isolated_iff`): no extra row that takes a value of the stream
stands before a row that is accepted without the extra rows, in either file.
-/
namespace PrioProcessor.Bugs.SharedStream

open L1 L2 L2.Cli

variable {L : Libprio} {V : L1.View L} {a b : Args} {Pair : Bytes → Bytes → Prop}

/-- The share decodes, and the row of its id in the other server's file decodes
there. -/
def paired (V : L1.View L) (i k : Ident L) (peer : List Datum) (d : Datum) : Bool :=
  V.decodes i d.bytes && peer.any fun e => e.id = d.id && V.decodes k e.bytes

/-- The values verify1 takes before the row of an id. -/
def taken1 (V : L1.View L) (i : Ident L) (file : List Datum) (id : String) : ℕ :=
  (before file id).countP (takes1 V i)

/-- The values verify2 takes before the row of an id. -/
def taken2 (V : L1.View L) (i k : Ident L) (file peer : List Datum) (id : String) : ℕ :=
  (before file id).countP (paired V i k peer)

/-- The four passes evaluate the row of the id at one point. -/
structure Aligned (V : L1.View L) (i k : Ident L) (fileA fileB : List Datum) (id : String) :
    Prop where
  a2 : taken2 V i k fileA fileB id = taken1 V i fileA id
  b1 : taken1 V k fileB id = taken1 V i fileA id
  b2 : taken2 V k i fileB fileA id = taken1 V i fileA id

/-- The two shares of the id decode, and are a pair that verifies. -/
def Good (V : L1.View L) (i k : Ident L) (Pair : Bytes → Bytes → Prop) (fileA fileB : List Datum)
    (id : String) : Prop :=
  ∃ x y, Holds fileA id x ∧ Holds fileB id y ∧ V.decodes i x = true ∧ V.decodes k y = true ∧
    Pair x y

/-- A condition on the files alone for an id to be accepted. -/
def Accepted (V : L1.View L) (i k : Ident L) (Pair : Bytes → Bytes → Prop)
    (fileA fileB : List Datum) (id : String) : Prop :=
  Good V i k Pair fileA fileB id ∧ Aligned V i k fileA fileB id

/-! ## Which ids are accepted -/

theorem taken1_le (i : Ident L) (file : List Datum) (id : String) :
    taken1 V i file id ≤ file.length :=
  List.countP_le_length.trans (List.takeWhile_sublist _).length_le

theorem paired_takes1 {i k : Ident L} {peer : List Datum} {d : Datum} (hd : d.Decodes)
    (h : paired V i k peer d = true) : takes1 V i d = true := by
  have hsome : (b64decode d.payload).isSome = true := hd
  unfold paired at h
  rw [Bool.and_eq_true] at h
  unfold takes1
  rw [hsome, h.1]; rfl

theorem taken2_le {i k : Ident L} {file peer : List Datum} (hfile : ∀ d ∈ file, d.Decodes)
    (id : String) : taken2 V i k file peer id ≤ taken1 V i file id := by
  refine List.countP_mono_left fun d hd => ?_
  exact paired_takes1 (hfile d ((List.takeWhile_sublist _).subset hd))

/-- In verify2, the rows that take a value are the paired ones. -/
theorem takes2_eq {o : Opened L a} {o' : Opened L b} {raw raw' v1 v1' : List Datum}
    (h : File1 V o raw v1) (h' : File1 V o' raw' v1') (hL : V.LiveLaw)
    (hu : (raw.map Datum.id).Nodup) (hu' : (raw'.map Datum.id).Nodup) {d : Datum} (hd : d ∈ raw)
    (hdec : d.Decodes) : takes2 V o.ident v1 v1' d = paired V o.ident o'.ident raw' d := by
  have hn := hu.sublist h.ids
  have hn' := hu'.sublist h'.ids
  rw [Bool.eq_iff_iff]
  constructor
  · intro ht
    unfold takes2 at ht
    cases ha : rowArgs v1 v1' d with
    | error e => rw [ha] at ht; cases ht
    | ok t =>
      obtain ⟨x, y, z⟩ := t
      obtain ⟨-, -, hy, hz⟩ := rowArgs_ok ha
      obtain ⟨e, he, heid, hedec, -⟩ := h.made _ _ hy
      obtain ⟨e', he', heid', hedec', -⟩ := h'.made _ _ hz
      have heq : e = d := List.inj_on_of_nodup_map hu he hd heid
      subst heq
      unfold paired
      rw [hedec, Bool.true_and, List.any_eq_true]
      exact ⟨e', he', by simp [heid', hedec']⟩
  · intro hp
    unfold paired at hp
    rw [Bool.and_eq_true, List.any_eq_true] at hp
    obtain ⟨hown, e, he, hpeer⟩ := hp
    rw [Bool.and_eq_true, decide_eq_true_eq] at hpeer
    obtain ⟨y, hy⟩ := h.live hL d hd hown
    obtain ⟨z, hz⟩ := h'.live hL e he hpeer.2
    rw [hpeer.1] at hz
    unfold takes2
    rw [rowArgs_of_holds hn hn' hdec hy hz]
    simp only [hown, Bool.true_or]

theorem point2_eq {o : Opened L a} {o' : Opened L b} {raw raw' v1 v1' : List Datum}
    (h : File1 V o raw v1) (h' : File1 V o' raw' v1') (hL : V.LiveLaw)
    (hu : (raw.map Datum.id).Nodup) (hu' : (raw'.map Datum.id).Nodup)
    (hraw : ∀ d ∈ raw, d.Decodes) (id : String) :
    point2 V o raw v1 v1' id = V.stream o.seed (taken2 V o.ident o'.ident raw raw' id) := by
  unfold point2 taken2
  congr 1
  refine List.countP_congr fun d hd => ?_
  have hm : d ∈ raw := (List.takeWhile_sublist _).subset hd
  rw [takes2_eq h h' hL hu hu' hm (hraw d hm)]

/-- The verify files of a run, with what their packets are. -/
structure Run (V : L1.View L) (oA : Opened L a) (oB : Opened L b)
    (fileA fileB v1A v1B v2A v2B : List Datum) : Prop where
  idsA : (fileA.map Datum.id).Nodup
  idsB : (fileB.map Datum.id).Nodup
  decA : ∀ d ∈ fileA, d.Decodes
  decB : ∀ d ∈ fileB, d.Decodes
  file1A : File1 V oA fileA v1A
  file1B : File1 V oB fileB v1B
  file2A : File2 V oA fileA v1A v1B v2A
  file2B : File2 V oB fileB v1B v1A v2B

/-- The stream does not repeat a value within `n` positions. -/
def Distinct (V : L1.View L) (seed : Bytes) (n : ℕ) : Prop :=
  ∀ j k, j ≤ n → k ≤ n → V.stream seed j = V.stream seed k → j = k

section Accept

variable {oA : Opened L a} {oB : Opened L b} {fileA fileB v1A v1B v2A v2B : List Datum}

/-- Equal points are equal positions. -/
theorem aligned_iff (hL : V.LiveLaw) (hseed : oB.seed = oA.seed)
    (hd : Distinct V oA.seed (max fileA.length fileB.length))
    (t : Run V oA oB fileA fileB v1A v1B v2A v2B) (id : String) :
    (point1 V oA fileA id = point2 V oA fileA v1A v1B id ∧
      point1 V oA fileA id = point1 V oB fileB id ∧
      point1 V oA fileA id = point2 V oB fileB v1B v1A id) ↔
    Aligned V oA.ident oB.ident fileA fileB id := by
  have h1A := taken1_le (V := V) oA.ident fileA id
  have h1B := taken1_le (V := V) oB.ident fileB id
  have h2A : taken2 V oA.ident oB.ident fileA fileB id ≤ taken1 V oA.ident fileA id :=
    taken2_le t.decA id
  have h2B : taken2 V oB.ident oA.ident fileB fileA id ≤ taken1 V oB.ident fileB id :=
    taken2_le t.decB id
  rw [point2_eq t.file1A t.file1B hL t.idsA t.idsB t.decA,
    point2_eq t.file1B t.file1A hL t.idsB t.idsA t.decB]
  unfold point1
  rw [hseed]
  constructor
  · intro h
    obtain ⟨ha, hb, hc⟩ := h
    have hmax : ∀ j, j ≤ fileA.length ∨ j ≤ fileB.length → j ≤ max fileA.length fileB.length :=
      fun j hj => by omega
    exact ⟨(hd _ _ (hmax _ (.inl h1A)) (hmax _ (.inl (h2A.trans h1A))) ha).symm,
      (hd _ _ (hmax _ (.inl h1A)) (hmax _ (.inr h1B)) hb).symm,
      (hd _ _ (hmax _ (.inl h1A)) (hmax _ (.inr (h2B.trans h1B))) hc).symm⟩
  · intro h
    have hb : (before fileB id).countP (takes1 V oB.ident) =
      (before fileA id).countP (takes1 V oA.ident) := h.b1
    have ha : taken2 V oA.ident oB.ident fileA fileB id =
      (before fileA id).countP (takes1 V oA.ident) := h.a2
    have hc : taken2 V oB.ident oA.ident fileB fileA id =
      (before fileA id).countP (takes1 V oA.ident) := h.b2
    rw [ha, hb, hc]
    exact ⟨rfl, rfl, rfl⟩

/-- Two verify2 packets of an id were made of one share at each server. -/
theorem packets (t : Run V oA oB fileA fileB v1A v1B v2A v2B) {id : String} {qa qb : Bytes}
    (hqa : Holds v2A id qa) (hqb : Holds v2B id qb) :
    ∃ x y pa pb, Holds fileA id x ∧ Holds fileB id y ∧ V.decodes oA.ident x = true ∧
      V.decodes oB.ident y = true ∧ V.Made1 ⟨oA.ident, x, point1 V oA fileA id⟩ pa ∧
      V.Made1 ⟨oB.ident, y, point1 V oB fileB id⟩ pb ∧
      V.Made2 ⟨oA.ident, x, point2 V oA fileA v1A v1B id⟩ pa pb qa ∧
      V.Made2 ⟨oB.ident, y, point2 V oB fileB v1B v1A id⟩ pb pa qb := by
  obtain ⟨d, hd, hid, hdec, pa, pb, hpa, hpb, hma⟩ := t.file2A.made id qa hqa
  obtain ⟨e, he, hie, hedec, pb', pa', hpb', hpa', hmb⟩ := t.file2B.made id qb hqb
  have hpbe := holds_unique (t.idsB.sublist t.file1B.ids) hpb' hpb
  have hpae := holds_unique (t.idsA.sublist t.file1A.ids) hpa' hpa
  subst hpbe hpae
  obtain ⟨d', hd', hid', -, hma'⟩ := t.file1A.made id _ hpa
  obtain ⟨e', he', hie', -, hmb'⟩ := t.file1B.made id _ hpb
  have hde := List.inj_on_of_nodup_map t.idsA hd' hd (hid'.trans hid.symm)
  have hee := List.inj_on_of_nodup_map t.idsB he' he (hie'.trans hie.symm)
  subst hde hee
  exact ⟨d'.bytes, e'.bytes, pa', pb', ⟨d', hd, hid, t.decA _ hd, rfl⟩,
    ⟨e', he, hie, t.decB _ he, rfl⟩, hdec, hedec, hma', hmb', hma, hmb⟩

/-- An id whose two shares decode has both verify2 packets. -/
theorem reaches_verify2 (hL : V.LiveLaw) (t : Run V oA oB fileA fileB v1A v1B v2A v2B)
    {id : String} {x y : Bytes} (hx : Holds fileA id x) (hy : Holds fileB id y)
    (hdx : V.decodes oA.ident x = true) (hdy : V.decodes oB.ident y = true) :
    ∃ qa qb, Holds v2A id qa ∧ Holds v2B id qb := by
  obtain ⟨d, hd, rfl, -, rfl⟩ := hx
  obtain ⟨e, he, hid, -, rfl⟩ := hy
  obtain ⟨pa, hpa⟩ := t.file1A.live hL d hd hdx
  obtain ⟨pb, hpb⟩ := t.file1B.live hL e he hdy
  rw [hid] at hpb
  obtain ⟨_, -, -, -, hma⟩ := t.file1A.made _ _ hpa
  obtain ⟨_, -, -, -, hmb⟩ := t.file1B.made _ _ hpb
  have hra := hL.made1 _ _ hma
  have hrb := hL.made1 _ _ hmb
  obtain ⟨qa, hqa⟩ := t.file2A.live hL d hd hdx pa pb hpa hpb hra hrb
  rw [← hid] at hpa hpb
  obtain ⟨qb, hqb⟩ := t.file2B.live hL e he hdy pb pa hpb hpa hrb hra
  rw [hid] at hqb
  exact ⟨qa, qb, hqa, hqb⟩

/-- The verify2 packets of an id verify exactly when the id is accepted. -/
theorem verified_iff (hL : V.LiveLaw) (hseed : oB.seed = oA.seed)
    (hPair : V.PointLaw oA.ident oB.ident Pair)
    (hd : Distinct V oA.seed (max fileA.length fileB.length))
    (t : Run V oA oB fileA fileB v1A v1B v2A v2B) {id : String} :
    (∃ qa qb, Holds v2A id qa ∧ Holds v2B id qb ∧ V.valid qa qb = true) ↔
      Accepted V oA.ident oB.ident Pair fileA fileB id := by
  have hal := aligned_iff hL hseed hd t id
  constructor
  · intro h
    obtain ⟨qa, qb, hqa, hqb, hval⟩ := h
    obtain ⟨x, y, pa, pb, hx, hy, hdx, hdy, hma, hmb, hma2, hmb2⟩ := packets t hqa hqb
    obtain ⟨hpoints, hpair⟩ := (hPair _ _ _ _ _ _ _ _ _ _ hma hmb hma2 hmb2).1 hval
    exact ⟨⟨x, y, hx, hy, hdx, hdy, hpair⟩, hal.1 hpoints⟩
  · intro h
    obtain ⟨⟨x, y, hx, hy, hdx, hdy, hpair⟩, hpoints⟩ := h
    obtain ⟨qa, qb, hqa, hqb⟩ := reaches_verify2 hL t hx hy hdx hdy
    obtain ⟨x', y', pa, pb, hx', hy', -, -, hma, hmb, hma2, hmb2⟩ := packets t hqa hqb
    cases holds_unique t.idsA hx' hx
    cases holds_unique t.idsB hy' hy
    exact ⟨qa, qb, hqa, hqb,
      (hPair _ _ _ _ _ _ _ _ _ _ hma hmb hma2 hmb2).2 ⟨hal.2 hpoints, hpair⟩⟩

end Accept

/-! ## What a batch publishes -/

/-- The opened sum of the shares of the ids each server added. -/
def publishedOf (V : L1.View L) (n : ℕ) (i k : Ident L) (fileA fileB : List Datum)
    (idsA idsB : List String) : List ℕ :=
  (List.range n).map fun j => ((idsA.map fun id => V.data i (shareOf fileA id)).sum j +
    (idsB.map fun id => V.data k (shareOf fileB id)).sum j).val

/-- Both servers add the accepted ids and publish the opened sum of their
shares. -/
theorem pipeline_accepts (hC : View.ConfigLaw L) (hS : V.SetDataLaw) (hP : V.PacketLaw)
    (hR : V.StreamLaw) (hL : V.LiveLaw) (hA : V.AggregateLaw) (hT : V.TotalLaw) (hY : V.SymmLaw)
    (oA : Opened L a) (oB : Opened L b) (ha : a.serverId = .A) (hb : b.serverId = .B)
    (hn : b.nData = a.nData) (hseed : oB.seed = oA.seed)
    (hPair : V.PointLaw oA.ident oB.ident Pair) {fileA fileB : List Datum}
    (hd : Distinct V oA.seed (max fileA.length fileB.length))
    (huA : (fileA.map Datum.id).Nodup) (huB : (fileB.map Datum.id).Nodup)
    (hdA : ∀ d ∈ fileA, d.Decodes) (hdB : ∀ d ∈ fileB, d.Decodes) :
    ∃ f, pipeline L a b fileA fileB = .ok f ∧
      (∀ id, id ∈ f.aggregateA.added ↔ Accepted V oA.ident oB.ident Pair fileA fileB id) ∧
      (∀ id, id ∈ f.aggregateB.added ↔ Accepted V oA.ident oB.ident Pair fileA fileB id) ∧
      f.aggregateA.added.Nodup ∧ f.aggregateB.added.Nodup ∧
      f.publishA = publishedOf V a.nData oA.ident oB.ident fileA fileB f.aggregateA.added
        f.aggregateB.added ∧
      f.publishB = f.publishA := by
  obtain ⟨v1A, hv1A, s1A⟩ := verify1_points oA hS hP hR huA hdA
  obtain ⟨v1B, hv1B, s1B⟩ := verify1_points oB hS hP hR huB hdB
  have hn1A := huA.sublist s1A.ids
  have hn1B := huB.sublist s1B.ids
  obtain ⟨v2A, hv2A, s2A⟩ := verify2_points oA hS hP hR huA hn1A hn1B hdA s1A.decodes s1B.decodes
  obtain ⟨v2B, hv2B, s2B⟩ := verify2_points oB hS hP hR huB hn1B hn1A hdB s1B.decodes s1A.decodes
  have hn2A := huA.sublist s2A.ids
  have hn2B := huB.sublist s2B.ids
  obtain ⟨wA, hwA, haggA⟩ := aggregate_eq oA hS hA hT hdA s2A.decodes s2B.decodes
  obtain ⟨wB, hwB, haggB⟩ := aggregate_eq oB hS hA hT hdB s2B.decodes s2A.decodes
  rw [ha] at hwA
  rw [hb] at hwB
  obtain ⟨hpubA, hpubB⟩ := publish_eq hC hT oA oB ha hb hn hwA hwB
    (fileA.countP fun d => !accepts V oA.ident v2A v2B d) fileA.length
    (fileB.countP fun d => !accepts V oB.ident v2B v2A d) fileB.length
  have t : Run V oA oB fileA fileB v1A v1B v2A v2B :=
    ⟨huA, huB, hdA, hdB, s1A, s1B, s2A, s2B⟩
  refine ⟨_, pipeline_ok hv1A hv1B hv2A hv2B haggA haggB hpubA hpubB, fun id => ?_, fun id => ?_,
    huA.sublist (List.filter_sublist.map _), huB.sublist (List.filter_sublist.map _), ?_, rfl⟩
  · rw [← verified_iff hL hseed hPair hd t, mem_added_iff hn2A hn2B]
    constructor
    · intro h
      obtain ⟨-, qa, qb, -, hqa, hqb, -, -, -, hval⟩ := h
      exact ⟨qa, qb, hqa, hqb, hval⟩
    · intro h
      obtain ⟨qa, qb, hqa, hqb, hval⟩ := h
      obtain ⟨x, y, pa, pb, hx, hy, hdx, hdy, -, -, hma, hmb⟩ := packets t hqa hqb
      exact ⟨x, qa, qb, hx, hqa, hqb, hdx, hL.made2 _ _ _ _ hma, hL.made2 _ _ _ _ hmb, hval⟩
  · rw [← verified_iff hL hseed hPair hd t, mem_added_iff hn2B hn2A]
    constructor
    · intro h
      obtain ⟨-, qb, qa, -, hqb, hqa, -, -, -, hval⟩ := h
      exact ⟨qa, qb, hqa, hqb, (hY qa qb).trans hval⟩
    · intro h
      obtain ⟨qa, qb, hqa, hqb, hval⟩ := h
      obtain ⟨x, y, pa, pb, hx, hy, hdx, hdy, -, -, hma, hmb⟩ := packets t hqa hqb
      exact ⟨y, qb, qa, hy, hqb, hqa, hdy, hL.made2 _ _ _ _ hmb, hL.made2 _ _ _ _ hma,
        (hY qb qa).trans hval⟩
  · refine List.map_congr_left fun j _ => ?_
    rw [shareSum_eq huA, shareSum_eq huB]

/-! ## Extra rows -/

/-- The file without its extra rows. -/
def base (X : String → Bool) (file : List Datum) : List Datum := file.filter fun d => !X d.id

/-- Every extra row is refused at its own server, or every row of its id is
refused at the other one. -/
def Refused (V : L1.View L) (i k : Ident L) (X : String → Bool) (file peer : List Datum) : Prop :=
  ∀ d ∈ file, X d.id = true → V.decodes i d.bytes = false ∨
    ∀ e ∈ peer, e.id = d.id → V.decodes k e.bytes = false

/-- No extra row before the row of the id takes a value of the stream. -/
def Clear (V : L1.View L) (i : Ident L) (X : String → Bool) (file : List Datum) (id : String) :
    Prop :=
  ∀ d ∈ before file id, X d.id = true → takes1 V i d = false

theorem before_base {X : String → Bool} {file : List Datum} {id : String} (hX : X id = false) :
    before (base X file) id = (before file id).filter fun d => !X d.id := by
  unfold before base
  induction file with
  | nil => rfl
  | cons d file ih =>
    by_cases hid : d.id = id
    · rw [List.filter_cons_of_pos (by rw [hid, hX]; rfl),
        List.takeWhile_cons_of_neg (by simp [hid]), List.takeWhile_cons_of_neg (by simp [hid])]
      rfl
    · rw [List.takeWhile_cons_of_pos (by simpa using hid)]
      by_cases hd : X d.id = true
      · rw [List.filter_cons_of_neg (by simp [hd]), List.filter_cons_of_neg (by simp [hd]), ih]
      · rw [List.filter_cons_of_pos (by simpa using hd),
          List.filter_cons_of_pos (by simpa using hd),
          List.takeWhile_cons_of_pos (by simpa using hid), ih]

theorem mem_base {X : String → Bool} {file : List Datum} {d : Datum} :
    d ∈ base X file ↔ d ∈ file ∧ X d.id = false := by
  unfold base
  rw [List.mem_filter, Bool.not_eq_true']

theorem countP_base (X : String → Bool) (p : Datum → Bool) (file : List Datum) :
    file.countP p = (file.filter fun d => !X d.id).countP p +
      file.countP fun d => X d.id && p d := by
  induction file with
  | nil => rfl
  | cons d file ih =>
    cases hX : X d.id with
    | true =>
      rw [List.filter_cons_of_neg (by simp [hX])]
      simp only [List.countP_cons, hX, Bool.true_and]
      omega
    | false =>
      rw [List.filter_cons_of_pos (by simp [hX])]
      simp only [List.countP_cons, hX, Bool.false_and]
      rw [ih]; simp; omega

section Extra

variable {i k : Ident L} {X Y : String → Bool} {file peer : List Datum} {id : String}

theorem taken1_base (i : Ident L) (file : List Datum) (hX : X id = false) : taken1 V i file id =
    taken1 V i (base X file) id +
      (before file id).countP fun d => X d.id && takes1 V i d := by
  unfold taken1
  rw [before_base hX, ← countP_base]

theorem clear_iff : Clear V i X file id ↔
    ((before file id).countP fun d => X d.id && takes1 V i d) = 0 := by
  unfold Clear
  rw [List.countP_eq_zero]
  refine forall₂_congr fun d _ => ?_
  cases X d.id <;> cases takes1 V i d <;> decide

/-- The extra rows change no pair. -/
theorem paired_base (hX : Refused V i k X file peer) (hY : Refused V k i Y peer file) {d : Datum}
    (hd : d ∈ file) : paired V i k peer d = (!X d.id && paired V i k (base Y peer) d) := by
  rw [Bool.eq_iff_iff]
  unfold paired
  simp only [Bool.and_eq_true, List.any_eq_true, decide_eq_true_eq, Bool.not_eq_true']
  constructor
  · intro h
    obtain ⟨hdec, e, he, hid, hedec⟩ := h
    have hXd : X d.id = false := by
      by_contra hne
      rcases hX d hd (by simpa using hne) with h | h
      · rw [hdec] at h; cases h
      · rw [h e he hid] at hedec; cases hedec
    have hYe : Y e.id = false := by
      by_contra hne
      rcases hY e he (by simpa using hne) with h | h
      · rw [hedec] at h; cases h
      · rw [h d hd hid.symm] at hdec; cases hdec
    exact ⟨hXd, hdec, e, mem_base.2 ⟨he, hYe⟩, hid, hedec⟩
  · intro h
    obtain ⟨-, hdec, e, he, hid, hedec⟩ := h
    exact ⟨hdec, e, (mem_base.1 he).1, hid, hedec⟩

/-- The extra rows take no value in verify2. -/
theorem taken2_base (hX : Refused V i k X file peer) (hY : Refused V k i Y peer file)
    (hid : X id = false) :
    taken2 V i k file peer id = taken2 V i k (base X file) (base Y peer) id := by
  unfold taken2
  rw [before_base hid, List.countP_filter]
  refine List.countP_congr fun d hd => ?_
  rw [paired_base hX hY ((List.takeWhile_sublist _).subset hd), Bool.and_comm]

theorem holds_base {x : Bytes} (hX : X id = false) :
    Holds (base X file) id x ↔ Holds file id x := by
  constructor
  · intro h
    obtain ⟨d, hd, hid, hp⟩ := h
    exact ⟨d, (mem_base.1 hd).1, hid, hp⟩
  · intro h
    obtain ⟨d, hd, hid, hp⟩ := h
    exact ⟨d, mem_base.2 ⟨hd, by rw [hid, hX]⟩, hid, hp⟩

theorem not_extra {x : Bytes} (h : Holds (base X file) id x) : X id = false := by
  obtain ⟨d, hd, rfl, -⟩ := h
  exact (mem_base.1 hd).2

end Extra

section Isolated

variable {i k : Ident L} {X Y : String → Bool} {fileA fileB : List Datum}

theorem good_not_extra (hX : Refused V i k X fileA fileB) (hY : Refused V k i Y fileB fileA)
    {id : String} (h : Good V i k Pair fileA fileB id) : X id = false ∧ Y id = false := by
  obtain ⟨x, y, ⟨d, hd, rfl, -, rfl⟩, ⟨e, he, hid, -, rfl⟩, hdec, hedec, -⟩ := h
  constructor
  · by_contra hne
    rcases hX d hd (by simpa using hne) with h | h
    · rw [hdec] at h; cases h
    · rw [h e he hid] at hedec; cases hedec
  · by_contra hne
    rcases hY e he (by rw [hid]; simpa using hne) with h | h
    · rw [hedec] at h; cases h
    · rw [h d hd hid.symm] at hdec; cases hdec

theorem good_base {id : String} (hX : X id = false) (hY : Y id = false) :
    Good V i k Pair (base X fileA) (base Y fileB) id ↔ Good V i k Pair fileA fileB id := by
  unfold Good
  simp only [holds_base hX, holds_base hY]

/-- The positions of an id agree in the four passes exactly when they do
without the extra rows and no extra row before it takes a value. -/
theorem aligned_base (hX : Refused V i k X fileA fileB) (hY : Refused V k i Y fileB fileA)
    (hdA : ∀ d ∈ fileA, d.Decodes) (hdB : ∀ d ∈ fileB, d.Decodes) {id : String}
    (hXid : X id = false) (hYid : Y id = false) : Aligned V i k fileA fileB id ↔
      Aligned V i k (base X fileA) (base Y fileB) id ∧
        Clear V i X fileA id ∧ Clear V k Y fileB id := by
  have h1A := taken1_base (V := V) i fileA hXid
  have h1B := taken1_base (V := V) k fileB hYid
  have h2A := taken2_base hX hY hXid
  have h2B := taken2_base hY hX hYid
  have hleA : taken2 V i k (base X fileA) (base Y fileB) id ≤ taken1 V i (base X fileA) id :=
    taken2_le (fun d hd => hdA d (mem_base.1 hd).1) id
  have hleB : taken2 V k i (base Y fileB) (base X fileA) id ≤ taken1 V k (base Y fileB) id :=
    taken2_le (fun d hd => hdB d (mem_base.1 hd).1) id
  rw [clear_iff, clear_iff]
  constructor
  · intro h
    have ha2 := h.a2
    have hb1 := h.b1
    have hb2 := h.b2
    exact ⟨⟨by omega, by omega, by omega⟩, by omega, by omega⟩
  · intro h
    obtain ⟨h, hA, hB⟩ := h
    have ha2 := h.a2
    have hb1 := h.b1
    have hb2 := h.b2
    exact ⟨by omega, by omega, by omega⟩

/-- What the extra rows change. -/
theorem accepted_base (hX : Refused V i k X fileA fileB) (hY : Refused V k i Y fileB fileA)
    (hdA : ∀ d ∈ fileA, d.Decodes) (hdB : ∀ d ∈ fileB, d.Decodes) {id : String} :
    Accepted V i k Pair fileA fileB id ↔
      Accepted V i k Pair (base X fileA) (base Y fileB) id ∧
        Clear V i X fileA id ∧ Clear V k Y fileB id := by
  unfold Accepted
  constructor
  · intro h
    obtain ⟨hgood, hal⟩ := h
    obtain ⟨hXid, hYid⟩ := good_not_extra hX hY hgood
    obtain ⟨hal, hclear⟩ := (aligned_base hX hY hdA hdB hXid hYid).1 hal
    exact ⟨⟨(good_base hXid hYid).2 hgood, hal⟩, hclear⟩
  · intro h
    obtain ⟨⟨hgood, hal⟩, hclear⟩ := h
    have hids : X id = false ∧ Y id = false := by
      obtain ⟨x, y, hx, hy, -⟩ := hgood
      exact ⟨not_extra hx, not_extra hy⟩
    obtain ⟨hXid, hYid⟩ := hids
    exact ⟨(good_base hXid hYid).1 hgood, (aligned_base hX hY hdA hdB hXid hYid).2 ⟨hal, hclear⟩⟩

theorem shareOf_base (hu : (fileA.map Datum.id).Nodup) {id : String} {x : Bytes}
    (hx : Holds (base X fileA) id x) : shareOf (base X fileA) id = shareOf fileA id := by
  have hu' : ((base X fileA).map Datum.id).Nodup := hu.sublist (List.filter_sublist.map _)
  obtain ⟨d, hd, rfl, -, -⟩ := hx
  rw [shareOf_eq hu' hd, shareOf_eq hu (mem_base.1 hd).1]

theorem publishedOf_congr {n : ℕ} {fileA' fileB' : List Datum} {idsA idsA' idsB idsB' : List String}
    (hA : idsA.Perm idsA') (hB : idsB.Perm idsB')
    (hsA : ∀ id ∈ idsA, shareOf fileA id = shareOf fileA' id)
    (hsB : ∀ id ∈ idsB, shareOf fileB id = shareOf fileB' id) :
    publishedOf V n i k fileA fileB idsA idsB = publishedOf V n i k fileA' fileB' idsA' idsB' := by
  have hmA : (idsA.map fun id => V.data i (shareOf fileA id)) =
      idsA.map fun id => V.data i (shareOf fileA' id) :=
    List.map_congr_left fun id hid => by rw [hsA id hid]
  have hmB : (idsB.map fun id => V.data k (shareOf fileB id)) =
      idsB.map fun id => V.data k (shareOf fileB' id) :=
    List.map_congr_left fun id hid => by rw [hsB id hid]
  unfold publishedOf
  rw [hmA, hmB, (hA.map _).sum_eq, (hB.map _).sum_eq]

end Isolated

/-- What the extra rows must not change between the files `f` without them and
the files `g` with them. -/
structure Isolated (f g : Files) : Prop where
  addedA : ∀ id ∈ f.aggregateA.added, id ∈ g.aggregateA.added
  addedB : ∀ id ∈ f.aggregateB.added, id ∈ g.aggregateB.added
  publishA : g.publishA = f.publishA
  publishB : g.publishB = f.publishB

/-- **Exact condition**: refused rows change nothing when, in both files, none
of them that takes a value of the stream stands before a row that is accepted
without them. -/
theorem isolated_iff (hC : View.ConfigLaw L) (hS : V.SetDataLaw) (hP : V.PacketLaw)
    (hR : V.StreamLaw) (hL : V.LiveLaw) (hA : V.AggregateLaw) (hT : V.TotalLaw) (hY : V.SymmLaw)
    (oA : Opened L a) (oB : Opened L b) (ha : a.serverId = .A) (hb : b.serverId = .B)
    (hn : b.nData = a.nData) (hsecret : b.sharedSecret = a.sharedSecret)
    (hPair : V.PointLaw oA.ident oB.ident Pair) {fileA fileB : List Datum}
    (hd : Distinct V oA.seed (max fileA.length fileB.length))
    (huA : (fileA.map Datum.id).Nodup) (huB : (fileB.map Datum.id).Nodup)
    (hdA : ∀ d ∈ fileA, d.Decodes) (hdB : ∀ d ∈ fileB, d.Decodes) {XA XB : String → Bool}
    (hXA : Refused V oA.ident oB.ident XA fileA fileB)
    (hXB : Refused V oB.ident oA.ident XB fileB fileA) :
    ∃ f g, pipeline L a b (base XA fileA) (base XB fileB) = .ok f ∧
      pipeline L a b fileA fileB = .ok g ∧
      (Isolated f g ↔
        ∀ id, Accepted V oA.ident oB.ident Pair (base XA fileA) (base XB fileB) id →
          Clear V oA.ident XA fileA id ∧ Clear V oB.ident XB fileB id) := by
  have hseed : oB.seed = oA.seed := Option.some.inj (by rw [← oB.secret, ← oA.secret, hsecret])
  have hsubA : (base XA fileA).Sublist fileA := List.filter_sublist
  have hsubB : (base XB fileB).Sublist fileB := List.filter_sublist
  have hdist : Distinct V oA.seed (max (base XA fileA).length (base XB fileB).length) := by
    intro j k hj hk
    have hlenA := hsubA.length_le
    have hlenB := hsubB.length_le
    exact hd j k (by omega) (by omega)
  obtain ⟨f, hf, hfA, hfB, hfnA, hfnB, hfp, hfq⟩ := pipeline_accepts hC hS hP hR hL hA hT hY oA oB
    ha hb hn hseed hPair hdist (huA.sublist (hsubA.map _)) (huB.sublist (hsubB.map _))
    (fun d hd => hdA d (hsubA.subset hd)) (fun d hd => hdB d (hsubB.subset hd))
  obtain ⟨g, hg, hgA, hgB, hgnA, hgnB, hgp, hgq⟩ := pipeline_accepts hC hS hP hR hL hA hT hY oA oB
    ha hb hn hseed hPair hd huA huB hdA hdB
  refine ⟨f, g, hf, hg, ?_⟩
  constructor
  · intro h id hid
    have hmem := (hgA id).1 (h.addedA id ((hfA id).2 hid))
    exact ((accepted_base hXA hXB hdA hdB).1 hmem).2
  · intro h
    have hsame : ∀ id, Accepted V oA.ident oB.ident Pair (base XA fileA) (base XB fileB) id ↔
        Accepted V oA.ident oB.ident Pair fileA fileB id := fun id => by
      rw [accepted_base hXA hXB hdA hdB]
      exact ⟨fun hid => ⟨hid, h id hid⟩, fun hid => hid.1⟩
    have hpA : f.aggregateA.added.Perm g.aggregateA.added :=
      (List.perm_ext_iff_of_nodup hfnA hgnA).2 fun id => by rw [hfA, hgA, hsame]
    have hpB : f.aggregateB.added.Perm g.aggregateB.added :=
      (List.perm_ext_iff_of_nodup hfnB hgnB).2 fun id => by rw [hfB, hgB, hsame]
    have hpub : g.publishA = f.publishA := by
      rw [hfp, hgp]
      refine (publishedOf_congr hpA hpB (fun id hid => ?_) fun id hid => ?_).symm
      · obtain ⟨⟨x, y, hx, -⟩, -⟩ := (hfA id).1 hid
        exact shareOf_base huA hx
      · obtain ⟨⟨x, y, -, hy, -⟩, -⟩ := (hfB id).1 hid
        exact shareOf_base huB hy
    exact ⟨fun id hid => hpA.mem_iff.1 hid, fun id hid => hpB.mem_iff.1 hid, hpub, by
      rw [hgq, hfq, hpub]⟩

/-! ## The counterexample -/

section Sample

/-- The extra row, at each server. -/
def extra (id : String) : Bool := id = "x"

/-- Server A accepts both shares. -/
def firstA : List Datum := [⟨"x", b64encode [9, 9]⟩, ⟨"u", b64encode [3, 4]⟩]

/-- Server B refuses the share of `x`, which is too short. -/
def firstB : List Datum := [⟨"x", b64encode [1]⟩, ⟨"u", b64encode [254, 252]⟩]

def lastA : List Datum := [⟨"u", b64encode [3, 4]⟩, ⟨"x", b64encode [9, 9]⟩]

def lastB : List Datum := [⟨"u", b64encode [254, 252]⟩, ⟨"x", b64encode [1]⟩]

/-- **Counterexample**: with the refused row first, the row `u` is no longer
accepted. -/
theorem bad_row_first : ∃ f g,
    pipeline plain Sample.argsA Sample.argsB (base extra firstA) (base extra firstB) = .ok f ∧
      pipeline plain Sample.argsA Sample.argsB firstA firstB = .ok g ∧
      Refused plainView Sample.openedA.ident Sample.openedB.ident extra firstA firstB ∧
      Refused plainView Sample.openedB.ident Sample.openedA.ident extra firstB firstA ∧
      f.aggregateA.added = ["u"] ∧ g.aggregateA.added = [] ∧ ¬ Isolated f g := by
  have hbase : (pipeline plain Sample.argsA Sample.argsB (base extra firstA)
      (base extra firstB)).map (fun f => f.aggregateA.added) = .ok ["u"] := by rfl
  have hall : (pipeline plain Sample.argsA Sample.argsB firstA firstB).map
      (fun f => f.aggregateA.added) = .ok [] := by rfl
  cases hf : pipeline plain Sample.argsA Sample.argsB (base extra firstA) (base extra firstB) with
  | error e => rw [hf] at hbase; cases hbase
  | ok f =>
    cases hg : pipeline plain Sample.argsA Sample.argsB firstA firstB with
    | error e => rw [hg] at hall; cases hall
    | ok g =>
      rw [hf] at hbase
      rw [hg] at hall
      have hfu : f.aggregateA.added = ["u"] := Except.ok.inj hbase
      have hgu : g.aggregateA.added = [] := Except.ok.inj hall
      refine ⟨f, g, rfl, rfl, by unfold Refused; decide, by unfold Refused; decide, hfu, hgu,
        fun h => ?_⟩
      have hu := h.addedA "u" (by rw [hfu]; decide)
      rw [hgu] at hu; cases hu

/-- With the refused row last, nothing changes. -/
theorem isolated_last : ∃ f g,
    pipeline plain Sample.argsA Sample.argsB (base extra lastA) (base extra lastB) = .ok f ∧
      pipeline plain Sample.argsA Sample.argsB lastA lastB = .ok g ∧ Isolated f g := by
  have hdist : Distinct plainView Sample.openedA.seed (max lastA.length lastB.length) := by
    intro j k hj hk h
    have hj : j ≤ 2 := hj
    have hk : k ≤ 2 := hk
    have hinj : ∀ j ≤ 2, ∀ k ≤ 2, Plain.stream [7] j = Plain.stream [7] k → j = k := by decide
    exact hinj j hj k hk h
  have hXA : Refused plainView Sample.openedA.ident Sample.openedB.ident extra lastA lastB := by
    unfold Refused; decide
  have hXB : Refused plainView Sample.openedB.ident Sample.openedA.ident extra lastB lastA := by
    unfold Refused; decide
  obtain ⟨f, g, hf, hg, hiff⟩ := isolated_iff Plain.plain_config Plain.plain_setData
    Plain.plain_packet Plain.plain_stream Plain.plain_live Plain.plain_aggregate Plain.plain_total
    Plain.plain_symm Sample.openedA Sample.openedB rfl rfl rfl rfl
    (Plain.plain_snip Sample.openedA.config _ _)
    hdist (by decide) (by decide) (by decide) (by decide) hXA hXB
  refine ⟨f, g, hf, hg, hiff.2 fun id hid => ?_⟩
  -- the only row without the extra ones is `u`, which stands first
  obtain ⟨⟨x, y, ⟨d, hd, rfl, -⟩, -⟩, -⟩ := hid
  have hbase : base extra lastA = [⟨"u", b64encode [3, 4]⟩] := by decide
  rw [hbase] at hd
  rw [List.mem_singleton.1 hd]
  exact ⟨by unfold Clear; decide, by unfold Clear; decide⟩

end Sample

end PrioProcessor.Bugs.SharedStream
