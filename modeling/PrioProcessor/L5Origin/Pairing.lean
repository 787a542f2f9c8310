import PrioProcessor.L5Origin.Staging

/-!
# Both servers number the same shares

`transform` of prio_processor/origin/staging.py gives every `prioData` entry of
the kept pings an id within its batch, and its two payloads a row each. Where
every entry has a payload for "a" and one for "b", the ids of a batch are
1, …, N on both sides, the two rows of an id are the payloads of one entry, and
every partition holds the same ids for both servers (`transform_paired`),
whatever `dropDuplicates` keeps, whatever order `row_number` follows and
however the rows are cut into partitions.
-/
namespace PrioProcessor.L5.Pairing

open Table

/-- The value of a prio map at a server. -/
def payloadOf (server : String) (prio : Option PrioMap) : Option String :=
  (prio.bind fun m => lookup Prod.fst m.entries server).bind Prod.snd

/-- The map has the keys "a" and "b", and a payload under "a". -/
structure TwoShares (prio : Option PrioMap) : Prop where
  keys : ∃ m, prio = some m ∧ ∀ k, k ∈ m.entries.map Prod.fst ↔ k = "a" ∨ k = "b"
  payload : ∃ s, payloadOf "a" prio = some s ∧ s ≠ ""

/-- The batch and id of the rows of a server, in their order. -/
def joinKeys (server : String) (rows : List Share) : List (Option String × ℕ) :=
  (rows.filter fun x => x.serverId = server).map fun x => (x.batchId, x.id)

/-- The partitions of the output hold the two shares of each entry, numbered
alike. -/
structure Paired (entries : List Block) (parts : List (List Share)) : Prop where
  servers : ∀ x ∈ parts.flatten, x.serverId = "a" ∨ x.serverId = "b"
  ids : ∀ batch server, server = "a" ∨ server = "b" →
    (((joinKeys server parts.flatten).filter fun k => k.1 = batch).map Prod.snd).Perm
      (List.range' 1 (entries.countP fun b => b.encoding = batch))
  /-- The entries of a batch in the order of their ids. -/
  entry : ∀ batch, ∃ es : List Block, es.Perm (entries.filter fun b => b.encoding = batch) ∧
    ∀ x ∈ parts.flatten, x.batchId = batch →
      ∃ b, es[x.id - 1]? = some b ∧ x.payload = payloadOf x.serverId b.prio
  aligned : ∀ p ∈ parts, joinKeys "a" p = joinKeys "b" p

/-! ## dropDuplicates -/

theorem mem_dropDuplicates {seen : List (Option String)} {ps : List Ping} {p : Ping}
    (h : p ∈ dropDuplicates seen ps) : p ∈ ps ∧ p.id ∉ seen := by
  induction ps generalizing seen with
  | nil => cases h
  | cons q ps ih =>
    unfold dropDuplicates at h
    split at h
    · exact ⟨.tail q (ih h).1, (ih h).2⟩
    · rename_i hq
      rcases List.mem_cons.1 h with rfl | h
      · exact ⟨List.mem_cons_self, hq⟩
      · exact ⟨.tail q (ih h).1, fun hs => (ih h).2 (.tail q.id hs)⟩

theorem dropDuplicates_nodup (seen : List (Option String)) (ps : List Ping) :
    ((dropDuplicates seen ps).map Ping.id).Nodup := by
  induction ps generalizing seen with
  | nil => exact .nil
  | cons q ps ih =>
    unfold dropDuplicates
    split
    · exact ih seen
    · refine List.nodup_cons.2 ⟨fun h => ?_, ih _⟩
      obtain ⟨p, hp, hid⟩ := List.mem_map.1 h
      exact (mem_dropDuplicates hp).2 (hid ▸ List.mem_cons_self)

theorem exists_dropDuplicates {seen : List (Option String)} {ps : List Ping} {p : Ping}
    (h : p ∈ ps) (hs : p.id ∉ seen) : ∃ q ∈ dropDuplicates seen ps, q.id = p.id := by
  induction ps generalizing seen with
  | nil => cases h
  | cons q ps ih =>
    unfold dropDuplicates
    by_cases hq : q.id ∈ seen
    · rw [if_pos hq]
      rcases List.mem_cons.1 h with rfl | h
      · exact absurd hq hs
      · exact ih h hs
    · rw [if_neg hq]
      by_cases hid : p.id = q.id
      · exact ⟨q, List.mem_cons_self, hid.symm⟩
      · rcases List.mem_cons.1 h with rfl | h
        · exact absurd rfl hid
        · have hns : p.id ∉ q.id :: seen := by simp [hid, hs]
          obtain ⟨r, hr, hrid⟩ := ih h hns
          exact ⟨r, .tail q hr, hrid⟩

/-- One ping of each id is kept. -/
theorem kept_spec (C : Choices) (data : List Ping) : ((kept C data).map Ping.id).Nodup ∧
    (∀ p ∈ kept C data, p ∈ data) ∧ ∀ p ∈ data, ∃ q ∈ kept C data, q.id = p.id := by
  have hperm := C.distinct.rows_perm data
  refine ⟨dropDuplicates_nodup _ _, fun p hp => ?_, fun p hp => ?_⟩
  · exact hperm.mem_iff.1 (mem_dropDuplicates hp).1
  · exact exists_dropDuplicates (hperm.mem_iff.2 hp) List.not_mem_nil

/-! ## row_number -/

/-- The rows of a batch are numbered one after the other. -/
theorem number_filter (seen : List (Option String)) (bs : List Block) (k : Option String) :
    ((number seen bs).filter fun r => r.batchId = k) =
      ((bs.filter fun b => b.encoding = k).zipIdx (seen.count k + 1)).map fun p =>
        ⟨k, p.2, p.1.prio⟩ := by
  induction bs generalizing seen with
  | nil => rfl
  | cons b bs ih =>
    unfold number
    by_cases hb : b.encoding = k
    · subst hb
      rw [List.filter_cons_of_pos (by simp), List.filter_cons_of_pos (by simp), ih,
        List.count_cons_self]
      rfl
    · rw [List.filter_cons_of_neg (by simpa using hb), List.filter_cons_of_neg (by simpa using hb),
        ih, List.count_cons_of_ne hb]

theorem prio_of_mem_number {seen : List (Option String)} {bs : List Block} {r : Numbered}
    (h : r ∈ number seen bs) : ∃ b ∈ bs, b.encoding = r.batchId ∧ b.prio = r.prio := by
  have hmem : (⟨r.batchId, r.prio⟩ : Block) ∈ bs := by
    rw [← number_blocks seen bs]
    exact List.mem_map_of_mem h
  exact ⟨_, hmem, rfl, rfl⟩

/-- The maps of the numbered rows are those of the kept entries. -/
theorem exists_numbered {C : Choices} {data : List Ping} (p : Option PrioMap → Prop) :
    (∃ r ∈ numbered C data, p r.prio) ↔ ∃ b ∈ blocks (kept C data), p b.prio := by
  constructor
  · rintro ⟨r, hr, hp⟩
    obtain ⟨b, hb, -, hprio⟩ := prio_of_mem_number hr
    exact ⟨b, (C.order.rows_perm _).mem_iff.1 hb, hprio ▸ hp⟩
  · rintro ⟨b, hb, hp⟩
    rw [← (C.order.rows_perm _).mem_iff, ← number_blocks [] (C.order.rows _)] at hb
    obtain ⟨r, hr, rfl⟩ := List.mem_map.1 hb
    exact ⟨r, hr, hp⟩

/-! ## explode -/

theorem payloadOf_of_mem {m : PrioMap} {e : String × Option String} (he : e ∈ m.entries) :
    payloadOf e.1 (some m) = e.2 := by
  have hl := (lookup_eq_some_iff m.nodup).2 ⟨he, rfl⟩
  unfold payloadOf
  rw [Option.bind_some, hl]
  rfl

theorem payloadOf_eq_some {server s : String} {prio : Option PrioMap} :
    payloadOf server prio = some s ↔ (server, some s) ∈ prio.elim [] PrioMap.entries := by
  cases prio with
  | none => simp [payloadOf]
  | some m =>
    refine ⟨fun h => ?_, fun h => payloadOf_of_mem h⟩
    unfold payloadOf at h
    rw [Option.bind_some, Option.bind_eq_some_iff] at h
    obtain ⟨⟨k, v⟩, hl, hv⟩ := h
    obtain ⟨hmem, hk⟩ := (lookup_eq_some_iff m.nodup).1 hl
    cases hk
    cases hv
    exact hmem

theorem mem_explodePrio {r : Numbered} (h : TwoShares r.prio) {x : Share} (hx : x ∈ explodePrio r) :
    (x.serverId = "a" ∨ x.serverId = "b") ∧ x.batchId = r.batchId ∧ x.id = r.id ∧
      x.payload = payloadOf x.serverId r.prio := by
  obtain ⟨m, hm, hkeys⟩ := h.keys
  unfold explodePrio at hx
  rw [hm] at hx ⊢
  obtain ⟨e, he, rfl⟩ := List.mem_map.1 hx
  exact ⟨(hkeys _).1 (List.mem_map_of_mem he), rfl, rfl, (payloadOf_of_mem he).symm⟩

/-- An entry has one row at each server. -/
theorem joinKeys_explodePrio {r : Numbered} (h : TwoShares r.prio) {server : String}
    (hs : server = "a" ∨ server = "b") : joinKeys server (explodePrio r) = [(r.batchId, r.id)] := by
  obtain ⟨m, hm, hkeys⟩ := h.keys
  obtain ⟨e, he, rfl⟩ := List.mem_map.1 ((hkeys server).2 hs)
  have hone := filter_key_eq m.nodup he
  unfold joinKeys explodePrio
  rw [hm, List.filter_map]
  change ((m.entries.filter fun y => y.1 = e.1).map _).map _ = _
  rw [hone]
  rfl

theorem joinKeys_flatMap {rows : List Numbered} (h : ∀ r ∈ rows, TwoShares r.prio) {server : String}
    (hs : server = "a" ∨ server = "b") :
    joinKeys server (rows.flatMap explodePrio) = rows.map fun r => (r.batchId, r.id) := by
  induction rows with
  | nil => rfl
  | cons r rows ih =>
    have hr := joinKeys_explodePrio (h r List.mem_cons_self) hs
    have ih := ih fun r' hr' => h r' (.tail r hr')
    unfold joinKeys at hr ih ⊢
    rw [List.flatMap_cons, List.filter_append, List.map_append, hr, ih]
    rfl

/-! ## transform -/

section Rows

variable {C : Choices} {data : List Ping}

theorem numbered_twoShares (h : ∀ p ∈ data, ∀ b ∈ p.prioData.getD [], TwoShares b.prio) :
    ∀ r ∈ numbered C data, TwoShares r.prio := by
  intro r hr
  obtain ⟨b, hb, -, hprio⟩ := prio_of_mem_number hr
  obtain ⟨p, hp, hb⟩ := List.mem_flatMap.1 ((C.order.rows_perm _).mem_iff.1 hb)
  rw [← hprio]
  exact h p ((kept_spec C data).2.1 p hp) b hb

/-- The numbered rows of a batch are its entries, in some order. -/
theorem numbered_filter (C : Choices) (data : List Ping) (batch : Option String) :
    ∃ es : List Block,
    es.Perm ((blocks (kept C data)).filter fun b => b.encoding = batch) ∧
    ((numbered C data).filter fun r => r.batchId = batch) =
      (es.zipIdx 1).map fun p => ⟨batch, p.2, p.1.prio⟩ :=
  ⟨_, (C.order.rows_perm _).filter _, number_filter [] _ batch⟩

theorem partitions_paired (h : ∀ p ∈ data, ∀ b ∈ p.prioData.getD [], TwoShares b.prio) :
    Paired (blocks (kept C data)) (partitions C data) := by
  have hrows : ∀ r ∈ C.ranges.rows (numbered C data), TwoShares r.prio := fun r hr =>
    numbered_twoShares h r ((C.ranges.rows_perm _).mem_iff.1 hr)
  refine ⟨fun x hx => ?_, fun batch server hs => ?_, fun batch => ?_, fun p hp => ?_⟩
  · rw [partitions_flatten] at hx
    obtain ⟨r, hr, hx⟩ := List.mem_flatMap.1 hx
    exact (mem_explodePrio (hrows r hr) hx).1
  · obtain ⟨es, hes, hfilter⟩ := numbered_filter C data batch
    rw [partitions_flatten, joinKeys_flatMap hrows hs, List.filter_map, List.map_map]
    refine (((C.ranges.rows_perm _).filter _).map _).trans (.of_eq ?_)
    have hlen : (es.zipIdx 1).map Prod.snd = List.range' 1 es.length := List.zipIdx_map_snd 1 es
    rw [List.countP_eq_length_filter, ← hes.length_eq, ← hlen]
    change ((numbered C data).filter fun r => r.batchId = batch).map Numbered.id = _
    rw [hfilter, List.map_map]
    rfl
  · obtain ⟨es, hes, hfilter⟩ := numbered_filter C data batch
    refine ⟨es, hes, fun x hx hbatch => ?_⟩
    rw [partitions_flatten] at hx
    obtain ⟨r, hr, hx⟩ := List.mem_flatMap.1 hx
    obtain ⟨-, hxb, hxid, hpayload⟩ := mem_explodePrio (hrows r hr) hx
    have hmem : r ∈ (numbered C data).filter fun r => r.batchId = batch :=
      List.mem_filter.2 ⟨(C.ranges.rows_perm _).mem_iff.1 hr, by simpa [hxb] using hbatch⟩
    rw [hfilter] at hmem
    obtain ⟨⟨b, i⟩, hb, rfl⟩ := List.mem_map.1 hmem
    exact ⟨b, by rw [hxid]; exact (List.mk_mem_zipIdx_iff_le_and_getElem?_sub.1 hb).2, hpayload⟩
  · obtain ⟨rows, hmem, rfl⟩ := List.mem_map.1 hp
    have hpart : ∀ r ∈ rows, TwoShares r.prio := fun r hr =>
      hrows r (List.mem_flatten.2 ⟨rows, hmem, hr⟩)
    rw [joinKeys_flatMap hpart (.inl rfl), joinKeys_flatMap hpart (.inr rfl)]

end Rows

/-- Every share of the kept pings gets an id that names its entry at both
servers. -/
theorem transform_paired (C : Choices) {data : List Ping}
    (h : ∀ p ∈ data, ∀ b ∈ p.prioData.getD [], TwoShares b.prio)
    (hne : blocks (kept C data) ≠ []) :
    transform C data = .ok (partitions C data).flatten ∧
      Paired (blocks (kept C data)) (partitions C data) ∧
      ((kept C data).map Ping.id).Nodup ∧ (∀ p ∈ kept C data, p ∈ data) ∧
      ∀ p ∈ data, ∃ q ∈ kept C data, q.id = p.id := by
  refine ⟨?_, partitions_paired h, kept_spec C data⟩
  -- the entries have payloads, so there is a partition
  have hrow : ∃ r, r ∈ numbered C data := by
    obtain ⟨b, hb⟩ := List.exists_mem_of_ne_nil _ hne
    rw [← (C.order.rows_perm _).mem_iff, ← number_blocks [] (C.order.rows _)] at hb
    obtain ⟨r, hr, -⟩ := List.mem_map.1 hb
    exact ⟨r, hr⟩
  obtain ⟨r, hr⟩ := hrow
  have hmb : 0 < 250 := by decide
  obtain ⟨n, hn, hpos⟩ := (estimate_pos_iff hmb).2 ⟨r, hr, (numbered_twoShares h r hr).payload⟩
  rw [transform_eq, hn]
  simp only [Except.bind]
  rw [if_neg (by omega)]

theorem twoShares_mk {m : PrioMap} {x : String} {y : Option String}
    (h : m.entries = [("a", some x), ("b", y)] ∨ m.entries = [("b", y), ("a", some x)])
    (hx : x ≠ "") : TwoShares (some m) := by
  refine ⟨⟨m, rfl, fun k => ?_⟩, x, payloadOf_of_mem (e := ("a", some x)) ?_, hx⟩
  · rcases h with h | h <;> simp [h, or_comm]
  · rcases h with h | h <;> simp [h]

/-- A ping that occurs twice, one without data, an encoding that occurs twice
in a ping, a map with "b" first, and a null payload under "b". -/
theorem transform_paired_sample :
    let u : PrioMap := ⟨[("a", some "u"), ("b", some "x")], by decide⟩
    let v : PrioMap := ⟨[("b", some "y"), ("a", some "v")], by decide⟩
    let w : PrioMap := ⟨[("a", some "w"), ("b", none)], by decide⟩
    let data : List Ping := [⟨some "p", some [⟨some "e", some u⟩, ⟨some "e", some v⟩]⟩,
      ⟨none, none⟩, ⟨some "p", some []⟩, ⟨some "q", some [⟨some "f", some u⟩, ⟨some "e", some w⟩]⟩]
    let C : Choices := ⟨.whole, .halves, .halves⟩
    transform C data = .ok (partitions C data).flatten ∧
      Paired (blocks (kept C data)) (partitions C data) := by
  intro u v w data C
  have h : ∀ p ∈ data, ∀ b ∈ p.prioData.getD [], TwoShares b.prio := by
    intro p hp b hb
    simp only [data, List.mem_cons, List.not_mem_nil, or_false] at hp
    rcases hp with rfl | rfl | rfl | rfl <;>
      simp only [Option.getD_some, Option.getD_none, List.mem_cons, List.not_mem_nil,
        or_false] at hb
    · rcases hb with rfl | rfl
      · exact twoShares_mk (.inl rfl) (by decide)
      · exact twoShares_mk (.inr rfl) (by decide)
    · rcases hb with rfl | rfl
      · exact twoShares_mk (.inl rfl) (by decide)
      · exact twoShares_mk (.inl rfl) (by decide)
  obtain ⟨ht, hp, -⟩ := transform_paired C h (by decide)
  exact ⟨ht, hp⟩

end PrioProcessor.L5.Pairing
