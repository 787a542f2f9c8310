import PrioProcessor.L5Origin.Indexing

/-!
# Aggregates that do not fit their part are dropped or booked twice

`_apply_structure` (prio_processor/origin/indexing.py:50-80) raises on batch
ids with more than two parts, but pairs a payload with `origins[offset:]` by
`zip`, which stops at the shorter of the two: elements behind the last origin
are dropped without a word. The offset of part 1 is `n_data` of part 0 ("pick
up where the last part left off"), which is not compared with the length of
the payload of part 0: where this is longer, its last elements and the first
ones of part 1 get a record with the same origin.

Counterexample: three elements for two origins, and a payload of two elements
in a part of one (`uneven_parts`).

Condition on the input (`booked_iff`): some row makes the function raise, or
every payload is at most as long as the origins from its offset on, and no
payload of part 0 is longer than the offset of a part 1 that has elements.
-/
namespace PrioProcessor.Bugs.UnevenParts

open L5.Indexing Python

/-- Every row of the configuration has one record for each element of its
payload, and the two parts of a base have no origin in common. -/
structure Booked (aggregates : List Aggregate) (config origins : Json) : Prop where
  complete : ∀ a ∈ aggregates, Listed config a.batchId →
    ∀ recs, recordsOf config origins a = .ok recs →
      a.payload = some (recs.map fun r => r.indexed.aggregate)
  apart : ∀ a ∈ aggregates, ∀ b ∈ aggregates, Listed config a.batchId → Listed config b.batchId →
    ∀ base, IsPart a.batchId base 0 → IsPart b.batchId base 1 →
      ∀ ra rb, recordsOf config origins a = .ok ra → recordsOf config origins b = .ok rb →
        ∀ x ∈ ra, ∀ y ∈ rb, x.indexed.position ≠ y.indexed.position

/-- `transform` raises, or books every element once. -/
def Sound (aggregates : List Aggregate) (config origins : Json) : Prop :=
  (∃ e, transform aggregates config origins = .error e) ∨ Booked aggregates config origins

/-- A row the function raises on: an entry of the configuration has no batch
id, or the row is in the configuration and its batch id has not two parts, its
part number is not 0 or 1, part 0 has no entry or no `n_data`, its payload is
null, or an origin lacks a field. -/
def Refused (config origins : Json) (a : Aggregate) : Prop :=
  (¬ ∃ ids, batchIds config = .ok ids) ∨ (Listed config a.batchId ∧
    ¬ ∃ base n start payload, Placed config origins a base n start payload ∧
      Readable origins start payload.length)

/-- The payloads fit the origins from their offsets on, and part 0 ends before
part 1 starts. -/
structure Fits (aggregates : List Aggregate) (config origins : Json) : Prop where
  room : ∀ a ∈ aggregates, ∀ base n start payload, Placed config origins a base n start payload →
    payload.length ≤ (items origins).length - start
  apart : ∀ a ∈ aggregates, ∀ b ∈ aggregates, ∀ base start start' xs ys,
    Placed config origins a base 0 start xs → Placed config origins b base 1 start' ys →
      ys ≠ [] → xs.length ≤ start'

/-! ## What a row does -/

section Row

variable {config origins : Json} {a : Aggregate} {base : String} {n : ℤ} {start : ℕ}
  {payload : List (Option Int32)} {recs : List Record}

theorem refused_iff : Refused config origins a ↔
    ¬ ∃ recs, applyStructure config origins a.batchId a.payload = .ok recs := by
  by_cases hids : ∃ ids, batchIds config = .ok ids
  · obtain ⟨ids, hids⟩ := hids
    by_cases hl : Listed config a.batchId
    · have hiff : (∃ base n start payload, Placed config origins a base n start payload ∧
          Readable origins start payload.length) ↔
          ∃ recs, applyStructure config origins a.batchId a.payload = .ok recs := by
        refine ⟨fun ⟨_, _, _, _, hp, hread⟩ => (placed_returns_iff hp).2 hread,
          fun ⟨recs, h⟩ => ?_⟩
        obtain ⟨base, n, start, payload, hp⟩ := exists_placed hl h
        exact ⟨base, n, start, payload, hp, (placed_returns_iff hp).1 ⟨recs, h⟩⟩
      simp [Refused, hids, hl, hiff]
    · simp [Refused, hids, hl, applyStructure_unlisted hids hl]
  · refine iff_of_true (.inl hids) fun ⟨recs, h⟩ => hids ?_
    obtain ⟨ids, h, -⟩ := bind_ok h
    exact ⟨ids, h⟩

theorem recordsOf_placed (h : Placed config origins a base n start payload)
    (hr : recordsOf config origins a = .ok recs) :
    recs.map (fun r => (r.indexed.aggregate, r.indexed.position)) =
      (payload.take ((items origins).length - start)).zipIdx start := by
  obtain ⟨xs, hxs, rfl⟩ := recordsOf_ok.1 hr
  rw [← cells_placed h hxs, List.map_map]
  rfl

/-- The elements that get a record. -/
theorem aggregates_placed (h : Placed config origins a base n start payload)
    (hr : recordsOf config origins a = .ok recs) :
    recs.map (fun r => r.indexed.aggregate) =
      payload.take ((items origins).length - start) := by
  have hcells := congrArg (List.map Prod.fst) (recordsOf_placed h hr)
  rw [List.map_map, List.zipIdx_map_fst] at hcells
  exact hcells

/-- The positions of the origins they get. -/
theorem positions_placed (h : Placed config origins a base n start payload)
    (hr : recordsOf config origins a = .ok recs) (i : ℕ) :
    (∃ r ∈ recs, r.indexed.position = i) ↔
      start ≤ i ∧ i < start + payload.length ∧ i < (items origins).length := by
  have hcells := congrArg (List.map Prod.snd) (recordsOf_placed h hr)
  rw [List.map_map, List.zipIdx_map_snd, List.length_take] at hcells
  have hmem : i ∈ recs.map (fun r => r.indexed.position) ↔
      i ∈ List.range' start (min ((items origins).length - start) payload.length) := by
    rw [← hcells]
    rfl
  rw [List.mem_map, List.mem_range'_1] at hmem
  rw [hmem]
  omega

theorem start_first (h : Placed config origins a base 0 start payload) : start = 0 := by
  obtain ⟨offset, j, hs, -, hj, rfl⟩ := h.starts
  cases starts_zero.1 hs
  cases hj
  rfl

end Row

/-! ## The condition -/

section Condition

variable {aggregates : List Aggregate} {config origins : Json}

theorem Fits.booked (h : Fits aggregates config origins) :
    Booked aggregates config origins := by
  refine ⟨fun a ha hl recs hr => ?_,
    fun a ha b hb hla hlb base hpa hpb ra rb hra hrb x hx y hy => ?_⟩
  · obtain ⟨xs, hxs, -⟩ := recordsOf_ok.1 hr
    obtain ⟨base, n, start, payload, hp⟩ := exists_placed hl hxs
    have hroom := h.room a ha base n start payload hp
    rw [aggregates_placed hp hr, List.take_of_length_le hroom]
    exact hp.payload_eq
  · obtain ⟨xs, hxs, -⟩ := recordsOf_ok.1 hra
    obtain ⟨ys, hys, -⟩ := recordsOf_ok.1 hrb
    obtain ⟨base₀, n₀, s, p, hp⟩ := exists_placed hla hxs
    obtain ⟨base₁, n₁, t, q, hq⟩ := exists_placed hlb hys
    -- the batch id determines the base and the part
    obtain ⟨rfl, rfl⟩ := hp.isPart.unique hpa
    obtain ⟨rfl, rfl⟩ := hq.isPart.unique hpb
    have hxpos := (positions_placed hp hra _).1 ⟨x, hx, rfl⟩
    have hypos := (positions_placed hq hrb _).1 ⟨y, hy, rfl⟩
    have hne : q ≠ [] := by
      rintro rfl
      simp at hypos
      omega
    have hend := h.apart a ha b hb _ s t p q hp hq hne
    have hzero := start_first hp
    omega

theorem Booked.fits (h : Booked aggregates config origins)
    (hr : ∀ a ∈ aggregates, ∃ recs, applyStructure config origins a.batchId a.payload = .ok recs) :
    Fits aggregates config origins := by
  have hrecs : ∀ a ∈ aggregates, ∃ recs, recordsOf config origins a = .ok recs := fun a ha => by
    obtain ⟨xs, hxs⟩ := hr a ha
    exact ⟨_, recordsOf_ok.2 ⟨xs, hxs, rfl⟩⟩
  have hroom : ∀ a ∈ aggregates, ∀ base n start payload,
      Placed config origins a base n start payload →
      payload.length ≤ (items origins).length - start := by
    intro a ha base n start payload hp
    obtain ⟨recs, hrec⟩ := hrecs a ha
    have hall := h.complete a ha hp.listed recs hrec
    rw [aggregates_placed hp hrec, hp.payload_eq] at hall
    have hlen := congrArg List.length (Option.some.inj hall)
    rw [List.length_take] at hlen
    omega
  refine ⟨hroom, fun a ha b hb base s t xs ys hp hq hne => ?_⟩
  by_contra hlt
  obtain ⟨ra, hra⟩ := hrecs a ha
  obtain ⟨rb, hrb⟩ := hrecs b hb
  have hpos := List.length_pos_iff.2 hne
  have hxs := hroom a ha base 0 s xs hp
  have hys := hroom b hb base 1 t ys hq
  have hzero := start_first hp
  -- both parts have a record at the offset of part 1
  obtain ⟨x, hx, hxt⟩ := (positions_placed hp hra t).2 ⟨by omega, by omega, by omega⟩
  obtain ⟨y, hy, hyt⟩ := (positions_placed hq hrb t).2 ⟨by omega, by omega, by omega⟩
  exact h.apart a ha b hb hp.listed hq.listed base hp.isPart hq.isPart ra rb hra hrb x hx y hy
    (hxt.trans hyt.symm)

end Condition

/-- **Condition**: every element is booked once, or an exception is raised,
exactly when some row is refused or the payloads fit. -/
theorem booked_iff (aggregates : List Aggregate) (config origins : Json) :
    Sound aggregates config origins ↔
      (∃ a ∈ aggregates, Refused config origins a) ∨ Fits aggregates config origins := by
  unfold Sound
  by_cases hr : ∀ a ∈ aggregates,
      ∃ recs, applyStructure config origins a.batchId a.payload = .ok recs
  · obtain ⟨out, hout⟩ := transform_returns_iff.2 hr
    have hno : ¬ ∃ a ∈ aggregates, Refused config origins a := fun ⟨a, ha, href⟩ =>
      refused_iff.1 href (hr a ha)
    have hok : ¬ ∃ e, transform aggregates config origins = .error e := by
      rw [hout]
      simp
    rw [or_iff_right hok, or_iff_right hno]
    exact ⟨fun h => h.fits hr, fun h => h.booked⟩
  · refine iff_of_true (.inl ?_) (.inl ?_)
    · cases hout : transform aggregates config origins with
      | error e => exact ⟨e, rfl⟩
      | ok out => exact absurd (transform_returns_iff.1 ⟨out, hout⟩) hr
    · simp only [not_forall] at hr
      obtain ⟨a, ha, hno⟩ := hr
      exact ⟨a, ha, refused_iff.2 hno⟩

/-! ## A payload that is too long -/

namespace Sample

def entry (batchId : String) (nData : ℕ) : Json :=
  .obj [("batch_id", .str batchId), ("n_data", .int nData)]

def origin (name : String) (index : ℕ) : Json :=
  .obj [("name", .str name), ("hash", .str name), ("index", .int index)]

def row (batchId : String) (payload : List Int32) : Aggregate :=
  ⟨some "u", some "2019-06-26", some batchId, some (payload.map some)⟩

/-- Two parts of one element each. -/
def config : Json := .arr [entry "t-0" 1, entry "t-1" 1]

def origins : Json := .arr [origin "a" 0, origin "b" 1, origin "__UNKNOWN__" 2]

/-- The elements with a record, and the positions of their origins. -/
def cells (r : Except Exc (List Record)) : Except Exc (List (Option Int32 × ℕ)) :=
  r.map fun out => out.map fun x => (x.indexed.aggregate, x.indexed.position)

theorem listed {batchId : String} (h : batchId = "t-0" ∨ batchId = "t-1") :
    Listed config (some batchId) := by
  refine ⟨[.str "t-0", .str "t-1"], rfl, .str batchId, ?_, by simp [Json.equals]⟩
  rcases h with rfl | rfl <;> simp

theorem records {a : Aggregate} {cs : List (Option Int32 × ℕ)}
    (h : cells (recordsOf config origins a) = .ok cs) :
    ∃ recs, recordsOf config origins a = .ok recs ∧
      recs.map (fun x => (x.indexed.aggregate, x.indexed.position)) = cs := by
  cases hr : recordsOf config origins a with
  | error e => rw [hr] at h; cases h
  | ok recs => rw [hr] at h; exact ⟨recs, rfl, Except.ok.inj h⟩

/-- Where the function returns, only `Booked` is left. -/
theorem booked {aggregates : List Aggregate} {cs : List (Option Int32 × ℕ)}
    (hout : cells (transform aggregates config origins) = .ok cs)
    (h : Sound aggregates config origins) : Booked aggregates config origins := by
  rcases h with ⟨e, he⟩ | h
  · rw [he] at hout
    cases hout
  · exact h

end Sample

open Sample in
/-- **Counterexample**: the fourth of four elements has no origin left and is
dropped; the second element of a part of one and the first of the next part
both get the origin at position 1. -/
theorem uneven_parts :
    validateOrigins origins = .ok () ∧
    cells (transform [row "t-0" [5, 6, 7, 8]] config origins) =
      .ok [(some 5, 0), (some 6, 1), (some 7, 2)] ∧
    ¬ Sound [row "t-0" [5, 6, 7, 8]] config origins ∧
    cells (transform [row "t-0" [5, 6], row "t-1" [7]] config origins) =
      .ok [(some 5, 0), (some 6, 1), (some 7, 1)] ∧
    ¬ Sound [row "t-0" [5, 6], row "t-1" [7]] config origins := by
  have hlong : cells (transform [row "t-0" [5, 6, 7, 8]] config origins) =
      .ok [(some 5, 0), (some 6, 1), (some 7, 2)] := by decide +kernel
  have hboth : cells (transform [row "t-0" [5, 6], row "t-1" [7]] config origins) =
      .ok [(some 5, 0), (some 6, 1), (some 7, 1)] := by decide +kernel
  refine ⟨by decide +kernel, hlong, ?_, hboth, ?_⟩
  · intro h
    have hcells : cells (recordsOf config origins (row "t-0" [5, 6, 7, 8])) =
        .ok [(some 5, 0), (some 6, 1), (some 7, 2)] := by decide +kernel
    obtain ⟨recs, hr, hrecs⟩ := records hcells
    have hall := (booked hlong h).complete _ (by simp) (listed (.inl rfl)) recs hr
    have hlen := congrArg List.length hrecs
    have hlen' := congrArg List.length (Option.some.inj hall)
    simp at hlen hlen'
    omega
  · intro h
    have hcells₀ : cells (recordsOf config origins (row "t-0" [5, 6])) =
        .ok [(some 5, 0), (some 6, 1)] := by decide +kernel
    have hcells₁ : cells (recordsOf config origins (row "t-1" [7])) = .ok [(some 7, 1)] := by
      decide +kernel
    obtain ⟨ra, hra, ha⟩ := records hcells₀
    obtain ⟨rb, hrb, hb⟩ := records hcells₁
    have hx : ((some 6, 1) : Option Int32 × ℕ) ∈
        ra.map fun x => (x.indexed.aggregate, x.indexed.position) := by simp [ha]
    have hy : ((some 7, 1) : Option Int32 × ℕ) ∈
        rb.map fun x => (x.indexed.aggregate, x.indexed.position) := by simp [hb]
    obtain ⟨x, hx, hxe⟩ := List.mem_map.1 hx
    obtain ⟨y, hy, hye⟩ := List.mem_map.1 hy
    have h₀ : IsPart (some "t-0") "t" 0 := ⟨"t-0", "0", rfl, by decide +kernel, by decide +kernel⟩
    have h₁ : IsPart (some "t-1") "t" 1 := ⟨"t-1", "1", rfl, by decide +kernel, by decide +kernel⟩
    have hne := (booked hboth h).apart (row "t-0" [5, 6]) (by simp) (row "t-1" [7]) (by simp)
      (listed (.inl rfl)) (listed (.inr rfl)) "t" h₀ h₁ ra rb hra hrb x hx y hy
    exact hne ((congrArg Prod.snd hxe).trans (congrArg Prod.snd hye).symm)

end PrioProcessor.Bugs.UnevenParts
