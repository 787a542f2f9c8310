import PrioProcessor.L5Origin.Indexing
import PrioProcessor.L5Origin.Origins
import Mathlib.Data.List.GetD

/-!
# Every aggregate is attributed to its origin

The origins `prio-processor fetch-origins` lists (`Origins`) against the
records `prio-processor index` writes (`Indexing`). Where the configuration
splits each base into a part 0 and at most one part 1 that together have no
more elements than there are origins, and the table has one row of that length
for each part, a base has one record for each index, with the origin of this
index and the element of part 0 or, behind its end, of part 1
(`origins_attributed`). The order of the entries and of the rows, the other
bases and rows of unknown batches make no difference.

* `recordsOf_entry`: the records of the row of an entry.
* `records_of_base`: the records of a base.
-/
namespace PrioProcessor.L5.Attribution

open Python Indexing

/-- The number behind the hyphen of a batch id. -/
inductive Part where
  | zero | one
  deriving DecidableEq, Repr

def Part.suffix : Part → String
  | .zero => "-0"
  | .one => "-1"

def Part.num : Part → ℤ
  | .zero => 0
  | .one => 1

/-- The batch id of a part. -/
def batchId (base : String) (p : Part) : String := base ++ p.suffix

/-- An entry of the configuration, for a part of `base`. -/
structure Entry where
  json : Json
  base : String
  part : Part
  nData : ℕ
  hyphenFree : '-' ∉ base.toList
  batchId_eq : json.item "batch_id" = .ok (.str (batchId base part))
  nData_eq : json.item "n_data" = .ok (.int nData)

/-- The configuration with these entries. -/
def configOf (entries : List Entry) : Json := .arr (entries.map Entry.json)

/-- `n_data` of a part, 0 where it has no entry. -/
def nData (entries : List Entry) (base : String) (p : Part) : ℕ :=
  ((entries.find? fun e => e.base = base ∧ e.part = p).map Entry.nData).getD 0

/-- The batch ids are distinct, part 1 has a part 0, and the parts of a base
have no more elements than there are origins. -/
structure WellFormed (entries : List Entry) (origins : ℕ) : Prop where
  distinct : (entries.map fun e => batchId e.base e.part).Nodup
  first : ∀ e ∈ entries, e.part = .one → ∃ d ∈ entries, d.base = e.base ∧ d.part = .zero
  fits : ∀ e ∈ entries, nData entries e.base .zero + nData entries e.base .one ≤ origins

/-- The table has one row for each entry, with a payload of its length; it may
have any rows of other batches. -/
def Published (entries : List Entry) (aggregates : List Aggregate) : Prop :=
  ∀ e ∈ entries, ∃ a payload,
    (aggregates.filter fun a => a.batchId = some (batchId e.base e.part)) = [a] ∧
      a.payload = some payload ∧ payload.length = e.nData

/-- The row of a part. -/
def rowOf (aggregates : List Aggregate) (base : String) (p : Part) : Aggregate :=
  (aggregates.find? fun a => a.batchId = some (batchId base p)).getD ⟨none, none, none, none⟩

/-- The origin of the `i`-th `ORIGIN` line, and the unknown one behind them. -/
def originAt (os : List Origins.Origin) (i : ℕ) : Origins.Origin :=
  (os ++ [Origins.unknown]).getD i Origins.unknown

/-- The record of an element of a row at the origin `i`. -/
def recordAt (os : List Origins.Origin) (base : String) (a : Aggregate) (x : Option Int32) (i : ℕ) :
    Record :=
  ⟨a.id, a.timestamp, ⟨base, .str (originAt os i).name, .str (originAt os i).hash, .int i, x, i⟩⟩

/-- The record of index `i` of a base whose part 0 has `n₀` elements. -/
def recordOf (os : List Origins.Origin) (aggregates : List Aggregate) (base : String) (n₀ i : ℕ) :
    Record :=
  let a := rowOf aggregates base (if i < n₀ then .zero else .one)
  recordAt os base a ((a.payload.getD []).getD (if i < n₀ then i else i - n₀) none) i

/-! ## Batch ids -/

theorem batchId_inj {base base' : String} {p p' : Part} :
    batchId base p = batchId base' p' ↔ base = base' ∧ p = p' := by
  refine ⟨fun h => ?_, fun ⟨hb, hp⟩ => by rw [hb, hp]⟩
  have hlist := congrArg String.toList h
  unfold batchId at hlist
  rw [String.toList_append, String.toList_append] at hlist
  have hlen : p.suffix.toList.length = p'.suffix.toList.length := by
    cases p <;> cases p' <;> simp [Part.suffix]
  obtain ⟨hb, hp⟩ := List.append_inj' hlist hlen
  refine ⟨String.toList_inj.1 hb, ?_⟩
  cases p <;> cases p' <;> first | rfl | (exact absurd hp (by decide))

theorem Entry.isPart (e : Entry) : IsPart (some (batchId e.base e.part)) e.base e.part.num := by
  have hjoin : ∀ d : String, '-' ∉ d.toList →
      split '-' (e.base ++ String.singleton '-' ++ d) = [e.base, d] := fun d hd =>
    split_join e.hyphenFree hd
  cases hp : e.part with
  | zero =>
    refine ⟨_, "0", rfl, ?_, by decide⟩
    have h0 := hjoin "0" (by simp)
    rwa [String.append_assoc] at h0
  | one =>
    refine ⟨_, "1", rfl, ?_, by decide⟩
    have h1 := hjoin "1" (by simp)
    rwa [String.append_assoc] at h1

theorem batchIds_configOf (entries : List Entry) : batchIds (configOf entries) =
    .ok (entries.map fun e => .str (batchId e.base e.part)) := by
  show (entries.map Entry.json).mapM _ = _
  rw [List.mapM_map]
  exact mapM_ok fun e _ => e.batchId_eq

theorem listed_iff {entries : List Entry} {b : Option String} :
    Listed (configOf entries) b ↔ ∃ e ∈ entries, b = some (batchId e.base e.part) := by
  have hequals : ∀ s : String, (Json.str s).equals b = true ↔ b = some s := fun s => by
    cases b with
    | none => simp [Json.equals]
    | some t => simp [Json.equals, eq_comm]
  unfold Listed
  rw [batchIds_configOf]
  simp [hequals]

/-- An entry is found by its base and part. -/
theorem nData_of_mem {entries : List Entry}
    (hd : (entries.map fun e => batchId e.base e.part).Nodup) {e : Entry} (he : e ∈ entries) :
    (entries.find? fun d => d.base = e.base ∧ d.part = e.part) = some e ∧
      nData entries e.base e.part = e.nData := by
  have hfind : (entries.find? fun d => d.base = e.base ∧ d.part = e.part) = some e := by
    have hsome : (entries.find? fun d => d.base = e.base ∧ d.part = e.part).isSome := by
      rw [List.find?_isSome]
      exact ⟨e, he, by simp⟩
    obtain ⟨d, hd'⟩ := Option.isSome_iff_exists.1 hsome
    have hkey : batchId d.base d.part = batchId e.base e.part := by
      have hp := List.find?_some hd'
      simp only [decide_eq_true_eq] at hp
      rw [hp.1, hp.2]
    rw [hd', List.inj_on_of_nodup_map hd (List.mem_of_find?_eq_some hd') he hkey]
  refine ⟨hfind, ?_⟩
  unfold nData
  rw [hfind]
  rfl

/-! ## The records of a row -/

section Row

variable {os : List Origins.Origin} {entries : List Entry} {aggregates : List Aggregate}

/-- The fetched list passes its check. -/
theorem validate_listed (os : List Origins.Origin) :
    validateOrigins (.arr (Origins.listed os)) = .ok () := by
  have hall : (Origins.listed os).all originOk = true := by
    refine List.all_eq_true.2 fun j hj => ?_
    obtain ⟨p, -, rfl⟩ := List.mem_map.1 hj
    simp [Origins.transform, originOk, propertyOk, Table.lookup, isString, isPosition]
  unfold validateOrigins
  dsimp only
  rw [if_pos hall]

theorem items_listed : items (.arr (Origins.listed os)) = Origins.listed os := rfl

theorem length_listed : (Origins.listed os).length = os.length + 1 := by
  simp [Origins.listed]

/-- The position where the part of an entry starts. -/
def startOf (entries : List Entry) (e : Entry) : ℕ :=
  match e.part with
  | .zero => 0
  | .one => nData entries e.base .zero

theorem placed (hw : WellFormed entries (os.length + 1)) {e : Entry} (he : e ∈ entries)
    {a : Aggregate} (ha : a.batchId = some (batchId e.base e.part)) {payload : List (Option Int32)}
    (hp : a.payload = some payload) :
    Placed (configOf entries) (.arr (Origins.listed os)) a e.base e.part.num (startOf entries e)
      payload := by
  refine ⟨listed_iff.2 ⟨e, he, ha⟩, ha ▸ e.isPart, ?_, hp⟩
  unfold startOf
  cases hpart : e.part with
  | zero => exact ⟨.int 0, some 0, .first, rfl, rfl, rfl⟩
  | one =>
    obtain ⟨d, hd, hbase, hzero⟩ := hw.first e he hpart
    obtain ⟨hfind, hn⟩ := nData_of_mem hw.distinct hd
    rw [hbase, hzero] at hfind hn
    refine ⟨.int d.nData, some d.nData, .second rfl (d := d.json) ?_ d.nData_eq, rfl, rfl, ?_⟩
    · -- the entry of part 0 is the one whose batch id ends in "-0"
      have hfirst : (isFirst e.base ∘ Entry.json) =
          fun d => decide (d.base = e.base ∧ d.part = Part.zero) := by
        funext d
        have hid : batchId d.base d.part = batchId e.base .zero ↔ _ := batchId_inj
        simp only [Function.comp_apply, isFirst, d.batchId_eq]
        simp only [Except.toOption, Option.any_some, Json.equals]
        exact decide_eq_decide.2 hid
      rw [List.find?_map, hfirst, hfind]
      rfl
    · rw [hn]
      unfold sliceStart
      dsimp only
      rw [if_neg (by omega), Int.toNat_natCast]

theorem room (hw : WellFormed entries (os.length + 1)) {e : Entry} (he : e ∈ entries) :
    startOf entries e + e.nData ≤ os.length + 1 := by
  have hfits := hw.fits e he
  have hn := (nData_of_mem hw.distinct he).2
  unfold startOf
  cases hpart : e.part with
  | zero => rw [hpart] at hn; dsimp only; omega
  | one => rw [hpart] at hn; dsimp only; omega

/-- The origin at a position of the list, as it was numbered. -/
theorem mem_listed {j : Json} {i : ℕ} (h : (Origins.listed os)[i]? = some j) :
    j = Origins.transform i (originAt os i) := by
  unfold Origins.listed at h
  rw [List.getElem?_map, List.getElem?_zipIdx, Option.map_map, Option.map_eq_some_iff] at h
  obtain ⟨o, ho, rfl⟩ := h
  unfold originAt
  rw [List.getD_eq_getElem?_getD, ho]
  simp

/-- The row of an entry has one record for each element, with the next origin
of its part. -/
theorem recordsOf_entry (hw : WellFormed entries (os.length + 1)) {e : Entry} (he : e ∈ entries)
    {a : Aggregate} (ha : a.batchId = some (batchId e.base e.part)) {payload : List (Option Int32)}
    (hp : a.payload = some payload) (hlen : payload.length = e.nData) :
    recordsOf (configOf entries) (.arr (Origins.listed os)) a =
      .ok ((payload.zipIdx (startOf entries e)).map fun c => recordAt os e.base a c.1 c.2) := by
  have happly := applyStructure_placed (placed hw he ha hp)
  rw [items_listed] at happly
  have hcells : ∀ p ∈ ((Origins.listed os).zipIdx.drop (startOf entries e)).zip payload,
      structureOf e.base p = .ok (recordAt os e.base a p.2 p.1.2).indexed := by
    intro p hpair
    have hmem := List.mem_of_mem_drop (List.of_mem_zip hpair).1
    have hj := mem_listed (List.mem_zipIdx_iff_getElem?.1 hmem)
    rw [structureOf_ok, hj]
    exact ⟨_, _, _, rfl, rfl, rfl, rfl⟩
  rw [mapM_ok hcells] at happly
  refine recordsOf_ok.2 ⟨_, happly, ?_⟩
  have hroom := room hw he
  have htake : payload.take ((Origins.listed os).length - startOf entries e) = payload := by
    rw [length_listed]
    exact List.take_of_length_le (by omega)
  rw [← htake, ← zip_slice, List.map_map, List.map_map, htake]
  rfl

theorem recordsOf_unlisted {a : Aggregate}
    (ha : ∀ e ∈ entries, a.batchId ≠ some (batchId e.base e.part)) (origins : Json) :
    recordsOf (configOf entries) origins a = .ok [] := by
  have hno : ¬ Listed (configOf entries) a.batchId := fun h => by
    obtain ⟨e, he, heq⟩ := listed_iff.1 h
    exact ha e he heq
  exact recordsOf_ok.2 ⟨[], applyStructure_unlisted (batchIds_configOf entries) hno _, rfl⟩

end Row

/-! ## The records of a base -/

section Base

variable {os : List Origins.Origin} {entries : List Entry} {aggregates : List Aggregate}

/-- The row belongs to one of the two parts of the base. -/
def ofBase (base : String) (a : Aggregate) : Bool :=
  a.batchId = some (batchId base .zero) ∨ a.batchId = some (batchId base .one)

theorem ofBase_iff {base : String} {a : Aggregate} :
    ofBase base a = true ↔ ∃ p, a.batchId = some (batchId base p) := by
  unfold ofBase
  rw [decide_eq_true_iff]
  refine ⟨fun h => h.elim (fun h => ⟨.zero, h⟩) fun h => ⟨.one, h⟩, fun ⟨p, h⟩ => ?_⟩
  cases p with
  | zero => exact .inl h
  | one => exact .inr h

/-- The rows of a base are those of its part 0 and those of its part 1. -/
theorem filter_ofBase (base : String) (aggregates : List Aggregate) :
    (aggregates.filter (ofBase base)).Perm
      ((aggregates.filter fun a => a.batchId = some (batchId base .zero)) ++
        aggregates.filter fun a => a.batchId = some (batchId base .one)) := by
  induction aggregates with
  | nil => exact .nil
  | cons a rest ih =>
    have hne : batchId base .zero ≠ batchId base .one := fun h => by cases (batchId_inj.1 h).2
    by_cases h0 : a.batchId = some (batchId base .zero)
    · have h1 : ¬ a.batchId = some (batchId base .one) := fun h1 =>
        hne (Option.some.inj (h0.symm.trans h1))
      simpa [ofBase, h0, h1, hne] using ih
    · by_cases h1 : a.batchId = some (batchId base .one)
      · simpa [ofBase, h0, h1, hne.symm] using (ih.cons a).trans List.perm_middle.symm
      · simpa [ofBase, h0, h1] using ih

/-- The records of a row, none where it raises. -/
def emitted (config origins : Json) (a : Aggregate) : List Record :=
  (recordsOf config origins a).toOption.getD []

/-- The row of an entry has the length of the entry. -/
theorem Published.payload (hp : Published entries aggregates) {e : Entry} (he : e ∈ entries)
    {a : Aggregate} (ha : a ∈ aggregates) (heq : a.batchId = some (batchId e.base e.part)) :
    ∃ payload, a.payload = some payload ∧ payload.length = e.nData := by
  obtain ⟨b, payload, hone, hb, hlen⟩ := hp e he
  have hab : a ∈ aggregates.filter fun a => a.batchId = some (batchId e.base e.part) :=
    List.mem_filter.2 ⟨ha, by simpa using heq⟩
  rw [hone, List.mem_singleton] at hab
  exact ⟨payload, hab ▸ hb, hlen⟩

theorem recordsOf_emitted (hw : WellFormed entries (os.length + 1))
    (hp : Published entries aggregates) {a : Aggregate} (ha : a ∈ aggregates) :
    recordsOf (configOf entries) (.arr (Origins.listed os)) a =
      .ok (emitted (configOf entries) (.arr (Origins.listed os)) a) := by
  suffices h : ∃ recs, recordsOf (configOf entries) (.arr (Origins.listed os)) a = .ok recs by
    obtain ⟨recs, h⟩ := h
    unfold emitted
    rw [h]
    rfl
  by_cases hl : ∃ e ∈ entries, a.batchId = some (batchId e.base e.part)
  · obtain ⟨e, he, heq⟩ := hl
    obtain ⟨payload, hpayload, hlen⟩ := hp.payload he ha heq
    exact ⟨_, recordsOf_entry hw he heq hpayload hlen⟩
  · exact ⟨[], recordsOf_unlisted (fun e he heq => hl ⟨e, he, heq⟩) _⟩

/-- The index `i` places behind the start of a part is element `i` of it. -/
theorem recordOf_entry (hw : WellFormed entries (os.length + 1)) {e : Entry} (he : e ∈ entries)
    {i : ℕ} (hi : i < e.nData) :
    recordOf os aggregates e.base (nData entries e.base .zero) (startOf entries e + i) =
      recordAt os e.base (rowOf aggregates e.base e.part)
        (((rowOf aggregates e.base e.part).payload.getD []).getD i none)
        (startOf entries e + i) := by
  have hn := (nData_of_mem hw.distinct he).2
  have hpart : e.part = .zero ∨ e.part = .one := by cases e.part <;> simp
  unfold recordOf startOf
  rcases hpart with hpart | hpart
  · rw [hpart] at hn ⊢
    dsimp only
    rw [if_pos (by omega), if_pos (by omega), Nat.zero_add]
  · rw [hpart] at hn ⊢
    dsimp only
    rw [if_neg (by omega), if_neg (by omega), Nat.add_sub_cancel_left]

/-- The records of the row of an entry, index by index. -/
theorem emitted_entry (hw : WellFormed entries (os.length + 1)) (hp : Published entries aggregates)
    {e : Entry} (he : e ∈ entries) :
    (aggregates.filter fun a => a.batchId = some (batchId e.base e.part)).flatMap
        (emitted (configOf entries) (.arr (Origins.listed os))) =
      (List.range' (startOf entries e) e.nData).map
        (recordOf os aggregates e.base (nData entries e.base .zero)) := by
  obtain ⟨a, payload, hone, hpayload, hlen⟩ := hp e he
  have hmem : a ∈ aggregates.filter fun a => a.batchId = some (batchId e.base e.part) := by
    rw [hone]
    exact List.mem_singleton_self a
  have ha : a.batchId = some (batchId e.base e.part) := by simpa using (List.mem_filter.1 hmem).2
  have hrow : rowOf aggregates e.base e.part = a := by
    unfold rowOf
    rw [← List.head?_filter, hone]
    rfl
  have hrecs := recordsOf_emitted hw hp (List.mem_of_mem_filter hmem)
  rw [recordsOf_entry hw he ha hpayload hlen] at hrecs
  rw [hone, List.flatMap_singleton, ← Except.ok.inj hrecs]
  apply List.ext_getElem
  · simp [hlen]
  · intro i h₁ h₂
    have hi : i < payload.length := by simpa using h₁
    simp only [List.getElem_map, List.getElem_zipIdx, List.getElem_range', Nat.one_mul]
    rw [recordOf_entry hw he (hlen ▸ hi), hrow, hpayload, Option.getD_some,
      List.getD_eq_getElem _ _ hi]

/-- A base has one record for each index of its parts. -/
theorem records_of_base (hw : WellFormed entries (os.length + 1))
    (hp : Published entries aggregates) {e : Entry} (he : e ∈ entries) :
    ((aggregates.filter (ofBase e.base)).flatMap
        (emitted (configOf entries) (.arr (Origins.listed os)))).Perm
      ((List.range (nData entries e.base .zero + nData entries e.base .one)).map
        (recordOf os aggregates e.base (nData entries e.base .zero))) := by
  refine ((filter_ofBase e.base aggregates).flatMap_right _).trans (.of_eq ?_)
  rw [List.flatMap_append]
  -- every base has a part 0
  obtain ⟨d, hd, hbase, hzero⟩ : ∃ d ∈ entries, d.base = e.base ∧ d.part = .zero := by
    cases hpart : e.part with
    | zero => exact ⟨e, he, rfl, hpart⟩
    | one => exact hw.first e he hpart
  have h0 := emitted_entry hw hp hd
  have hn0 := (nData_of_mem hw.distinct hd).2
  have hs0 : startOf entries d = 0 := by unfold startOf; rw [hzero]
  rw [hs0, hbase, hzero, ← hn0, hbase, hzero] at h0
  rw [h0, List.range_eq_range', ← List.range'_append_1, List.map_append, Nat.zero_add]
  congr 1
  by_cases hone : ∃ c ∈ entries, c.base = e.base ∧ c.part = .one
  · obtain ⟨c, hc, hcb, hcp⟩ := hone
    have h1 := emitted_entry hw hp hc
    have hn1 := (nData_of_mem hw.distinct hc).2
    have hs1 : startOf entries c = nData entries e.base .zero := by
      unfold startOf
      rw [hcp, hcb]
    rw [hs1, hcb, hcp, ← hn1, hcb, hcp] at h1
    exact h1
  · -- without a part 1 its rows are unknown
    have hn1 : nData entries e.base .one = 0 := by
      unfold nData
      rw [List.find?_eq_none.2 fun c hc h => hone ⟨c, hc, by simpa using h⟩]
      rfl
    rw [hn1]
    refine List.flatMap_eq_nil_iff.2 fun a ha => ?_
    have haid : a.batchId = some (batchId e.base .one) := by simpa using (List.mem_filter.1 ha).2
    unfold emitted
    rw [recordsOf_unlisted]
    · rfl
    · intro c hc heq
      obtain ⟨hcb, hcp⟩ := batchId_inj.1 (Option.some.inj (haid.symm.trans heq))
      exact hone ⟨c, hc, hcb.symm, hcp.symm⟩

/-- The records of a row are of the base of its entry. -/
theorem mem_emitted (hw : WellFormed entries (os.length + 1)) (hp : Published entries aggregates)
    {a : Aggregate} (ha : a ∈ aggregates) {r : Record}
    (hr : r ∈ emitted (configOf entries) (.arr (Origins.listed os)) a) :
    ∃ e ∈ entries, a.batchId = some (batchId e.base e.part) ∧ r.indexed.batchId = e.base := by
  by_cases hl : ∃ e ∈ entries, a.batchId = some (batchId e.base e.part)
  · obtain ⟨e, he, heq⟩ := hl
    obtain ⟨payload, hpayload, hlen⟩ := hp.payload he ha heq
    have hrecs := recordsOf_emitted hw hp ha
    rw [recordsOf_entry hw he heq hpayload hlen] at hrecs
    rw [← Except.ok.inj hrecs] at hr
    obtain ⟨c, -, rfl⟩ := List.mem_map.1 hr
    exact ⟨e, he, heq, rfl⟩
  · unfold emitted at hr
    rw [recordsOf_unlisted fun e he heq => hl ⟨e, he, heq⟩] at hr
    cases hr

theorem transform_emitted (hw : WellFormed entries (os.length + 1))
    (hp : Published entries aggregates) :
    transform aggregates (configOf entries) (.arr (Origins.listed os)) =
      .ok (aggregates.flatMap (emitted (configOf entries) (.arr (Origins.listed os)))) := by
  unfold transform
  rw [mapM_ok fun a ha => recordsOf_emitted hw hp ha, ok_bind, List.flatMap_def]
  rfl

/-- The records of a base come from the rows of its parts. -/
theorem filter_emitted (hw : WellFormed entries (os.length + 1)) (hp : Published entries aggregates)
    (base : String) :
    ((aggregates.flatMap (emitted (configOf entries) (.arr (Origins.listed os)))).filter fun r =>
        r.indexed.batchId = base) =
      (aggregates.filter (ofBase base)).flatMap
        (emitted (configOf entries) (.arr (Origins.listed os))) := by
  refine Table.filter_flatMap_of fun a ha r hr => ?_
  obtain ⟨d, -, had, hrd⟩ := mem_emitted hw hp ha hr
  rw [hrd]
  refine Bool.eq_iff_iff.2 ?_
  rw [ofBase_iff, decide_eq_true_iff, had]
  simp [batchId_inj]

end Base

/-- Every index of a base has one record, with the origin of its `ORIGIN` line
and the element of its part. -/
theorem origins_attributed {eval : Bytes → Except Exc Origins.Origin} {file : Bytes}
    {os : List Origins.Origin} (hfile : Origins.Lists eval (readlines 10 file) os) (hk : os ≠ [])
    {entries : List Entry} (hw : WellFormed entries (os.length + 1)) {aggregates : List Aggregate}
    (hp : Published entries aggregates) :
    ∃ origins out, Origins.run eval file = .ok origins ∧ validateOrigins origins = .ok () ∧
      transform aggregates (configOf entries) origins = .ok out ∧
      (∀ e ∈ entries, (out.filter fun r => r.indexed.batchId = e.base).Perm
        ((List.range (nData entries e.base .zero + nData entries e.base .one)).map
          (recordOf os aggregates e.base (nData entries e.base .zero)))) ∧
      ∀ r ∈ out, ∃ e ∈ entries, r.indexed.batchId = e.base := by
  refine ⟨_, _, Origins.run_eq hfile hk, validate_listed os, transform_emitted hw hp,
    fun e he => ?_, fun r hr => ?_⟩
  · rw [filter_emitted hw hp]
    exact records_of_base hw hp he
  · obtain ⟨a, ha, hr⟩ := List.mem_flatMap.1 hr
    obtain ⟨e, he, -, hbase⟩ := mem_emitted hw hp ha hr
    exact ⟨e, he, hbase⟩

/-! ## A table of two bases -/

namespace Sample

def originA : Origins.Origin := ⟨"a", "x"⟩

def originB : Origins.Origin := ⟨"b", "y"⟩

/-- A comment, a blank line, an origin, a blank line and another origin. -/
def file : Bytes := [47, 47, 32, 99, 10] ++ [10] ++ Origins.callLine originA ++ [32, 10] ++
  Origins.callLine originB

def entry (base : String) (p : Part) (n : ℕ) (h : '-' ∉ base.toList) : Entry where
  json := .obj [("batch_id", .str (batchId base p)), ("n_data", .int n)]
  base := base
  part := p
  nData := n
  hyphenFree := h
  batchId_eq := rfl
  nData_eq := rfl

def entries : List Entry :=
  [entry "t" .one 1 (by decide), entry "u" .zero 3 (by decide), entry "t" .zero 2 (by decide)]

def row (batchId : String) (payload : List Int32) : Aggregate :=
  ⟨some "u", none, some batchId, some (payload.map some)⟩

def aggregates : List Aggregate :=
  [row "t-1" [7], row "z" [9], row "u-0" [1, 2, 3], row "t-0" [5, 6]]

theorem lists : Origins.Lists Origins.evalCall (readlines 10 file) [originA, originB] := by
  have hlines : readlines 10 file =
      [[47, 47, 32, 99, 10], [10], Origins.callLine originA, [32, 10],
        Origins.callLine originB] := by decide +kernel
  have hplain : ∀ o ∈ [originA, originB], Origins.Plain o.name ∧ Origins.Plain o.hash := by
    simp [Origins.Plain, originA, originB]
  have heval : ∀ o ∈ [originA, originB], Origins.evalCall (Origins.callLine o) = .ok o :=
    fun o ho => Origins.evalCall_call (hplain o ho).1 (hplain o ho).2
  -- both calls start with a letter
  have hcode : ∀ o ∈ [originA, originB], ¬ Origins.slashes <+: Origins.callLine o ∧
      79 ∈ Origins.callLine o := by decide +kernel
  have hletter : ¬ Origins.isSpaceByte 79 := by decide
  have ha := hcode originA (by simp)
  have hb := hcode originB (by simp)
  rw [hlines]
  apply Origins.Lists.comment
  · decide
  apply Origins.Lists.blank
  · simp [Origins.isSpaceByte]
  apply Origins.Lists.origin ha.1 ⟨79, ha.2, hletter⟩ (heval originA (by simp))
  apply Origins.Lists.blank
  · simp [Origins.isSpaceByte]
  exact .origin hb.1 ⟨79, hb.2, hletter⟩ (heval originB (by simp)) .nil

theorem wellFormed : WellFormed entries 3 := by
  refine ⟨?_, ?_, ?_⟩ <;> decide +kernel

theorem published : Published entries aggregates := by
  intro e he
  simp only [entries, List.mem_cons, List.not_mem_nil, or_false] at he
  rcases he with rfl | rfl | rfl
  · exact ⟨row "t-1" [7], [some 7], by decide +kernel, rfl, rfl⟩
  · exact ⟨row "u-0" [1, 2, 3], [some 1, some 2, some 3], by decide +kernel, rfl, rfl⟩
  · exact ⟨row "t-0" [5, 6], [some 5, some 6], by decide +kernel, rfl, rfl⟩

end Sample

open Sample in
/-- Two bases of three elements, one in two parts whose entries and rows are in
the other order, and a row of an unknown batch. -/
theorem origins_attributed_sample :
    ∃ origins out, Origins.run Origins.evalCall file = .ok origins ∧
      transform aggregates (configOf entries) origins = .ok out ∧
      (out.filter fun r => r.indexed.batchId = "t").Perm
        [recordAt [originA, originB] "t" (row "t-0" [5, 6]) (some 5) 0,
          recordAt [originA, originB] "t" (row "t-0" [5, 6]) (some 6) 1,
          recordAt [originA, originB] "t" (row "t-1" [7]) (some 7) 2] := by
  obtain ⟨origins, out, hrun, -, hout, hbase, -⟩ :=
    origins_attributed lists (List.cons_ne_nil _ _) wellFormed published
  have ht := hbase (entry "t" .zero 2 (by decide)) (by simp [entries])
  refine ⟨origins, out, hrun, hout, ht.trans (.of_eq ?_)⟩
  have hzero : nData entries "t" .zero = 2 := by decide +kernel
  have hone : nData entries "t" .one = 1 := by decide +kernel
  have hrows : rowOf aggregates "t" .zero = row "t-0" [5, 6] ∧
      rowOf aggregates "t" .one = row "t-1" [7] := by decide +kernel
  show (List.range (nData entries "t" .zero + nData entries "t" .one)).map
    (recordOf _ aggregates "t" (nData entries "t" .zero)) = _
  rw [hzero, hone]
  show [recordOf _ aggregates "t" 2 0, recordOf _ aggregates "t" 2 1,
    recordOf _ aggregates "t" 2 2] = _
  simp [recordOf, hrows, row]

end PrioProcessor.L5.Attribution
