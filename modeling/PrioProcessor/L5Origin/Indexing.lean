import PrioProcessor.Core.Python

/-!
# Indexing of the published aggregates

`prio_processor/origin/indexing.py` (`prio-processor index`): the published
vector of a batch `<base>-0` or `<base>-1` becomes one record for each element,
with the origin at its position. The origins of part 0 are those from the start
of the list on, the ones of part 1 those from `n_data` of `<base>-0` on.

The configuration and the origins are what `json.load` returns. A record holds
the values the user-defined function returns for it, and the position of its
origin in the list, which is not stored (`Indexed.position`).

* `offsetOf_ok`: where a part starts (`Starts`).
* `cells_placed`, `placed_returns_iff`: the records of a row of the configuration,
  one for each element that finds an origin, and when it raises.
* `transform_ok`, `transform_returns_iff`: the records of a table.
-/
namespace PrioProcessor.L5.Indexing

open Python

/-- A row of the published aggregates. `extract` reads the JSON without a schema;
its `payload` was written by `publish` as an `array<int>`
(prio_processor/spark/commands.py:441). Any column may be null. -/
structure Aggregate where
  id : Option String
  timestamp : Option String
  batchId : Option String
  payload : Option (List (Option Int32))
  deriving DecidableEq, Repr

/-- The structure of a payload element.
mirrors prio_processor/origin/indexing.py:41-45 -/
structure Indexed where
  batchId : String
  origin : Json
  hash : Json
  index : Json
  aggregate : Option Int32
  /-- the position of its origin in the list -/
  position : ℕ

/-- `select("id", "timestamp", "indexed.*")` -/
structure Record where
  id : Option String
  timestamp : Option String
  indexed : Indexed

/-! ## validate_origins -/

/-- The property, where an item has it, is of its type. -/
def propertyOk (fields : List (String × Json)) (key : String) (type : Json → Bool) : Bool :=
  (Table.lookup Prod.fst fields key).elim true fun f => type f.2

/-- `{"type": "string"}` -/
def isString : Json → Bool
  | .str _ => true
  | _ => false

/-- `{"type": "integer", "minimum": 0}`; a float with an integral value is an
integer to the validator. -/
def isPosition : Json → Bool
  | .int z => 0 ≤ z
  | .float (some z) => 0 ≤ z
  | _ => false

def originOk : Json → Bool
  | .obj fields => propertyOk fields "name" isString && propertyOk fields "hash" isString &&
      propertyOk fields "index" isPosition
  | _ => false

/-- mirrors prio_processor/origin/indexing.py:17-29 -/
def validateOrigins : Json → Except Exc Unit
  | .arr items => if items.all originOk then .ok () else .error .validationError
  | _ => .error .validationError

/-! ## transform -/

/-- `[d["batch_id"] for d in config]` -/
def batchIds (config : Json) : Except Exc (List Json) := do
  let entries ← config.iter
  entries.mapM fun d => d.item "batch_id"

/-- The base and the part of a batch id.
mirrors prio_processor/origin/indexing.py:58-62 -/
def parseBatchId (batchId : Option String) : Except Exc (String × ℤ) := do
  let batchId ← batchId.elim (.error .attributeError) .ok
  match split '-' batchId with
  | [base, part] => do
    let partNum ← (int part).elim (.error .valueError) .ok
    pure (base, partNum)
  | _ => .error .assertionError

/-- Where the origins of a part start.
mirrors prio_processor/origin/indexing.py:64-74 -/
def offsetOf (config : Json) (base : String) (partNum : ℤ) : Except Exc Json :=
  if partNum = 0 then pure (.int 0)
  else if partNum = 1 then do
    let entries ← config.iter
    let firsts ← comprehension (fun d => do
      let batchId ← d.item "batch_id"
      pure (batchId.equals (some (base ++ "-0")))) entries
    let d ← firsts.head?.elim (.error .indexError) .ok
    d.item "n_data"
  else .error .notImplementedError

/-- mirrors prio_processor/origin/indexing.py:78 -/
def structureOf (base : String) (p : (Json × ℕ) × Option Int32) : Except Exc Indexed := do
  let name ← p.1.1.item "name"
  let hash ← p.1.1.item "hash"
  let index ← p.1.1.item "index"
  pure ⟨base, name, hash, index, p.2, p.1.2⟩

/-- mirrors prio_processor/origin/indexing.py:50-80 -/
def applyStructure (config origins : Json) (batchId : Option String)
    (payload : Option (List (Option Int32))) : Except Exc (List Indexed) := do
  let ids ← batchIds config
  if !ids.any fun j => j.equals batchId then pure []
  else
    let (base, partNum) ← parseBatchId batchId
    let offset ← offsetOf config base partNum
    let rest ← sliceFrom origins offset
    let payload ← payload.elim (.error .typeError) .ok
    (rest.zip payload).mapM (structureOf base)

/-- The records of a row.
mirrors prio_processor/origin/indexing.py:82-84 -/
def recordsOf (config origins : Json) (a : Aggregate) : Except Exc (List Record) := do
  let indexed ← applyStructure config origins a.batchId a.payload
  pure (indexed.map fun x => ⟨a.id, a.timestamp, x⟩)

/-- mirrors prio_processor/origin/indexing.py:36-84 -/
def transform (aggregates : List Aggregate) (config origins : Json) :
    Except Exc (List Record) := do
  let rows ← aggregates.mapM (recordsOf config origins)
  pure rows.flatten

/-- The written records.
mirrors prio_processor/origin/indexing.py:107-121 -/
def run (input : List Aggregate) (config origins : Json) : Except Exc (List Record) := do
  validateOrigins origins
  transform input config origins

/-! ## The place of a row -/

/-- The configuration has an entry for the batch id. -/
def Listed (config : Json) (batchId : Option String) : Prop :=
  ∃ ids, batchIds config = .ok ids ∧ ∃ j ∈ ids, j.equals batchId

/-- The batch id names part `n` of `base`. -/
def IsPart (batchId : Option String) (base : String) (n : ℤ) : Prop :=
  ∃ s part, batchId = some s ∧ split '-' s = [base, part] ∧ int part = some n

/-- The entry is the one of part 0 of `base`. -/
def isFirst (base : String) (d : Json) : Bool :=
  (d.item "batch_id").toOption.any fun j => j.equals (some (base ++ "-0"))

/-- The origins of part `n` of `base` start at `offset`. -/
inductive Starts (config : Json) (base : String) : ℤ → Json → Prop
  | first : Starts config base 0 (.int 0)
  | second {entries d offset} : config.iter = .ok entries →
      entries.find? (isFirst base) = some d → d.item "n_data" = .ok offset →
      Starts config base 1 offset

/-- The origins, where they are a list. -/
def items (origins : Json) : List Json := origins.sequence.getD []

/-- A row of the configuration: its part, its payload, and the position of the
origin of its first element. -/
structure Placed (config origins : Json) (a : Aggregate) (base : String) (n : ℤ) (start : ℕ)
    (payload : List (Option Int32)) : Prop where
  listed : Listed config a.batchId
  isPart : IsPart a.batchId base n
  starts : ∃ offset j, Starts config base n offset ∧ origins.sequence = some (items origins) ∧
    offset.asIndex = some j ∧ start = sliceStart (items origins).length j
  payload_eq : a.payload = some payload

/-- The origins of `count` elements from `start` on have the fields that are
read. -/
def Readable (origins : Json) (start count : ℕ) : Prop :=
  ∀ o ∈ ((items origins).drop start).take count, ∀ key ∈ ["name", "hash", "index"],
    ∃ v, o.item key = .ok v

section Place

variable {config origins : Json} {batchId : Option String} {base : String} {n : ℤ} {a : Aggregate}
  {start : ℕ} {payload : List (Option Int32)}

theorem parseBatchId_ok : parseBatchId batchId = .ok (base, n) ↔ IsPart batchId base n := by
  cases batchId with
  | none => exact ⟨fun h => (by cases h), fun ⟨_, _, hb, _⟩ => (by cases hb)⟩
  | some s =>
    unfold parseBatchId
    rw [Option.elim_some, ok_bind]
    refine ⟨fun h => ?_, fun ⟨_, part, hb, hs, hp⟩ => ?_⟩
    · split at h
      next b part hs =>
        obtain ⟨m, hm, hpure⟩ := bind_ok h
        cases hp : int part with
        | none => rw [hp] at hm; cases hm
        | some k => rw [hp] at hm; cases hm; cases hpure; exact ⟨s, part, rfl, hs, hp⟩
      next => cases h
    · cases hb
      rw [hs]
      dsimp only
      rw [hp]
      rfl

theorem IsPart.unique {base' : String} {n' : ℤ} (h : IsPart batchId base n)
    (h' : IsPart batchId base' n') : base = base' ∧ n = n' := by
  obtain ⟨s, part, hb, hs, hp⟩ := h
  obtain ⟨s', part', hb', hs', hp'⟩ := h'
  cases hb.symm.trans hb'
  cases hs.symm.trans hs'
  cases hp.symm.trans hp'
  exact ⟨rfl, rfl⟩

theorem starts_zero {offset : Json} : Starts config base 0 offset ↔ offset = .int 0 := by
  refine ⟨fun h => ?_, fun h => h ▸ .first⟩
  generalize hn : (0 : ℤ) = n at h
  cases h with
  | first => rfl
  | second => omega

theorem starts_one {offset : Json} : Starts config base 1 offset ↔
    ∃ entries d, config.iter = .ok entries ∧ entries.find? (isFirst base) = some d ∧
      d.item "n_data" = .ok offset := by
  refine ⟨fun h => ?_, fun ⟨_, _, hiter, hd, ho⟩ => .second hiter hd ho⟩
  generalize hn : (1 : ℤ) = n at h
  cases h with
  | first => omega
  | second hiter hd ho => exact ⟨_, _, hiter, hd, ho⟩

/-- The entries of part 0 that the comprehension finds. -/
theorem firsts_eq {entries : List Json} (h : ∀ d ∈ entries, ∃ j, d.item "batch_id" = .ok j) :
    comprehension (fun d => do
      let batchId ← d.item "batch_id"
      pure (batchId.equals (some (base ++ "-0")))) entries =
        .ok (entries.filter (isFirst base)) := by
  refine comprehension_ok fun d hd => ?_
  obtain ⟨j, hj⟩ := h d hd
  unfold isFirst
  rw [hj, ok_bind]
  rfl

theorem offsetOf_ok {ids : List Json} (h : batchIds config = .ok ids) {offset : Json} :
    offsetOf config base n = .ok offset ↔ Starts config base n offset := by
  obtain ⟨entries, hiter, hids⟩ := bind_ok h
  unfold offsetOf
  by_cases h0 : n = 0
  · subst h0
    rw [if_pos rfl, starts_zero]
    exact ⟨fun h => (by cases h; rfl), fun h => h ▸ rfl⟩
  by_cases h1 : n = 1
  · subst h1
    rw [if_neg h0, if_pos rfl, hiter, ok_bind, firsts_eq (exists_mapM_ok.1 ⟨ids, hids⟩), ok_bind,
      List.head?_filter, starts_one]
    cases hd : entries.find? (isFirst base) with
    | none =>
      refine ⟨fun h => (by cases h), fun ⟨_, _, hiter', hd', _⟩ => ?_⟩
      rw [hiter] at hiter'
      cases hiter'
      rw [hd] at hd'
      cases hd'
    | some d =>
      rw [Option.elim_some, ok_bind]
      refine ⟨fun ho => ⟨entries, d, hiter, hd, ho⟩, fun ⟨_, _, hiter', hd', ho⟩ => ?_⟩
      rw [hiter] at hiter'
      cases hiter'
      rw [hd] at hd'
      cases hd'
      exact ho
  · rw [if_neg h0, if_neg h1]
    refine ⟨fun h => (by cases h), fun h => ?_⟩
    cases h with
    | first => exact absurd rfl h0
    | second => exact absurd rfl h1

theorem structureOf_ok {p : (Json × ℕ) × Option Int32} {x : Indexed} :
    structureOf base p = .ok x ↔ ∃ name hash index, p.1.1.item "name" = .ok name ∧
      p.1.1.item "hash" = .ok hash ∧ p.1.1.item "index" = .ok index ∧
      x = ⟨base, name, hash, index, p.2, p.1.2⟩ := by
  refine ⟨fun h => ?_, fun ⟨name, hash, index, hn, hh, hi, hx⟩ => ?_⟩
  · obtain ⟨name, hn, h⟩ := bind_ok h
    obtain ⟨hash, hh, h⟩ := bind_ok h
    obtain ⟨index, hi, h⟩ := bind_ok h
    cases h
    exact ⟨name, hash, index, hn, hh, hi, rfl⟩
  · unfold structureOf
    rw [hn, ok_bind, hh, ok_bind, hi, ok_bind, hx]
    rfl

/-- A placed row gives each of its elements to the next origin of its part. -/
theorem applyStructure_placed (h : Placed config origins a base n start payload) :
    applyStructure config origins a.batchId a.payload =
      (((items origins).zipIdx.drop start).zip payload).mapM (structureOf base) := by
  obtain ⟨⟨ids, hids, hlisted⟩, hpart, ⟨offset, j, hoffset, hseq, hj, rfl⟩, hpayload⟩ := h
  have hslice : sliceFrom origins offset =
      .ok ((items origins).zipIdx.drop (sliceStart (items origins).length j)) :=
    sliceFrom_ok.2 ⟨_, j, hseq, hj, rfl⟩
  have hany : (!ids.any fun j => j.equals a.batchId) = false := by simpa using hlisted
  unfold applyStructure
  rw [hids, ok_bind, hany, parseBatchId_ok.2 hpart, ok_bind, if_neg Bool.false_ne_true]
  dsimp only
  rw [(offsetOf_ok hids).2 hoffset, ok_bind, hslice, ok_bind, hpayload]
  rfl

theorem applyStructure_unlisted {ids : List Json} (h : batchIds config = .ok ids)
    (hl : ¬ Listed config batchId) (p : Option (List (Option Int32))) :
    applyStructure config origins batchId p = .ok [] := by
  have hany : (!ids.any fun j => j.equals batchId) = true := by
    simp only [Bool.not_eq_eq_eq_not, Bool.not_true, Bool.eq_false_iff]
    exact fun hex => hl ⟨ids, h, List.any_eq_true.1 hex⟩
  unfold applyStructure
  rw [h, ok_bind, hany]
  rfl

/-- A row of the configuration that does not raise is placed. -/
theorem exists_placed (hl : Listed config a.batchId) {recs : List Indexed}
    (h : applyStructure config origins a.batchId a.payload = .ok recs) :
    ∃ base n start payload, Placed config origins a base n start payload := by
  obtain ⟨ids, hids, hlisted⟩ := hl
  have hany : (!ids.any fun j => j.equals a.batchId) = false := by simpa using hlisted
  unfold applyStructure at h
  rw [hids, ok_bind, hany] at h
  obtain ⟨⟨base, n⟩, hparse, h⟩ := bind_ok h
  obtain ⟨offset, hoffset, h⟩ := bind_ok h
  obtain ⟨rest, hrest, h⟩ := bind_ok h
  obtain ⟨payload, hpayload, -⟩ := bind_ok h
  obtain ⟨seq, j, hseq, hj, -⟩ := sliceFrom_ok.1 hrest
  refine ⟨base, n, _, payload, ⟨ids, hids, hlisted⟩, parseBatchId_ok.1 hparse,
    ⟨offset, j, (offsetOf_ok hids).1 hoffset, ?_, hj, rfl⟩, ?_⟩
  · unfold items
    rw [hseq]
    rfl
  · cases hp : a.payload with
    | none => rw [hp] at hpayload; cases hpayload
    | some xs => rw [hp] at hpayload; cases hpayload; rfl

/-- The elements of a placed row that get a record, and their positions. -/
theorem cells_placed (h : Placed config origins a base n start payload) {recs : List Indexed}
    (hr : applyStructure config origins a.batchId a.payload = .ok recs) :
    recs.map (fun x => (x.aggregate, x.position)) =
      (payload.take ((items origins).length - start)).zipIdx start := by
  rw [applyStructure_placed h] at hr
  have hpairs : List.Forall₂ (fun x p => (x.aggregate, x.position) = (p.2, p.1.2)) recs
      (((items origins).zipIdx.drop start).zip payload) := by
    refine (mapM_eq_ok.1 hr).flip.imp fun x p hx => ?_
    obtain ⟨name, hash, index, -, -, -, rfl⟩ := structureOf_ok.1 hx
    rfl
  rw [← zip_slice, ← List.forall₂_eq_eq_eq, List.forall₂_map_left_iff, List.forall₂_map_right_iff]
  exact hpairs

/-- A placed row does not raise exactly when its origins have the fields that
are read. -/
theorem placed_returns_iff (h : Placed config origins a base n start payload) :
    (∃ recs, applyStructure config origins a.batchId a.payload = .ok recs) ↔
      Readable origins start payload.length := by
  rw [applyStructure_placed h, exists_mapM_ok]
  unfold Readable
  rw [← zip_slice_items, List.forall_mem_map]
  refine forall₂_congr fun p _ => ?_
  simp only [structureOf_ok, List.forall_mem_cons, List.not_mem_nil, false_imp_iff, implies_true,
    and_true]
  refine ⟨fun ⟨_, name, hash, index, hn, hh, hi, _⟩ => ⟨⟨name, hn⟩, ⟨hash, hh⟩, ⟨index, hi⟩⟩,
    fun ⟨⟨name, hn⟩, ⟨hash, hh⟩, ⟨index, hi⟩⟩ => ⟨_, name, hash, index, hn, hh, hi, rfl⟩⟩

end Place

/-! ## The records of a table -/

section Table

variable {config origins : Json} {aggregates : List Aggregate} {out : List Record}

theorem recordsOf_ok {a : Aggregate} {recs : List Record} : recordsOf config origins a = .ok recs ↔
    ∃ xs, applyStructure config origins a.batchId a.payload = .ok xs ∧
      recs = xs.map fun x => ⟨a.id, a.timestamp, x⟩ := by
  refine ⟨fun h => ?_, fun ⟨xs, hxs, hr⟩ => ?_⟩
  · obtain ⟨xs, hxs, h⟩ := bind_ok h
    cases h
    exact ⟨xs, hxs, rfl⟩
  · unfold recordsOf
    rw [hxs, ok_bind, hr]
    rfl

/-- The records of a table are those of its rows. -/
theorem transform_ok : transform aggregates config origins = .ok out ↔
    ∃ rows, List.Forall₂ (fun a recs => recordsOf config origins a = .ok recs) aggregates rows ∧
      out = rows.flatten := by
  refine ⟨fun h => ?_, fun ⟨rows, hrows, hout⟩ => ?_⟩
  · obtain ⟨rows, hrows, h⟩ := bind_ok h
    cases h
    exact ⟨rows, mapM_eq_ok.1 hrows, rfl⟩
  · unfold transform
    rw [mapM_eq_ok.2 hrows, ok_bind, hout]
    rfl

/-- A table does not raise exactly when none of its rows does. -/
theorem transform_returns_iff : (∃ out, transform aggregates config origins = .ok out) ↔
    ∀ a ∈ aggregates, ∃ recs, applyStructure config origins a.batchId a.payload = .ok recs := by
  have hrow : ∀ a, (∃ recs, recordsOf config origins a = .ok recs) ↔
      ∃ recs, applyStructure config origins a.batchId a.payload = .ok recs := by
    simp [recordsOf_ok]
  simp only [← hrow, ← exists_mapM_ok, transform_ok, mapM_eq_ok]
  simp

end Table

end PrioProcessor.L5.Indexing
