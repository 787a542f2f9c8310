import PrioProcessor.L2Commands.Rounds
import PrioProcessor.Core.Table

/-!
# The Spark functions

`verify1`, `verify2`, `aggregate`, `total_share` and `publish` of
`prio_processor/spark/udf.py`. verify1 and verify2 make a new server and a new
verifier for every row; aggregate makes one for each group of rows, and
total_share merges the groups' serialized servers through a single reused
server object.

* `aggregate_eq`: a group's row stands for the sum of the accepted shares of
  the group.
* `totalShare_eq`: the total share stands for the sum over all the groups.
-/
namespace PrioProcessor.L2.Udf

open L1

/-- `except (RuntimeError, ValueError, TypeError)` -/
def catches (e : PyExc) : Bool := e = .runtimeError || e = .valueError || e = .typeError

/-- A row of the joined table. `id` names the row; the function does not read
it. -/
structure Joined where
  id : String
  shares : Option Bytes
  internal : Option Bytes
  external : Option Bytes
  deriving DecidableEq, Repr

/-- The row a group of shares is reduced to. `added` are the ids of the rows
that reached the end of the `try` block. -/
structure Partial where
  added : List String
  payload : Bytes
  error : ℕ
  total : ℕ
  deriving DecidableEq, Repr

section Functions

variable (L : Libprio)

/-- The value of a packet computed in a `try` block that ends in `pass`. -/
def orNone (r : Except PyExc Bytes) : Except PyExc (Option Bytes) :=
  match r with
  | .ok q => .ok (some q)
  | .error e => if catches e then .ok none else .error e

/-- mirrors prio_processor/spark/udf.py:77-96 -/
def verify1Process (a : Args) (sharedSecret : Bytes) (share : Option Bytes) :
    Except PyExc (Option Bytes) := do
  let (_, server) ← openServer L a (.ok sharedSecret)
  orNone ((verify1Calls L share).exec (Round1.new L server)).1

/-- mirrors prio_processor/spark/udf.py:59-100 -/
def verify1 (a : Args) (sharedSecret : Bytes) (shares : List (Option Bytes)) :
    Except PyExc (List (Option Bytes)) :=
  shares.mapM (verify1Process L a sharedSecret)

/-- mirrors prio_processor/spark/udf.py:117-143 -/
def verify2Process (a : Args) (sharedSecret : Bytes) (row : Joined) :
    Except PyExc (Option Bytes) := do
  let (config, server) ← openServer L a (.ok sharedSecret)
  orNone ((verify2Calls L config row.shares row.internal row.external).exec
    (Round2.new L server)).1

/-- mirrors prio_processor/spark/udf.py:103-147 -/
def verify2 (a : Args) (sharedSecret : Bytes) (rows : List Joined) :
    Except PyExc (List (Option Bytes)) :=
  rows.mapM (verify2Process L a sharedSecret)

/-- mirrors prio_processor/spark/udf.py:187-192 -/
def aggregateRow (config : L.Config) (row : Joined) : Eff PyExc (Round3 L) String := do
  aggregateCalls L config row.shares row.internal row.external
  pure row.id

/-- mirrors prio_processor/spark/udf.py:150-199 -/
def aggregate (a : Args) (sharedSecret : Bytes) (pdf : List Joined) : Except PyExc Partial := do
  let (config, server) ← openServer L a (.ok sharedSecret)
  let (ended, l) := forTry catches (aggregateRow L config) pdf (Loop.start (Round3.new L server))
  ended
  let payload ← L.prioServerWrite l.objs.server
  pure ⟨l.out, payload, l.error, l.total⟩

/-- Read one serialized server into `server_i` and merge it into `server`.
mirrors prio_processor/spark/udf.py:229-230 -/
def mergeOne (config : L.Config) (servers : L.Server × L.Server) (payload : Bytes) :
    Except PyExc (L.Server × L.Server) := do
  let read := L.prioServerRead servers.2 payload config
  read.1
  let merged := L.prioServerMerge servers.1 read.2
  merged.1
  pure (merged.2, read.2)

/-- mirrors prio_processor/spark/udf.py:202-242 -/
def totalShare (a : Args) (sharedSecret : Bytes) (pdf : List Partial) : Except PyExc Partial := do
  let (config, server) ← openServer L a (.ok sharedSecret)
  let (server, _) ← (pdf.map Partial.payload).foldlM (mergeOne L config) (server, server)
  let share := L.prioTotalShareSetData L.prioTotalShareNew server
  share.1
  let payload ← L.prioTotalShareWrite share.2
  pure ⟨pdf.flatMap Partial.added, payload, (pdf.map Partial.error).sum,
    (pdf.map Partial.total).sum⟩

/-- mirrors prio_processor/spark/udf.py:258-277 -/
def publishProcess (a : Args) (internal external : Option Bytes) : Except PyExc (List ℕ) := do
  let (_, publicKeyInternal, publicKeyExternal) ←
    importKeys L a.privateKeyHex a.publicKeyHexInternal a.publicKeyHexExternal
  let config := L.prioConfigNew a.nData publicKeyInternal publicKeyExternal a.batchId
  finalCalls L config a.serverId internal external

end Functions

variable {L : Libprio} {V : L1.View L}

/-! ## Rows of verify1 and verify2

A row's server is new, so its evaluation point is the first value of the
stream. -/

section Verify

variable {a : Args} (o : Opened L a)

theorem openServer_secret : openServer L a (.ok o.seed) = .ok (o.config, o.server) := by
  unfold openServer
  rw [o.keys, matchServer_eq]
  rfl

/-- The value of verify1's row for a share. -/
def verify1Value (share : Option Bytes) : Option Bytes :=
  ((verify1Calls L share).exec (Round1.new L o.server)).1.toOption

/-- The value of verify2's row. -/
def verify2Value (row : Joined) : Option Bytes :=
  ((verify2Calls L o.config row.shares row.internal row.external).exec
    (Round2.new L o.server)).1.toOption

theorem orNone_eq {r : Except PyExc Bytes} (h : ∀ e, r = .error e → catches e = true) :
    orNone r = .ok r.toOption := by
  unfold orNone
  cases r with
  | ok q => rfl
  | error e => dsimp only; rw [if_pos (h e rfl)]; rfl

theorem verify1_eq (hS : V.SetDataLaw) (hP : V.PacketLaw) (shares : List (Option Bytes)) :
    verify1 L a o.seed shares = .ok (shares.map (verify1Value o)) := by
  refine mapM_ok fun share _ => ?_
  unfold verify1Process
  rw [openServer_secret o]
  refine orNone_eq fun e he => ?_
  rcases verify1Calls_error (hP.raises hS) he with rfl | he
  · rfl
  · rw [bytesArg_error he]; rfl

theorem verify2_eq (hS : V.SetDataLaw) (hP : V.PacketLaw) (rows : List Joined) :
    verify2 L a o.seed rows = .ok (rows.map (verify2Value o)) := by
  refine mapM_ok fun row _ => ?_
  unfold verify2Process
  rw [openServer_secret o]
  refine orNone_eq fun e he => ?_
  rcases verify2Calls_error (hP.raises hS) he with rfl | he | he | he
  · rfl
  all_goals rw [bytesArg_error he]; rfl

/-- The first value of the server's stream. -/
def point (V : L1.View L) (o : Opened L a) : V.Point := V.stream o.seed 0

theorem held_new (hS : V.SetDataLaw) (hR : V.StreamLaw) (v : L.Verifier) {b : Bytes}
    (hd : V.decodes o.ident b = true) :
    V.held (L.prioVerifierSetData o.server v b).2.2 = some ⟨o.ident, b, point V o⟩ := by
  have hpos : V.pos o.server = 0 := hR.new_pos _ _ _ _
  have hid := o.ident_server hS
  have hheld := hR.held o.server v b (hid ▸ hd)
  rwa [hid, hpos] at hheld

theorem verify1Value_some (hS : V.SetDataLaw) (hP : V.PacketLaw) (hR : V.StreamLaw)
    {share : Option Bytes} {q : Bytes} (h : verify1Value o share = some q) :
    ∃ b, share = some b ∧ V.decodes o.ident b = true ∧ V.Made1 ⟨o.ident, b, point V o⟩ q := by
  unfold verify1Value at h
  cases hc : ((verify1Calls L share).exec (Round1.new L o.server)).1 with
  | error e => rw [hc] at h; cases h
  | ok q' =>
    rw [hc] at h
    cases h
    obtain ⟨b, rfl⟩ := verify1Calls_ok_some hc
    obtain ⟨hd, r, hr, hmade⟩ := verify1Calls_ok hS hP hc
    have hid : V.ident (Round1.new L o.server).server = o.ident := o.ident_server hS
    rw [hid] at hd hr hmade
    have hheld := held_new o hS hR (Round1.new L o.server).verifier hd
    cases hr.symm.trans hheld
    exact ⟨b, rfl, hd, hmade⟩

theorem verify1Value_live (hS : V.SetDataLaw) (hP : V.PacketLaw) (hL : V.LiveLaw) {b : Bytes}
    (hd : V.decodes o.ident b = true) : ∃ q, verify1Value o (some b) = some q := by
  have hid : V.ident (Round1.new L o.server).server = o.ident := o.ident_server hS
  obtain ⟨q, hq⟩ := verify1Calls_live hS hP hL (o := Round1.new L o.server) (b := b) (hid ▸ hd)
  refine ⟨q, ?_⟩
  unfold verify1Value
  rw [hq]; rfl

theorem verify2Value_some (hS : V.SetDataLaw) (hP : V.PacketLaw) (hR : V.StreamLaw) {row : Joined}
    {q : Bytes} (h : verify2Value o row = some q) : ∃ b x y, row.shares = some b ∧
      row.internal = some x ∧ row.external = some y ∧ V.decodes o.ident b = true ∧
      V.Made2 ⟨o.ident, b, point V o⟩ x y q := by
  unfold verify2Value at h
  cases hc : ((verify2Calls L o.config row.shares row.internal row.external).exec
      (Round2.new L o.server)).1 with
  | error e => rw [hc] at h; cases h
  | ok q' =>
    rw [hc] at h
    cases h
    obtain ⟨b, x, y, hb, hx, hy⟩ := verify2Calls_ok_some hc
    rw [hb, hx, hy] at hc
    obtain ⟨hd, r, hr, hmade⟩ := verify2Calls_ok hS hP hc
    have hid : V.ident (Round2.new L o.server).server = o.ident := o.ident_server hS
    rw [hid] at hd hr hmade
    have hheld := held_new o hS hR (Round2.new L o.server).verifier hd
    cases hr.symm.trans hheld
    exact ⟨b, x, y, hb, hx, hy, hd, hmade⟩

/-- verify2 has a value for a row exactly when the share decodes and both
packets are read. -/
def opens (V : L1.View L) (i : Ident L) (row : Joined) : Bool :=
  match row.shares, row.internal, row.external with
  | some b, some x, some y => V.decodes i b && V.reads1 x && V.reads1 y
  | _, _, _ => false

theorem verify2Value_live (hS : V.SetDataLaw) (hP : V.PacketLaw) (hL : V.LiveLaw) {row : Joined}
    (h : opens V o.ident row = true) : ∃ q, verify2Value o row = some q := by
  have hid : V.ident (Round2.new L o.server).server = o.ident := o.ident_server hS
  unfold opens at h
  split at h
  · rename_i b x y hb hx hy
    simp only [Bool.and_eq_true] at h
    obtain ⟨⟨hd, hrx⟩, hry⟩ := h
    obtain ⟨q, hq⟩ := verify2Calls_live hS hP hL o.config (o := Round2.new L o.server)
      (b := b) (hid ▸ hd) hrx hry
    refine ⟨q, ?_⟩
    unfold verify2Value
    rw [hb, hx, hy, hq]; rfl
  · cases h

theorem verify2Value_isSome (hS : V.SetDataLaw) (hP : V.PacketLaw) (hL : V.LiveLaw) (row : Joined) :
    (verify2Value o row).isSome = opens V o.ident row := by
  rw [Bool.eq_iff_iff]
  constructor
  · intro h
    obtain ⟨q, hq⟩ := Option.isSome_iff_exists.1 h
    unfold verify2Value at hq
    cases hc : ((verify2Calls L o.config row.shares row.internal row.external).exec
        (Round2.new L o.server)).1 with
    | error e => rw [hc] at hq; cases hq
    | ok q' =>
      obtain ⟨b, x, y, hb, hx, hy⟩ := verify2Calls_ok_some hc
      rw [hb, hx, hy] at hc
      obtain ⟨hd, -⟩ := verify2Calls_ok hS hP hc
      obtain ⟨hrx, hry⟩ := verify2Calls_reads hL hc
      have hid : V.ident (Round2.new L o.server).server = o.ident := o.ident_server hS
      rw [hid] at hd
      unfold opens
      rw [hb, hx, hy]
      simp only [hd, hrx, hry, Bool.and_self]
  · intro h
    obtain ⟨q, hq⟩ := verify2Value_live o hS hP hL h
    rw [hq]; rfl

end Verify

/-! ## Rows of aggregate

What the calls of a row return is a function of the row; the accumulator takes
the share of each row whose calls return. -/

/-- The row, as the loop emits it. -/
def named (f : Joined → Except PyExc Unit) (row : Joined) : Except PyExc String :=
  (f row).map fun _ => row.id

def returns (f : Joined → Except PyExc Unit) (row : Joined) : Bool := (f row).toBool

/-- The sum of the shares of the rows that return. -/
def returnedSum (V : L1.View L) (i : Ident L) (f : Joined → Except PyExc Unit)
    (rows : List Joined) : ℕ → ZMod V.modulus :=
  ((rows.filter (returns f)).map fun row => V.data i (row.shares.getD [])).sum

/-- Along the server and the accumulator of the objects, a row returns `f`. -/
structure RowLaw (V : L1.View L) (config : L.Config) (i : Ident L)
    (f : Joined → Except PyExc Unit) : Prop where
  caught : ∀ row e, f row = .error e → catches e = true
  share : ∀ row u, f row = .ok u → ∃ b, row.shares = some b
  exec : ∀ row (s : Round3 L), V.ident s.server = i →
    ((aggregateCalls L config row.shares row.internal row.external).exec s).1 = f row ∧
    V.ident ((aggregateCalls L config row.shares row.internal row.external).exec s).2.server = i ∧
    V.acc ((aggregateCalls L config row.shares row.internal row.external).exec s).2.server =
      addShare V i (f row) row.shares (V.acc s.server)

theorem rowLaw {O : View.Outcomes L} (hS : V.SetDataLaw) (hO : V.ContentLaw O) (config : L.Config)
    (i : Ident L) : RowLaw V config i fun row =>
      rowResult V O config i row.shares row.internal row.external where
  caught row e h := by rcases rowResult_error h with rfl | rfl <;> rfl
  share row u h := rowResult_ok h
  exec row s hs := hs ▸ rowCalls_exec hS hO config row.shares row.internal row.external s

theorem emitted_named (f : Joined → Except PyExc Unit) (rows : List Joined) :
    emitted (named f) rows = (rows.filter (returns f)).map Joined.id := by
  induction rows with
  | nil => rfl
  | cons row rows ih =>
    cases hr : f row with
    | error e =>
      have herr : named f row = .error e := by unfold named; rw [hr]; rfl
      have hret : ¬ returns f row = true := by unfold returns; rw [hr]; exact Bool.false_ne_true
      rw [emitted_cons_error herr, List.filter_cons_of_neg hret, ih]
    | ok u =>
      have hok : named f row = .ok row.id := by unfold named; rw [hr]; rfl
      have hret : returns f row = true := by unfold returns; rw [hr]; rfl
      rw [emitted_cons_ok hok, List.filter_cons_of_pos hret, List.map_cons, ih]

theorem raised_named (f : Joined → Except PyExc Unit) (rows : List Joined) :
    raised (named f) rows = rows.countP fun row => !returns f row := by
  unfold raised
  refine List.countP_congr fun row _ => ?_
  unfold named returns
  cases f row <;> exact Iff.rfl

theorem foldl_addShare {config : L.Config} {i : Ident L} {f : Joined → Except PyExc Unit}
    (hf : RowLaw V config i f) (rows : List Joined) (acc : ℕ → ZMod V.modulus) :
    rows.foldl (fun acc row => addShare V i (f row) row.shares acc) acc =
      acc + returnedSum V i f rows := by
  unfold returnedSum
  induction rows generalizing acc with
  | nil => simp
  | cons row rows ih =>
    rw [List.foldl_cons, ih]
    cases hr : f row with
    | error e =>
      have hret : ¬ returns f row = true := by unfold returns; rw [hr]; exact Bool.false_ne_true
      rw [List.filter_cons_of_neg hret]
      rfl
    | ok u =>
      have hret : returns f row = true := by unfold returns; rw [hr]; rfl
      obtain ⟨b, hb⟩ := hf.share row u hr
      rw [List.filter_cons_of_pos hret, List.map_cons, List.sum_cons, hb, ← add_assoc]
      rfl

/-- A row of the loop, along the server and its accumulator. -/
theorem aggregateRow_exec {config : L.Config} {i : Ident L} {f : Joined → Except PyExc Unit}
    (hf : RowLaw V config i f) (row : Joined) {s : Round3 L} (hs : V.ident s.server = i) :
    ((aggregateRow L config row).exec s).1 = named f row ∧
    V.ident ((aggregateRow L config row).exec s).2.server = i ∧
    V.acc ((aggregateRow L config row).exec s).2.server =
      addShare V i (f row) row.shares (V.acc s.server) := by
  obtain ⟨hres, hid, hacc⟩ := hf.exec row s hs
  unfold aggregateRow named
  rw [← hres] at hacc ⊢
  rw [Eff.exec_bind]
  rcases hc : (aggregateCalls L config row.shares row.internal row.external).exec s with ⟨r, s'⟩
  rw [hc] at hid hacc
  cases r with
  | error e => exact ⟨rfl, hid, hacc⟩
  | ok u => exact ⟨rfl, hid, hacc⟩

/-! ### The rows libprio accepts -/

/-- The row is added to the accumulator. -/
def accepts (V : L1.View L) (i : Ident L) (row : Joined) : Bool :=
  (L2.aggregateResult V i row.shares row.internal row.external).toBool

/-- The sum of the shares of the accepted rows. -/
def shareSum (V : L1.View L) (i : Ident L) (rows : List Joined) : ℕ → ZMod V.modulus :=
  ((rows.filter (accepts V i)).map fun row => V.data i (row.shares.getD [])).sum

theorem accepts_iff {i : Ident L} {row : Joined} : accepts V i row = true ↔
    ∃ b x y, row.shares = some b ∧ row.internal = some x ∧ row.external = some y ∧
      V.decodes i b = true ∧ V.reads2 x = true ∧ V.reads2 y = true ∧ V.valid x y = true := by
  unfold accepts
  constructor
  · intro h
    cases hr : L2.aggregateResult V i row.shares row.internal row.external with
    | error e => rw [hr] at h; cases h
    | ok u =>
      obtain ⟨b, x, y, hb, hx, hy⟩ := aggregateResult_ok_some hr
      rw [hb, hx, hy] at hr
      exact ⟨b, x, y, hb, hx, hy, aggregateResult_ok_iff.1 hr⟩
  · rintro ⟨b, x, y, hb, hx, hy, hv⟩
    rw [hb, hx, hy, aggregateResult_ok_iff.2 hv]
    rfl

theorem accepts_eq (config : L.Config) (i : Ident L) :
    accepts V i = returns fun row =>
      rowResult V V.outcomes config i row.shares row.internal row.external := by
  funext row
  unfold accepts returns
  rw [aggregateResult_eq config]

theorem shareSum_eq_returnedSum (config : L.Config) (i : Ident L) (rows : List Joined) :
    shareSum V i rows = returnedSum V i (fun row =>
      rowResult V V.outcomes config i row.shares row.internal row.external) rows := by
  unfold shareSum returnedSum
  rw [accepts_eq config]

/-! ## Groups -/

/-- `w` is a serialized server whose accumulator is `acc`. -/
def WrittenServer (V : L1.View L) (acc : ℕ → ZMod V.modulus) (w : Bytes) : Prop :=
  ∃ s, L.prioServerWrite s = .ok w ∧ V.acc s = acc

theorem WrittenServer.unique (hM : V.MergeLaw) (config : L.Config) {g h : ℕ → ZMod V.modulus}
    {w : Bytes} (hg : WrittenServer V g w) (hh : WrittenServer V h w) : g = h := by
  obtain ⟨s, hs, rfl⟩ := hg
  obtain ⟨t, ht, rfl⟩ := hh
  rw [← (hM.read s s w config hs).2.2, (hM.read s t w config ht).2.2]

theorem returnedSum_perm {i : Ident L} (f : Joined → Except PyExc Unit) {rows rows' : List Joined}
    (h : rows.Perm rows') : returnedSum V i f rows = returnedSum V i f rows' :=
  ((h.filter _).map _).sum_eq

theorem returnedSum_flatten (i : Ident L) (f : Joined → Except PyExc Unit)
    (groups : List (List Joined)) :
    returnedSum V i f groups.flatten = (groups.map (returnedSum V i f)).sum := by
  induction groups with
  | nil => rfl
  | cons rows groups ih =>
    rw [List.map_cons, List.sum_cons, ← ih]
    unfold returnedSum
    rw [List.flatten_cons, List.filter_append, List.map_append, List.sum_append]

/-- The sum of the accepted shares, by id. -/
theorem shareSum_eq {i : Ident L} {rows : List Joined} {f : String → Bytes}
    (h : ∀ row ∈ rows, accepts V i row = true → row.shares = some (f row.id)) :
    shareSum V i rows = (((rows.filter (accepts V i)).map Joined.id).map
      fun id => V.data i (f id)).sum := by
  unfold shareSum
  rw [List.map_map]
  congr 1
  refine List.map_congr_left fun row hr => ?_
  obtain ⟨hm, hacc⟩ := List.mem_filter.1 hr
  rw [Function.comp_apply, h row hm hacc]
  rfl

section Opened

variable {a : Args} (o : Opened L a)

/-- A group's row stands for the sum of the shares of the rows that return. -/
theorem aggregate_eq {f : Joined → Except PyExc Unit} (hS : V.SetDataLaw)
    (hf : RowLaw V o.config o.ident f) (hM : V.MergeLaw) (rows : List Joined) :
    ∃ w, WrittenServer V (returnedSum V o.ident f rows) w ∧
      aggregate L a o.seed rows = .ok ⟨(rows.filter (returns f)).map Joined.id, w,
        rows.countP fun row => !returns f row, rows.length⟩ := by
  have hrow : ∀ row ∈ rows, ∀ (g : ℕ → ZMod V.modulus) (s : Round3 L),
      (V.ident s.server = o.ident ∧ V.acc s.server = g) →
      ((aggregateRow L o.config row).exec s).1 = named f row ∧
      V.ident ((aggregateRow L o.config row).exec s).2.server = o.ident ∧
      V.acc ((aggregateRow L o.config row).exec s).2.server =
        addShare V o.ident (f row) row.shares g := by
    intro row _ g s ⟨hid, hg⟩
    rw [← hg]
    exact aggregateRow_exec hf row hid
  have hcaught : ∀ row ∈ rows, ∀ e, named f row = .error e → catches e = true := by
    intro row _ e he
    cases hr : f row with
    | error e' => unfold named at he; rw [hr] at he; cases he; exact hf.caught row _ hr
    | ok u => unfold named at he; rw [hr] at he; cases he
  obtain ⟨s, hloop, -, hacc⟩ := forTry_along hrow hcaught (s := Round3.new L o.server)
    ⟨o.ident_server hS, hS.new_acc _ _ _ _⟩
  rw [foldl_addShare hf, zero_add] at hacc
  obtain ⟨w, hw⟩ := hM.write s.server
  refine ⟨w, ⟨s.server, hw, hacc⟩, ?_⟩
  unfold aggregate
  rw [openServer_secret o]
  simp only [ok_bind, hloop, hw, emitted_named, raised_named]
  rfl

/-- Merging serialized servers one after the other adds their accumulators. -/
theorem foldlM_mergeOne (hM : V.MergeLaw) (config : L.Config) {acc : Partial → ℕ → ZMod V.modulus}
    {ps : List Partial} (h : ∀ p ∈ ps, WrittenServer V (acc p) p.payload)
    (servers : L.Server × L.Server) : ∃ servers',
      (ps.map Partial.payload).foldlM (mergeOne L config) servers = .ok servers' ∧
      V.ident servers'.1 = V.ident servers.1 ∧
      V.acc servers'.1 = V.acc servers.1 + (ps.map acc).sum := by
  induction ps generalizing servers with
  | nil => exact ⟨servers, rfl, rfl, by simp⟩
  | cons p ps ih =>
    obtain ⟨s₀, hw, hacc⟩ := h p List.mem_cons_self
    obtain ⟨hread, -, hraccs⟩ := hM.read servers.2 s₀ p.payload config hw
    obtain ⟨hmerge, hid, hmacc⟩ := hM.merge servers.1
      (L.prioServerRead servers.2 p.payload config).2
    have hone : mergeOne L config servers p.payload = .ok
        ((L.prioServerMerge servers.1 (L.prioServerRead servers.2 p.payload config).2).2,
          (L.prioServerRead servers.2 p.payload config).2) := by
      unfold mergeOne
      simp only [hread, hmerge, ok_bind]
      rfl
    obtain ⟨servers', hfold, hid', hacc'⟩ := ih (fun q hq => h q (List.mem_cons_of_mem _ hq))
      ((L.prioServerMerge servers.1 (L.prioServerRead servers.2 p.payload config).2).2,
        (L.prioServerRead servers.2 p.payload config).2)
    refine ⟨servers', ?_, hid'.trans hid, ?_⟩
    · rw [List.map_cons, List.foldlM_cons, hone]
      exact hfold
    · rw [hacc', hmacc, hraccs, hacc, List.map_cons, List.sum_cons, add_assoc]

theorem totalShare_eq (hS : V.SetDataLaw) (hM : V.MergeLaw) (hT : V.TotalLaw)
    {acc : Partial → ℕ → ZMod V.modulus} {ps : List Partial}
    (h : ∀ p ∈ ps, WrittenServer V (acc p) p.payload) : ∃ w,
      V.WrittenTotal (a.serverId, (ps.map acc).sum) w ∧
      totalShare L a o.seed ps = .ok ⟨ps.flatMap Partial.added, w, (ps.map Partial.error).sum,
        (ps.map Partial.total).sum⟩ := by
  obtain ⟨⟨s, s'⟩, hfold, hid, hacc⟩ :=
    foldlM_mergeOne hM o.config h (o.server, o.server)
  have hzero : V.acc o.server = 0 := hS.new_acc _ _ _ _
  dsimp only at hid hacc
  rw [hzero, zero_add] at hacc
  obtain ⟨hset, hsum⟩ := hT.set L.prioTotalShareNew s
  rw [hid, o.ident_server hS, hacc] at hsum
  refine ⟨_, ⟨rfl, _, hsum⟩, ?_⟩
  have hwrite := hT.write _ _ hsum
  unfold totalShare
  rw [openServer_secret o]
  simp only [ok_bind, hfold, hset, hwrite]
  rfl

/-- The total share of the rows of any groups is that of their rows together. -/
theorem totalShare_groups {f : Joined → Except PyExc Unit} (hS : V.SetDataLaw)
    (hf : RowLaw V o.config o.ident f) (hM : V.MergeLaw) (hT : V.TotalLaw)
    {groups : List (List Joined)} {rows : List Joined} (hperm : groups.flatten.Perm rows) :
    ∃ partials, groups.mapM (aggregate L a o.seed) = .ok partials ∧
      partials.length = groups.length ∧
      ∀ ps, ps.Perm partials → ∃ w added,
        V.WrittenTotal (a.serverId, returnedSum V o.ident f rows) w ∧
        added.Perm ((rows.filter (returns f)).map Joined.id) ∧
        totalShare L a o.seed ps = .ok ⟨added, w, rows.countP fun row => !returns f row,
          rows.length⟩ := by
  choose w hw hagg using fun rows => aggregate_eq o hS hf hM rows
  let part : List Joined → Partial := fun rows =>
    ⟨(rows.filter (returns f)).map Joined.id, w rows, rows.countP fun row => !returns f row,
      rows.length⟩
  refine ⟨groups.map part, mapM_ok fun rows _ => hagg rows, List.length_map .., fun ps hps => ?_⟩
  have hwritten : ∀ p ∈ ps, ∃ acc, WrittenServer V acc p.payload := by
    intro p hp
    obtain ⟨rows, -, rfl⟩ := List.mem_map.1 (hps.mem_iff.1 hp)
    exact ⟨_, hw rows⟩
  choose! acc hacc using hwritten
  obtain ⟨v, hv, htotal⟩ := totalShare_eq o hS hM hT hacc
  have hsum : (ps.map acc).sum = returnedSum V o.ident f rows := by
    rw [(hps.map acc).sum_eq, List.map_map, ← returnedSum_perm f hperm, returnedSum_flatten]
    congr 1
    refine List.map_congr_left fun rows hr => ?_
    exact (hacc (part rows) (hps.mem_iff.2 (List.mem_map_of_mem hr))).unique hM o.config (hw rows)
  have herror : (ps.map Partial.error).sum = rows.countP fun row => !returns f row := by
    rw [(hps.map _).sum_eq, List.map_map, ← hperm.countP_eq, List.countP_flatten]
    rfl
  have hlength : (ps.map Partial.total).sum = rows.length := by
    rw [(hps.map _).sum_eq, List.map_map, ← hperm.length_eq, List.length_flatten]
    rfl
  have hadded : (ps.flatMap Partial.added).Perm ((rows.filter (returns f)).map Joined.id) := by
    refine (hps.flatMap_right _).trans (.trans (.of_eq ?_) ((hperm.filter _).map _))
    rw [List.flatMap_map, List.flatMap_def, List.filter_flatten, List.map_flatten, List.map_map]
    rfl
  rw [hsum] at hv
  rw [herror, hlength] at htotal
  exact ⟨v, _, hv, hadded, htotal⟩

end Opened

end PrioProcessor.L2.Udf
