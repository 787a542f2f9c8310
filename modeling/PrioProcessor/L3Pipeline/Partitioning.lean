import PrioProcessor.L2Commands.Udf

/-!
# Aggregation does not depend on the partitions

`aggregate` of prio_processor/spark/udf.py reuses one verifier and two verify2
packets for all rows of a group, and a call that raised may have left them half
overwritten. What a row returns still depends on its own contents alone
(`Udf.rowLaw`), so the total share of the groups' rows counts and adds what one
group of all the rows does (`totalShare_partitioning`), for every split of the
rows and every order.
-/
namespace PrioProcessor.L3.Partitioning

open L1 L2

variable {L : Libprio} {V : L1.View L} {a : Args}

/-- Some libprio call raises on the row, when the objects are new. -/
def raises (o : Opened L a) (row : Udf.Joined) : Bool :=
  !((aggregateCalls L o.config row.shares row.internal row.external).exec
    (Round3.new L o.server)).1.toBool

section Raises

variable {o : Opened L a} {f : Udf.Joined → Except PyExc Unit}

theorem returns_eq (hS : V.SetDataLaw) (hf : Udf.RowLaw V o.config o.ident f) :
    Udf.returns f = fun row => !raises o row := by
  funext row
  have hnew : V.ident (Round3.new L o.server).server = o.ident := o.ident_server hS
  unfold Udf.returns raises
  rw [(hf.exec row _ hnew).1, Bool.not_not]

theorem share_of_returns (hf : Udf.RowLaw V o.config o.ident f) {row : Udf.Joined}
    (h : Udf.returns f row = true) : ∃ b, row.shares = some b := by
  unfold Udf.returns at h
  cases hr : f row with
  | error e => rw [hr] at h; cases h
  | ok u => exact hf.share row u hr

end Raises

theorem totalShare_partitioning {O : View.Outcomes L} (hS : V.SetDataLaw) (hO : V.ContentLaw O)
    (hM : V.MergeLaw) (hT : V.TotalLaw) (o : Opened L a) {rows : List Udf.Joined}
    {groups : List (List Udf.Joined)} (hsplit : groups.flatten.Perm rows) :
    ∃ partials single, groups.mapM (Udf.aggregate L a o.seed) = .ok partials ∧
      Udf.aggregate L a o.seed rows = .ok single ∧
      ∀ ps, ps.Perm partials → ∃ total whole, Udf.totalShare L a o.seed ps = .ok total ∧
        Udf.totalShare L a o.seed [single] = .ok whole ∧
        total.payload = whole.payload ∧ total.error = whole.error ∧ total.total = whole.total ∧
        total.total = rows.length ∧ total.error = rows.countP (raises o) ∧
        (∀ row ∈ rows, raises o row = false → ∃ b, row.shares = some b) ∧
        V.WrittenTotal (a.serverId, ((rows.filter fun row => !raises o row).map fun row =>
          V.data o.ident (row.shares.getD [])).sum) total.payload := by
  have hf := Udf.rowLaw hS hO o.config o.ident
  have hret := returns_eq hS hf
  obtain ⟨partials, hmapM, -, hps⟩ := Udf.totalShare_groups o hS hf hM hT hsplit
  -- the same for all the rows in one group
  obtain ⟨w, -, hsingle⟩ := Udf.aggregate_eq o hS hf hM rows
  have hwhole : [rows].flatten.Perm rows := by simp
  obtain ⟨singles, hmapM₁, -, hps₁⟩ := Udf.totalShare_groups o hS hf hM hT hwhole
  simp only [List.mapM_cons, List.mapM_nil, hsingle, ok_bind] at hmapM₁
  cases hmapM₁
  refine ⟨partials, _, hmapM, hsingle, fun ps hperm => ?_⟩
  obtain ⟨v, added, hv, -, htotal⟩ := hps ps hperm
  obtain ⟨v₁, added₁, hv₁, -, htotal₁⟩ := hps₁ _ (.refl _)
  refine ⟨_, _, htotal, htotal₁, hv.1.trans hv₁.1.symm, rfl, rfl, rfl, ?_, fun row _ hr => ?_, ?_⟩
  · simp only [hret, Bool.not_not]
  · exact share_of_returns hf ((congrFun hret row).trans (by simp [hr]))
  · unfold Udf.returnedSum at hv
    rw [hret] at hv
    exact hv

/-- A null share, a share that does not decode, a packet that is not read and
two that do not verify, in two groups and against one. -/
theorem totalShare_partitioning_sample :
    let u : Udf.Joined := ⟨"u", some [3, 4], some [1, 7, 3, 4], some [1, 7, 254, 252]⟩
    let v : Udf.Joined := ⟨"v", some [5, 5], some [1, 8, 5, 5], some [1, 8, 252, 251]⟩
    let rows : List Udf.Joined := [⟨"q", none, none, none⟩, u, ⟨"r", some [9], none, none⟩,
      ⟨"s", some [3, 4], some [1, 7, 3, 4], some []⟩, v, ⟨"t", some [1, 1], some [0], some [0]⟩]
    let groups : List (List Udf.Joined) := [[⟨"t", some [1, 1], some [0], some [0]⟩, v],
      [⟨"r", some [9], none, none⟩, ⟨"s", some [3, 4], some [1, 7, 3, 4], some []⟩, u,
        ⟨"q", none, none, none⟩]]
    ∃ partials single total whole,
      groups.mapM (Udf.aggregate plain Sample.argsA [7]) = .ok partials ∧
      Udf.aggregate plain Sample.argsA [7] rows = .ok single ∧
      Udf.totalShare plain Sample.argsA [7] partials.reverse = .ok total ∧
      Udf.totalShare plain Sample.argsA [7] [single] = .ok whole ∧
      total.payload = whole.payload ∧ total.total = 6 ∧ total.error = 4 ∧
      total.payload = [0, 8, 9] := by
  intro u v rows groups
  have hsplit : groups.flatten.Perm rows := by decide
  obtain ⟨partials, single, hpartials, hsingle, htotal⟩ := totalShare_partitioning
    Plain.plain_setData Plain.plain_aggregate.content Plain.plain_merge Plain.plain_total
    Sample.openedA hsplit
  obtain ⟨total, whole, htot, hwhole, hsame, -, -, hlen, herr, -, hpayload⟩ :=
    htotal partials.reverse (List.reverse_perm partials)
  exact ⟨partials, single, total, whole, hpartials, hsingle, htot, hwhole, hsame, hlen,
    herr.trans (by decide), hpayload.1.trans (by decide)⟩

end PrioProcessor.L3.Partitioning
