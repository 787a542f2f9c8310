import PrioProcessor.L6Exchange.Exchange

/-!
# What the two servers agree on

The exchange is a lockstep of three rounds for each client: a server opens the
client, answers the other server's verify1 packet and closes it on the other
server's verify2 packet. Packets taken too early and put back are not seen in
it.

* `exchange_lockstep`: every run of the exchange, in any order of delivery and
  with any shares, is a run of the lockstep.
* `exchange_skew`: so the servers are never more than one round of a client
  apart.
* `exchange_safe`: a server aggregates a share once, only where the two shares
  are halves of a client vector, never where the other server found the client
  invalid, and its accumulator is the sum of the shares aggregated.
* `complete_total`: once every client is closed at both servers, their total
  shares open to the sum of the vectors of the clients aggregated.
-/
namespace PrioProcessor.L6

open L1 L1.Wrapper Mailbox Lockstep

variable {L : Libprio} {ι : Type} [DecidableEq ι]

/-- The rounds done for each client at each server. -/
def rounds (node : ServerId → Node L ι) : Lockstep.St ServerId ι := fun p u => (node p).round u

section Rounds

variable {n n' : Node L ι} {u w : ι} {c : Cached L} {o : PacketVerify2 L} {p : ServerId}
  {node : ServerId → Node L ι}

theorem round_none (h : n.cache u = none) : n.round u = 0 := by simp [Node.round, h]

theorem round_opened (h : n.cache u = some c) (hc : c.p2 = none) : n.round u = 1 := by
  simp [Node.round, h, hc]

theorem round_answered (h : n.cache u = some c) (hc : c.p2 = some o) (hu : u ∉ n.closed) :
    n.round u = 2 := by simp [Node.round, h, hc, hu]

theorem round_closed (h : n.cache u = some c) (hc : c.p2 = some o) (hu : u ∈ n.closed) :
    n.round u = 3 := by simp [Node.round, h, hc, hu]

theorem round_pos (h : n.cache u = some c) : 1 ≤ n.round u := by
  simp only [Node.round, h]
  split_ifs <;> omega

theorem round_two (h : n.sent2 u = some o) : 2 ≤ n.round u := by
  simp only [Node.sent2, Option.bind_eq_some_iff] at h
  obtain ⟨c, hc, hp2⟩ := h
  simp only [Node.round, hc, hp2]
  split_ifs <;> simp_all

theorem round_congr (hc : n'.cache w = n.cache w) (hcl : w ∈ n'.closed ↔ w ∈ n.closed) :
    n'.round w = n.round w := by
  unfold Node.round
  rw [hc]
  split
  · rfl
  · simp only [hcl]

theorem rounds_update (hu : n'.round u = (node p).round u + 1)
    (hw : ∀ w, w ≠ u → n'.round w = (node p).round w) :
    rounds (Function.update node p n') = advance (rounds node) p u := by
  funext q w
  unfold rounds
  rcases eq_or_eq_other p q with rfl | rfl
  · rw [Function.update_self]
    by_cases hwu : w = u
    · subst hwu
      rw [hu, advance_self]
    · rw [hw w hwu, advance_item _ hwu]
  · rw [update_other, advance_party w (otherServer_ne p)]

end Rounds

section Run

variable {V : View L} {S : Setup L} {ids : List ι} {share : ServerId → ι → Bytes} {s t : Sys L ι}

/-- Handling a packet is a round of its client, unless the share does not
decode. -/
theorem moves_rounds (h : Inv V S ids share s) (hm : Moves V S share s t) :
    (∃ l, l.2 ∈ ids ∧ (lockstep otherServer 3).step (rounds s.node) l (rounds t.node)) ∨
      (rounds t.node = rounds s.node ∧
        ∃ p, ∃ u ∈ ids, V.decodes (S.ident p) (share p u) ≠ true) := by
  cases hm with
  | opens p u c server r x hnode _ hout hin _ hc =>
    obtain ⟨-, hu, hcache⟩ := (h.wires p).data u _ (hout.mem_iff.2 (.head _))
    have hzero : rounds s.node p u = 0 := round_none hcache
    refine .inl ⟨(p, u), hu, ⟨by rw [hzero]; omega, by rw [hzero]; exact Nat.zero_le _⟩, ?_⟩
    rw [hnode]
    refine rounds_update ?_ fun w hwu => round_congr ?_ ?_
    · rw [round_opened store_cache_self hc, round_none hcache]
    · rw [store_cache_other hwu]
      rfl
    · exact iff_of_eq (congrArg (w ∈ ·) (closed_logged.trans (by simp)))
  | fails p u hnode _ hout _ hd =>
    obtain ⟨-, hu, -⟩ := (h.wires p).data u _ (hout.mem_iff.2 (.head _))
    refine .inr ⟨?_, p, u, hu, hd⟩
    rw [hnode]
    funext q w
    unfold rounds
    rcases eq_or_eq_other p q with rfl | rfl
    · rw [Function.update_self]
      exact round_congr rfl (iff_of_eq (congrArg (w ∈ ·) (closed_logged.trans (by simp))))
    · rw [update_other]
  | answers p u c c' o r r' x y q hnode _ hout hin hcache hcache' =>
    obtain ⟨hnone, -⟩ := (h.wires p).verify1 u _ (hout.mem_iff.2 (.head _))
    have hc : c.p2 = none := by simpa [Node.sent2, hcache] using hnone
    have hone : rounds s.node p u = 1 := round_opened hcache hc
    have hopen : u ∉ (s.node p).closed := fun hcl => by
      obtain ⟨o, ho⟩ := h.nodes.closed_sent2 hcl p
      rw [hnone] at ho
      cases ho
    refine .inl ⟨(p, u), (h.nodes.opened p u c hcache).1,
      ⟨by rw [hone]; omega, by rw [hone]; exact round_pos hcache'⟩, ?_⟩
    have hclosed : (((s.node p).logged u .generateVerify2).store u
        { c with p2 := some o }).closed = (s.node p).closed := closed_logged.trans (by simp)
    rw [hnode]
    refine rounds_update ?_ fun w hwu => round_congr ?_ (by rw [hclosed])
    · rw [round_answered store_cache_self rfl (by rwa [hclosed]), round_opened hcache hc]
    · rw [store_cache_other hwu]
      rfl
  | closes p u c o o' b hnode _ hout hin hcache hp2 =>
    obtain ⟨hopen, hsent⟩ := (h.wires p).verify2 u _ (hout.mem_iff.2 (.head _))
    have htwo : rounds s.node p u = 2 := round_answered hcache hp2 hopen
    refine .inl ⟨(p, u), (h.nodes.opened p u c hcache).1,
      ⟨by rw [htwo]; omega, by rw [htwo]; exact round_two hsent⟩, ?_⟩
    have hcl : ∀ w, w ∈ (if b then { (s.node p).logged u .aggregateData with
          server := (aggregate L (s.node p).server c.v).2 }
        else (s.node p).logged u .invalidData).closed ↔ w ∈ (s.node p).closed ∨ w = u := fun w => by
      cases b
      · rw [if_neg Bool.false_ne_true, closed_logged]
        simp
      · refine (iff_of_eq (congrArg (w ∈ ·) (closed_logged (n := s.node p)))).trans ?_
        simp
    rw [hnode]
    refine rounds_update ?_ fun w hwu => round_congr (by cases b <;> rfl) ?_
    · rw [round_closed (c := c) (o := o) (by cases b <;> exact hcache) hp2 ((hcl u).2 (.inr rfl)),
        round_answered hcache hp2 hopen]
    · rw [hcl w]
      exact or_iff_left hwu

/-- Every run of the exchange is a run of the lockstep of three rounds. -/
theorem run_lockstep (hV : Laws V) {ls : List (Label ServerId)}
    (hr : (exchange S ids share).Run s ls t) (h : Inv V S ids share s) :
    ∃ ls', (lockstep otherServer 3).Run (rounds s.node) ls' (rounds t.node) := by
  induction hr with
  | nil s => exact ⟨[], .nil _⟩
  | cons hst _ ih =>
    have he := step_effect hV h hst
    obtain ⟨ls', hrun⟩ := ih (he.inv hV h)
    cases he with
    | idle hnode => exact ⟨ls', hnode ▸ hrun⟩
    | moves hm =>
      rcases moves_rounds h hm with ⟨l, -, hstep⟩ | ⟨heq, -⟩
      · exact ⟨l :: ls', .cons hstep hrun⟩
      · exact ⟨ls', heq ▸ hrun⟩

/-- Whatever the order of delivery and the shares, the servers go through three
rounds of each client in lockstep. -/
theorem exchange_lockstep (hV : Laws V) (hnd : ids.Nodup)
    (hr : (exchange S ids share).Reachable s) :
    (lockstep otherServer 3).Reachable (rounds s.node) := by
  obtain ⟨s₀, ls, rfl, hrun⟩ := hr
  obtain ⟨ls', hrun'⟩ := run_lockstep hV hrun (inv_start hV hnd)
  exact ⟨_, ls', rfl, hrun'⟩

theorem exchange_lockstep_sample : ∃ s : Sys plain ℕ,
    rounds s.node .A 2 = 1 ∧ rounds s.node .B 2 = 2 ∧
      (lockstep otherServer 3).Reachable (rounds s.node) := by
  obtain ⟨s, hreach, hobs⟩ := Sample.reached
    (Sample.posts ++ [.take .A 2, .take .B 1, .take .B 1, .take .B 1])
    (fun s => (rounds s.node .A 2, rounds s.node .B 2)) (a := (1, 2)) (by decide +kernel)
  exact ⟨s, congrArg Prod.fst hobs, congrArg Prod.snd hobs,
    exchange_lockstep plain_laws (by decide) hreach⟩

/-- No client is more than one round further at a server than at the other. -/
theorem exchange_skew (hV : Laws V) (hnd : ids.Nodup) (hr : (exchange S ids share).Reachable s) :
    Skew otherServer 3 (rounds s.node) := by
  obtain ⟨s₀, ls, rfl, hrun⟩ := hr
  obtain ⟨ls', hrun'⟩ := run_lockstep hV hrun (inv_start hV hnd)
  exact skew.reachable _ ⟨_, ls', rfl, hrun'⟩

end Run

/-! ## What is aggregated -/

section Safety

variable {V : View L} {S : Setup L} {ids : List ι} {share : ServerId → ι → Bytes} {s : Sys L ι}
  {node : ServerId → Node L ι} {p : ServerId} {u : ι} {n : ℕ} {b : Bool}

/-- Where the packets of a verdict come from: each server made both of its own
from the share it was sent and from the other's verify1 packet. -/
structure Exchanged (V : View L) (S : Setup L) (share : ServerId → ι → Bytes)
    (node : ServerId → Node L ι) (p : ServerId) (u : ι) (r r' : V.Point) (q q' : Bytes) : Prop where
  held : ∃ c, (node p).cache u = some c ∧ V.held c.v.inst = some ⟨S.ident p, share p u, r⟩
  held' : ∃ c, (node (otherServer p)).cache u = some c ∧
    V.held c.v.inst = some ⟨S.ident (otherServer p), share (otherServer p) u, r'⟩
  made : ∃ x y, V.Made1 ⟨S.ident p, share p u, r⟩ x ∧
    V.Made1 ⟨S.ident (otherServer p), share (otherServer p) u, r'⟩ y ∧
    V.Made2 ⟨S.ident p, share p u, r⟩ x y q ∧
    V.Made2 ⟨S.ident (otherServer p), share (otherServer p) u, r'⟩ y x q'

omit [DecidableEq ι] in
theorem Nodes.exchanged (h : Nodes V S ids share node) (hv : verdict V node p u = some b) :
    ∃ r r' q q', Exchanged V S share node p u r r' q q' ∧ V.valid q q' = b := by
  simp only [verdict, Option.bind_eq_bind, Option.bind_eq_some_iff] at hv
  obtain ⟨o, ho, o', ho', z, hz, z', hz', hb⟩ := hv
  simp only [Node.sent2, Option.bind_eq_some_iff] at ho ho'
  obtain ⟨c, hc, hp2⟩ := ho
  obtain ⟨c', hc', hp2'⟩ := ho'
  obtain ⟨_, r, x, r', y, q, hd, hx, hy, hans⟩ := h.answered p u c o hc hp2
  obtain ⟨_, r₁', y₁, r₁, x₁, q', hd', hy₁, hx₁, hans'⟩ := h.answered _ u c' o' hc' hp2'
  rw [otherServer_otherServer] at hd' hx₁
  cases hc'.symm.trans hd
  cases hc.symm.trans hd'
  -- both servers read the same entries
  cases hx.held.symm.trans hx₁.held
  cases hy.held.symm.trans hy₁.held
  cases hx.seen.symm.trans hx₁.seen
  cases hy.seen.symm.trans hy₁.seen
  cases hz.symm.trans hans.seen
  cases hz'.symm.trans hans'.seen
  exact ⟨r, r', z, z', ⟨⟨c, hc, hx.held⟩, ⟨c', hc', hy.held⟩,
    x, y, hx.made, hy.made, hans.made, hans'.made⟩, Option.some.inj hb⟩

omit [DecidableEq ι] in
/-- The verdict on a client is the same at both servers, as server A sees it. -/
theorem verdict_A (hsymm : V.SymmLaw) (p : ServerId) (u : ι) :
    verdict V node .A u = verdict V node p u := by
  cases p with
  | A => rfl
  | B => exact (verdict_symm hsymm .A u).symm

omit [DecidableEq ι] in
theorem Nodes.halves (h : Nodes V S ids share node) (hsymm : V.SymmLaw)
    (hsound : V.SoundLaw n (S.ident .A) (S.ident .B)) (hu : u ∈ (node p).added) :
    ∃ x, V.Halves n (S.ident .A) (S.ident .B) (share .A u) (share .B u) x := by
  have hv := h.added p u hu
  rw [← verdict_A hsymm] at hv
  obtain ⟨r, r', q, q', ⟨-, -, x, y, hx, hy, hq, hq'⟩, hvalid⟩ := h.exchanged hv
  exact hsound _ _ r r r' r' x y q q' hx hy hq hq' hvalid

omit [DecidableEq ι] in
theorem Nodes.agree (h : Nodes V S ids share node) (hsymm : V.SymmLaw) (hu : u ∈ (node p).added)
    (hcl : u ∈ (node (otherServer p)).closed) : u ∈ (node (otherServer p)).added := by
  rcases mem_closed.1 hcl with hl | hl
  · exact mem_added.2 hl
  · have hfalse := h.invalid _ u hl
    rw [verdict_symm hsymm, h.added p u hu] at hfalse
    cases hfalse

omit [DecidableEq ι] in
theorem added_nodup {m : Node L ι} (h : m.closed.Nodup) : m.added.Nodup := by
  have hsub : m.added.Sublist m.closed := by
    unfold Node.added Node.closed
    induction m.log with
    | nil => exact .slnil
    | cons x log ih =>
      by_cases hx : x.2 = .aggregateData
      · simpa [List.filterMap_cons, hx] using ih
      · by_cases hy : x.2 = .invalidData
        · simpa [List.filterMap_cons, hx, hy] using ih.cons _
        · simpa [List.filterMap_cons, hx, hy] using ih
  exact hsub.nodup h

/-- In every order of delivery: no share is aggregated twice, what is aggregated
are halves of client vectors, the servers do not disagree on a client both have
closed, and each accumulator is the sum of the shares aggregated. -/
theorem exchange_safe (hV : Laws V) (hsymm : V.SymmLaw)
    (hsound : V.SoundLaw n (S.ident .A) (S.ident .B)) (hnd : ids.Nodup)
    (hr : (exchange S ids share).Reachable s) :
    (∀ p, (s.node p).added.Nodup) ∧
    (∀ p, ∀ u ∈ (s.node p).added,
      ∃ x, V.Halves n (S.ident .A) (S.ident .B) (share .A u) (share .B u) x) ∧
    (∀ p, ∀ u ∈ (s.node p).added,
      u ∈ (s.node (otherServer p)).closed → u ∈ (s.node (otherServer p)).added) ∧
    ∀ p, V.acc (s.node p).server.inst =
      ((s.node p).added.map fun u => V.data (S.ident p) (share p u)).sum := by
  have h := ((inv_reachable hV hnd).reachable s hr).nodes
  exact ⟨fun p => added_nodup (h.once p), fun p u hu => h.halves hsymm hsound hu,
    fun p u hu hcl => h.agree hsymm hu hcl, h.acc⟩

theorem exchange_safe_sample : ∃ s : Sys plain ℕ,
    (s.node .A).added = [1] ∧ (s.node .B).closed = [2, 1] ∧
      ∃ x, plainView.Halves 2 (Sample.setup.ident .A) (Sample.setup.ident .B)
        (Sample.share .A 1) (Sample.share .B 1) x := by
  obtain ⟨s, hreach, hobs⟩ := Sample.reached (Sample.posts ++ Sample.reversed)
    (fun s => ((s.node .A).added, (s.node .B).closed)) (a := ([1], [2, 1])) (by decide +kernel)
  have hadded : (s.node .A).added = [1] := congrArg Prod.fst hobs
  obtain ⟨-, hhalves, -, -⟩ := exchange_safe plain_laws Plain.plain_symm
    (Plain.plain_sound _ _) (by decide) hreach
  exact ⟨s, hadded, congrArg Prod.snd hobs, hhalves .A 1 (by rw [hadded]; decide)⟩

/-! ## The output -/

variable (L) in
/-- mirrors examples/asyncio/main.py:110-113 -/
def output (config : L.Config) (node : ServerId → Node L ι) : Except PyExc (List ℕ) := do
  let tA ← totalShares L (node .A).server.inst
  let tB ← totalShares L (node .B).server.inst
  totalShareFinal L config tA tB

omit [DecidableEq ι] in
theorem totalShares_eq (hT : V.TotalLaw) (s : L.Server) : ∃ t, totalShares L s = .ok t ∧
    t.pending = none ∧ V.summed t.value = some ((V.ident s).id, V.acc s) := by
  obtain ⟨hset, hsum⟩ := hT.set L.prioTotalShareNew s
  refine ⟨⟨_, none⟩, ?_, rfl, hsum⟩
  simp only [totalShares, hset, ok_bind, pure, Except.pure]

omit [DecidableEq ι] in
/-- The output is the sum of the two accumulators. -/
theorem output_eq (hT : V.TotalLaw) (h : Nodes V S ids share node) (config : L.Config) :
    output L config node = .ok ((List.range (L.prioConfigNumDataFields config)).map fun j =>
      (V.acc (node .A).server.inst j + V.acc (node .B).server.inst j).val) := by
  obtain ⟨tA, hA, hpA, hsA⟩ := totalShares_eq hT (node .A).server.inst
  obtain ⟨tB, hB, hpB, hsB⟩ := totalShares_eq hT (node .B).server.inst
  rw [h.ident] at hsA hsB
  simp only [output, hA, hB, ok_bind, totalShareFinal, deserialize_none _ hpA,
    deserialize_none _ hpB]
  exact hT.final config _ _ _ _ hsA hsB

omit [DecidableEq ι] in
theorem Nodes.total (h : Nodes V S ids share node) (hsymm : V.SymmLaw)
    (hsound : V.SoundLaw n (S.ident .A) (S.ident .B)) (hT : V.TotalLaw)
    (hclosed : ∀ u, u ∈ (node .A).closed ↔ u ∈ (node .B).closed) {config : L.Config}
    (hconfig : L.prioConfigNumDataFields config = n) :
    ∃ client : ι → Bytes, (∀ u ∈ (node .A).added,
        V.Halves n (S.ident .A) (S.ident .B) (share .A u) (share .B u) (client u)) ∧
      output L config node = .ok ((List.range n).map fun j =>
        ((node .A).added.map fun u => field (client u) j).sum % V.modulus) := by
  have hclient : ∀ u, ∃ x, u ∈ (node .A).added →
      V.Halves n (S.ident .A) (S.ident .B) (share .A u) (share .B u) x := fun u => by
    by_cases hu : u ∈ (node .A).added
    · obtain ⟨x, hx⟩ := h.halves hsymm hsound hu
      exact ⟨x, fun _ => hx⟩
    · exact ⟨[], fun hu' => absurd hu' hu⟩
  choose client hclient using hclient
  refine ⟨client, hclient, ?_⟩
  have hperm : (node .B).added.Perm (node .A).added := by
    refine (List.perm_ext_iff_of_nodup (added_nodup (h.once _)) (added_nodup (h.once _))).2
      fun u => ?_
    exact ⟨fun hu => h.agree hsymm hu ((hclosed u).2 (added_subset_closed hu)),
      fun hu => h.agree hsymm hu ((hclosed u).1 (added_subset_closed hu))⟩
  rw [output_eq hT h, hconfig, h.acc, h.acc, (hperm.map _).sum_eq]
  congr 1
  refine List.map_congr_left fun j hj => ?_
  exact View.sum_halves hclient (List.mem_range.1 hj)

/-- Once the servers have closed the same clients, in any order of delivery,
their total shares open to the sum of the vectors of those aggregated. -/
theorem complete_total (hV : Laws V) (hsymm : V.SymmLaw)
    (hsound : V.SoundLaw n (S.ident .A) (S.ident .B)) (hT : V.TotalLaw) (hnd : ids.Nodup)
    (hr : (exchange S ids share).Reachable s)
    (hclosed : ∀ u, u ∈ (s.node .A).closed ↔ u ∈ (s.node .B).closed) {config : L.Config}
    (hconfig : L.prioConfigNumDataFields config = n) :
    ∃ client : ι → Bytes, (∀ u ∈ (s.node .A).added,
        V.Halves n (S.ident .A) (S.ident .B) (share .A u) (share .B u) (client u)) ∧
      output L config s.node = .ok ((List.range n).map fun j =>
        ((s.node .A).added.map fun u => field (client u) j).sum % V.modulus) :=
  ((inv_reachable hV hnd).reachable s hr).nodes.total hsymm hsound hT hclosed hconfig

theorem complete_total_sample : ∃ (s : Sys plain ℕ) (client : ℕ → Bytes),
    (s.node .A).added = [0, 1] ∧ output plain ⟨2, [1], [2], [9]⟩ s.node =
      .ok ((List.range 2).map fun j =>
        (([0, 1] : List ℕ).map fun u => field (client u) j).sum % 256) := by
  obtain ⟨s, hreach, hobs⟩ := Sample.reached (Sample.posts ++ Sample.inTurn 9)
    (fun s => ((s.node .A).added, (s.node .A).closed, (s.node .B).closed))
    (a := ([0, 1], [0, 1, 2], [0, 1, 2])) (by decide +kernel)
  have hadded : (s.node .A).added = [0, 1] := congrArg Prod.fst hobs
  have hA : (s.node .A).closed = [0, 1, 2] := congrArg (fun x => x.2.1) hobs
  have hB : (s.node .B).closed = [0, 1, 2] := congrArg (fun x => x.2.2) hobs
  have hfields : plain.prioConfigNumDataFields ⟨2, [1], [2], [9]⟩ = 2 := rfl
  obtain ⟨client, -, hout⟩ := complete_total plain_laws Plain.plain_symm (Plain.plain_sound _ _)
    Plain.plain_total (by decide) hreach (fun u => by rw [hA, hB]) hfields
  rw [hadded] at hout
  exact ⟨s, client, hadded, hout⟩

end Safety

end PrioProcessor.L6
