import PrioProcessor.L6Exchange.Agreement

/-!
# First in, first out

asyncio queues hand out packets in the order they were put. A packet that is put
back goes to the end, but only verify1 and verify2 packets are, so both servers
set the clients' shares in the order the client sent them, and the `k`-th share
is set at the `k`-th value of the server's stream (`Aligned`).

* `fifo_accepts`: with a common secret, whatever the schedule, a client that is
  closed was aggregated exactly when its two shares are a pair that verifies.
-/
namespace PrioProcessor.L6

open L1 L1.Wrapper Mailbox

variable {L : Libprio} {ι : Type}

def isData (m : Packet L ι) : Bool := m.body.kind == .data

variable [DecidableEq ι]

/-- The exchange over first-in first-out queues. -/
def exchangeFifo (S : Setup L) (ids : List ι) (share : ServerId → ι → Bytes) :
    LTS (Sys L ι) (Label ServerId) :=
  Mailbox.fifo otherServer (serverConsume L) fun s => s = start S ids share

/-! ## One turn -/

section Turn

variable {V : View L} {n : Node L ι} {m m' : Packet L ι} {u w : ι} {b : Bytes}

theorem data_not_again (hm : isData m = true) : (serverConsume L n m).1 ≠ .ok .again := by
  obtain ⟨u, body⟩ := m
  cases body with
  | data b =>
    simp only [serverConsume]
    split <;> simp
  | verify1 o => cases hm
  | verify2 o => cases hm

theorem send_not_data (h : (serverConsume L n m).1 = .ok (.send m')) : isData m' = false := by
  obtain ⟨u, body⟩ := m
  cases body with
  | data b =>
    simp only [serverConsume] at h
    split at h
    · cases h
    · cases h
      rfl
  | verify1 o =>
    simp only [serverConsume] at h
    split at h
    · cases h
    · split at h
      · cases h
      · cases h
        rfl
  | verify2 o =>
    simp only [serverConsume] at h
    split at h
    · split at h
      · cases h
      · split at h <;> cases h
      · cases h
    · cases h

/-- A verify packet leaves the verifiers and the place in the stream alone. -/
theorem consume_verify_keeps (hQ : V.QuietLaw) (hm : isData m = false) :
    V.pos (serverConsume L n m).2.server.inst = V.pos n.server.inst ∧
      ∀ w c, (serverConsume L n m).2.cache w = some c → ∃ c₀, n.cache w = some c₀ ∧ c.v = c₀.v := by
  have hstored : ∀ (n' : Node L ι) (u : ι) (c c₀ : Cached L), n.cache u = some c₀ → c.v = c₀.v →
      (∀ w c, n'.cache w = some c → n.cache w = some c) →
      ∀ w d, (n'.store u c).cache w = some d → ∃ d₀, n.cache w = some d₀ ∧ d.v = d₀.v := by
    intro n' u c c₀ hu hv hn' w d hd
    by_cases hwu : w = u
    · subst hwu
      rw [store_cache_self] at hd
      cases hd
      exact ⟨c₀, hu, hv⟩
    · rw [store_cache_other hwu] at hd
      exact ⟨d, hn' w d hd, rfl⟩
  obtain ⟨u, body⟩ := m
  cases body with
  | data b => cases hm
  | verify1 o =>
    simp only [serverConsume]
    split
    · exact ⟨rfl, fun w c hc => ⟨c, hc, rfl⟩⟩
    · rename_i c₀ hc₀
      split
      · exact ⟨rfl, fun w c hc => ⟨c, hc, rfl⟩⟩
      · exact ⟨rfl, hstored _ u _ c₀ hc₀ rfl fun _ _ h => h⟩
  | verify2 o =>
    have hdel : ∀ (n' : Node L ι), n'.cache = n.cache →
        ∀ w c, (n'.del u).cache w = some c → n.cache w = some c := fun n' hn' w c hc => by
      by_cases hwu : w = u
      · subst hwu
        simp [Node.del] at hc
      · simpa [Node.del, hwu, hn'] using hc
    simp only [serverConsume]
    split
    · rename_i v p1 p2 hc₀
      split
      · exact ⟨rfl, fun w c hc => ⟨c, hc, rfl⟩⟩
      · split
        · exact ⟨hQ _ _, fun w c hc => ⟨c, hc, rfl⟩⟩
        · exact ⟨hQ _ _, hstored _ u _ _ hc₀ rfl (hdel _ rfl)⟩
      · exact ⟨rfl, hstored _ u _ _ hc₀ rfl (hdel _ rfl)⟩
    · exact ⟨rfl, fun w c hc => ⟨c, hc, rfl⟩⟩

end Turn

/-! ## The order of the shares -/

section Order

variable {V : View L} {S : Setup L} {ids : List ι} {share : ServerId → ι → Bytes} {s t : Sys L ι}
  {p : ServerId} {u : ι} {m : Packet L ι} {rest : List (Packet L ι)}

theorem afterTurn_alive {q : ServerId} (h : (afterTurn s p m rest).alive q = true) :
    s.alive q = true ∧ (q = p → ∃ r, (serverConsume L (s.node p) m).1 = .ok r) := by
  unfold afterTurn at h
  rcases hr : (serverConsume L (s.node p) m).1 with e | r
  · rw [hr] at h
    simp only [settle, took_alive] at h
    by_cases hq : q = p
    · subst hq
      simp at h
    · rw [Function.update_of_ne hq] at h
      exact ⟨h, fun hqp => absurd hqp hq⟩
  · refine ⟨?_, fun _ => ⟨r, rfl⟩⟩
    rw [hr] at h
    rcases r with _ | m' | _ <;> exact h

/-- Server `p` has set the first `k` shares, in order, and the others are still
on their way in order. -/
structure AlignedAt (V : View L) (S : Setup L) (ids : List ι) (share : ServerId → ι → Bytes)
    (s : Sys L ι) (p : ServerId) (k : ℕ) : Prop where
  order : (s.incoming p).filter isData = (ids.drop k).map fun u => ⟨u, .data (share p u)⟩
  pos : s.alive p = true → V.pos (s.node p).server.inst = k
  held : ∀ u c, (s.node p).cache u = some c → ∃ j, j < k ∧ ids[j]? = some u ∧
    V.held c.v.inst = some ⟨S.ident p, share p u, V.stream (S.secret p) j⟩

def Aligned (V : View L) (S : Setup L) (ids : List ι) (share : ServerId → ι → Bytes)
    (s : Sys L ι) : Prop := ∀ p, ∃ k, AlignedAt V S ids share s p k

omit [DecidableEq ι] in
theorem aligned_start (hR : V.StreamLaw) : Aligned V S ids share (start S ids share) := fun p =>
  ⟨0, by
    rw [start_incoming, List.filter_eq_self.2 fun m hm => ?_, List.drop_zero]
    obtain ⟨u, -, rfl⟩ := List.mem_map.1 hm
    rfl, fun _ => hR.new_pos _ _ _ _, fun _ _ hc => by cases hc⟩

omit [DecidableEq ι] in
theorem AlignedAt.congr {k : ℕ} (h : AlignedAt V S ids share s p k)
    (hin : (t.incoming p).filter isData = (s.incoming p).filter isData)
    (halive : t.alive p = true → s.alive p = true)
    (hpos : V.pos (t.node p).server.inst = V.pos (s.node p).server.inst)
    (hcache : ∀ w c, (t.node p).cache w = some c →
      ∃ c₀, (s.node p).cache w = some c₀ ∧ c.v = c₀.v) : AlignedAt V S ids share t p k where
  order := by rw [hin, h.order]
  pos ha := by rw [hpos, h.pos (halive ha)]
  held u c hc := by
    obtain ⟨c₀, hc₀, hv⟩ := hcache u c hc
    rw [hv]
    exact h.held u c₀ hc₀

/-- A turn takes the first data packet or none. -/
theorem turn_filter (hin : s.inbox p = m :: rest) (q : ServerId) :
    (s.incoming q).filter isData = (if q = p ∧ isData m then [m] else []) ++
      ((afterTurn s p m rest).incoming q).filter isData :=
  fifo_filter (fun _ _ => data_not_again) (fun _ _ _ => send_not_data) hin q

/-- Taking the first data packet sets the next share. -/
theorem aligned_data (hV : Laws V) (hR : V.StreamLaw) (h : Inv V S ids share s) {k : ℕ} {b : Bytes}
    (hk : AlignedAt V S ids share s p k) (ha : s.alive p = true)
    (hin : s.inbox p = ⟨u, .data b⟩ :: rest) :
    AlignedAt V S ids share (afterTurn s p ⟨u, .data b⟩ rest) p (k + 1) := by
  have hfilter := turn_filter hin p
  rw [hk.order, if_pos ⟨rfl, rfl⟩] at hfilter
  cases hdrop : ids.drop k with
  | nil =>
    rw [hdrop] at hfilter
    cases hfilter
  | cons w later =>
    have hget : ids[k]? = some w := by rw [← List.head?_drop, hdrop, List.head?_cons]
    have hlater : ids.drop (k + 1) = later := by rw [← List.tail_drop, hdrop, List.tail_cons]
    rw [hdrop, List.map_cons, List.singleton_append] at hfilter
    obtain ⟨hhead, htail⟩ := List.cons.inj hfilter
    cases hhead
    have hout := took_out hin
    obtain ⟨-, -, hcache⟩ := (h.wires p).data u _ ((hout (s.node p)).mem_iff.2 (.head _))
    refine ⟨by rw [hlater]; exact htail.symm, fun halive => ?_, fun v c hc => ?_⟩
    · rw [afterTurn_node, Function.update_self]
      obtain ⟨-, hok⟩ := afterTurn_alive halive
      obtain ⟨r, hr⟩ := hok rfl
      have hd : V.decodes (V.ident (s.node p).server.inst) (share p u) = true := by
        by_contra hd
        rw [consume_data_error hV hd] at hr
        cases hr
      obtain ⟨c, -, -, hturn, -⟩ := consume_data hV hcache hd
      rw [hturn, store_server]
      change V.pos (L.prioVerifierSetData _ _ _).2.1 = _
      rw [hR.pos, hd, Bool.true_or, if_pos rfl, hk.pos ha]
    · rw [afterTurn_node, Function.update_self] at hc
      by_cases hd : V.decodes (V.ident (s.node p).server.inst) (share p u) = true
      · obtain ⟨c₀, -, -, hturn, -, -, hinst⟩ := consume_data hV hcache hd
        rw [hturn] at hc
        by_cases hvu : v = u
        · subst hvu
          rw [store_cache_self] at hc
          cases hc
          refine ⟨k, by omega, hget, ?_⟩
          rw [hinst, hR.held _ _ _ hd, h.nodes.ident, hk.pos ha]
          rfl
        · rw [store_cache_other hvu] at hc
          obtain ⟨j, hj, hrest⟩ := hk.held v c hc
          exact ⟨j, by omega, hrest⟩
      · rw [consume_data_error hV hd] at hc
        obtain ⟨j, hj, hrest⟩ := hk.held v c hc
        exact ⟨j, by omega, hrest⟩

/-- A turn keeps the shares in order. -/
theorem aligned_turn (hV : Laws V) (hR : V.StreamLaw) (hQ : V.QuietLaw) (h : Inv V S ids share s)
    (hal : Aligned V S ids share s) (ha : s.alive p = true) (hin : s.inbox p = m :: rest) :
    Aligned V S ids share (afterTurn s p m rest) := by
  intro q
  obtain ⟨k, hk⟩ := hal q
  have hfilter := turn_filter hin q
  by_cases hdata : q = p ∧ isData m = true
  · obtain ⟨rfl, hm⟩ := hdata
    obtain ⟨u, body⟩ := m
    cases body with
    | data b => exact ⟨k + 1, aligned_data hV hR h hk ha hin⟩
    | verify1 o => cases hm
    | verify2 o => cases hm
  · rw [if_neg hdata, List.nil_append] at hfilter
    have hkeeps : V.pos ((afterTurn s p m rest).node q).server.inst = V.pos (s.node q).server.inst ∧
        ∀ w c, ((afterTurn s p m rest).node q).cache w = some c →
          ∃ c₀, (s.node q).cache w = some c₀ ∧ c.v = c₀.v := by
      rw [afterTurn_node]
      by_cases hq : q = p
      · subst hq
        rw [Function.update_self]
        exact consume_verify_keeps hQ (by simpa using hdata)
      · rw [Function.update_of_ne hq]
        exact ⟨rfl, fun w c hc => ⟨c, hc, rfl⟩⟩
    exact ⟨k, hk.congr hfilter.symm (fun h => (afterTurn_alive h).1) hkeeps.1 hkeeps.2⟩

theorem aligned_reachable (hV : Laws V) (hR : V.StreamLaw) (hQ : V.QuietLaw) (hnd : ids.Nodup) :
    (exchangeFifo S ids share).Inductive fun s =>
      Inv V S ids share s ∧ Aligned V S ids share s where
  init _ hs := hs ▸ ⟨inv_start hV hnd, aligned_start hR⟩
  step s l t h hst := by
    obtain ⟨hst, hfirst⟩ := hst
    refine ⟨(step_effect hV h.1 hst).inv hV h.1, ?_⟩
    cases l with
    | post =>
      obtain ⟨p, m, todo, htodo, rfl⟩ := post_cases hst
      intro q
      obtain ⟨k, hk⟩ := h.2 q
      exact ⟨k, hk.congr (by rw [incoming_post htodo]) id rfl fun w c hc => ⟨c, hc, rfl⟩⟩
    | take p k =>
      obtain ⟨l₁, m, l₂, ha, hin, hlen, rfl⟩ := take_cases hst
      have hk : k = 0 := by simpa [First] using hfirst
      subst hk
      cases List.length_eq_zero_iff.1 hlen
      exact aligned_turn hV hR hQ h.1 h.2 ha hin

omit [DecidableEq ι] in
/-- With a common secret both servers set a client's share at one point. -/
theorem Aligned.same_point (h : Aligned V S ids share s) (hnd : ids.Nodup)
    (hsecret : S.secret .A = S.secret .B) {c c' : Cached L} {r r' : V.Point}
    (hc : (s.node p).cache u = some c) (hc' : (s.node (otherServer p)).cache u = some c')
    (hr : V.held c.v.inst = some ⟨S.ident p, share p u, r⟩)
    (hr' : V.held c'.v.inst = some ⟨S.ident (otherServer p), share (otherServer p) u, r'⟩) :
    r = r' := by
  obtain ⟨_, hk⟩ := h p
  obtain ⟨_, hk'⟩ := h (otherServer p)
  obtain ⟨j, -, hj, hheld⟩ := hk.held u c hc
  obtain ⟨j', -, hj', hheld'⟩ := hk'.held u c' hc'
  obtain ⟨hjlt, hju⟩ := List.getElem?_eq_some_iff.1 hj
  obtain ⟨hjlt', hju'⟩ := List.getElem?_eq_some_iff.1 hj'
  have hjj : j = j' := (hnd.getElem_inj_iff).1 (hju.trans hju'.symm)
  cases hr.symm.trans hheld
  cases hr'.symm.trans hheld'
  have hsec : S.secret p = S.secret (otherServer p) := by
    cases p
    · exact hsecret
    · exact hsecret.symm
  rw [hjj, hsec]

omit [DecidableEq ι] in
/-- A verdict reached with both shares set at one point says whether they verify. -/
theorem Aligned.verdict_iff (h : Aligned V S ids share s) (hn : Nodes V S ids share s.node)
    (hsymm : V.SymmLaw) {Pair : Bytes → Bytes → Prop}
    (hpair : V.PointLaw (S.ident .A) (S.ident .B) Pair) (hnd : ids.Nodup)
    (hsecret : S.secret .A = S.secret .B) {b : Bool} (hv : verdict V s.node p u = some b) :
    b = true ↔ Pair (share .A u) (share .B u) := by
  rw [← verdict_A hsymm] at hv
  obtain ⟨r, r', q, q', ⟨⟨c, hc, hcr⟩, ⟨c', hc', hcr'⟩, x, y, hx, hy, hq, hq'⟩, rfl⟩ :=
    hn.exchanged hv
  have hrr : r = r' := h.same_point hnd hsecret hc hc' hcr hcr'
  rw [hpair _ _ r r r' r' x y q q' hx hy hq hq']
  exact and_iff_right ⟨rfl, hrr, hrr⟩

omit [DecidableEq ι] in
/-- A closed client was aggregated exactly when its shares verify. -/
theorem Aligned.added_iff (h : Aligned V S ids share s) (hn : Nodes V S ids share s.node)
    (hsymm : V.SymmLaw) {Pair : Bytes → Bytes → Prop}
    (hpair : V.PointLaw (S.ident .A) (S.ident .B) Pair) (hnd : ids.Nodup)
    (hsecret : S.secret .A = S.secret .B) (hu : u ∈ (s.node p).closed) :
    u ∈ (s.node p).added ↔ Pair (share .A u) (share .B u) := by
  have hiff := fun b => h.verdict_iff (b := b) (p := p) (u := u) hn hsymm hpair hnd hsecret
  rcases mem_closed.1 hu with hl | hl
  · have hadd := mem_added.2 hl
    exact iff_of_true hadd ((hiff true (hn.added p u hadd)).1 rfl)
  · have hv := hn.invalid p u hl
    have hno : u ∉ (s.node p).added := fun hadd => by
      rw [hn.added p u hadd] at hv
      cases hv
    refine iff_of_false hno fun hP => ?_
    cases (hiff false hv).2 hP

/-- Over first-in first-out queues and with a common secret, in every reachable
state: a client that is closed at a server was aggregated there exactly when its
two shares are a pair that verifies. -/
theorem fifo_accepts (hV : Laws V) (hR : V.StreamLaw) (hQ : V.QuietLaw) (hsymm : V.SymmLaw)
    {Pair : Bytes → Bytes → Prop} (hpair : V.PointLaw (S.ident .A) (S.ident .B) Pair)
    (hsecret : S.secret .A = S.secret .B) (hnd : ids.Nodup)
    (hr : (exchangeFifo S ids share).Reachable s) :
    ∀ p, ∀ u ∈ (s.node p).closed, u ∈ (s.node p).added ↔ Pair (share .A u) (share .B u) := by
  intro p u hu
  obtain ⟨h, hal⟩ := (aligned_reachable hV hR hQ hnd).reachable s hr
  exact hal.added_iff h.nodes hsymm hpair hnd hsecret hu

theorem fifo_accepts_sample : ∃ s : Sys plain ℕ,
    (s.node .A).closed = [0, 1, 2] ∧ (s.node .A).added = [0, 1] ∧
      ∀ u ∈ (s.node .A).closed, u ∈ (s.node .A).added ↔
        ∃ x, plainView.Encodes 2 ⟨2, [1], [2], [9]⟩ (Sample.share .A u) (Sample.share .B u) x := by
  have hrun : (LTS.exec (fun s l => if First l then exchangeStep s l else none)
      (start Sample.setup [0, 1, 2] Sample.share) (Sample.posts ++ Sample.inTurn 9)).map
        (fun s => ((s.node .A).closed, (s.node .A).added)) = some ([0, 1, 2], [0, 1]) := by
    decide +kernel
  obtain ⟨s, hs, hobs⟩ := Option.map_eq_some_iff.1 hrun
  have hreach : (exchangeFifo Sample.setup [0, 1, 2] Sample.share).Reachable s :=
    ⟨_, _, rfl, LTS.guard_run_of_exec _ hs⟩
  exact ⟨s, congrArg Prod.fst hobs, congrArg Prod.snd hobs, fifo_accepts plain_laws
    Plain.plain_stream Plain.plain_quiet Plain.plain_symm (Plain.plain_snip _ _ _) rfl (by decide)
    hreach .A⟩

end Order

end PrioProcessor.L6
