import PrioProcessor.L6Exchange.Agreement

/-!
# Every client is closed in the end

When all shares decode, no packet is lost (`Full`): whatever a server has sent
and the other has not handled is on its way. So until every client is closed at
both servers, some queue holds a packet that would not be put back, and every
such packet brings a client one round further.

* `exchange_completes`: once the client has sent everything, in first-in
  first-out order and under every schedule in which both servers take turns
  again and again, every client is closed at both servers in the end.
-/
namespace PrioProcessor.L6

open L1 L1.Wrapper Mailbox Lockstep

variable {L : Libprio} {ι : Type}

/-- No packet is lost, and no server has stopped. -/
structure Full (ids : List ι) (share : ServerId → ι → Bytes) (s : Sys L ι) : Prop where
  alive : ∀ p, s.alive p = true
  data : ∀ p, ∀ u ∈ ids, (s.node p).cache u = none → ⟨u, .data (share p u)⟩ ∈ s.incoming p
  verify1 : ∀ p u o, (s.node (otherServer p)).sent1 u = some o → (s.node p).sent2 u = none →
    ⟨u, .verify1 o⟩ ∈ s.incoming p
  verify2 : ∀ p u o, (s.node (otherServer p)).sent2 u = some o → u ∉ (s.node p).closed →
    ⟨u, .verify2 o⟩ ∈ s.incoming p

/-- Every client is closed at both servers. -/
def Complete (ids : List ι) (s : Sys L ι) : Prop := ∀ u ∈ ids, ∀ p, u ∈ (s.node p).closed

variable [DecidableEq ι] {V : View L} {S : Setup L} {ids : List ι} {share : ServerId → ι → Bytes}
  {s t : Sys L ι} {p : ServerId} {u : ι}

omit [DecidableEq ι] in
theorem full_start : Full ids share (start S ids share) where
  alive _ := rfl
  data p u hu _ := by
    rw [start_incoming]
    exact List.mem_map.2 ⟨u, hu, rfl⟩
  verify1 _ _ _ h := by cases h
  verify2 _ _ _ h := by cases h

omit [DecidableEq ι] in
theorem mem_of_perm_cons {l l' : List (Packet L ι)} {m m' : Packet L ι} (h : l.Perm (m :: l'))
    (hm : m' ∈ l) (hne : m' ≠ m) : m' ∈ l' :=
  (List.mem_cons.1 (h.mem_iff.1 hm)).resolve_left hne

theorem Moves.full (hdec : ∀ p, ∀ u ∈ ids, V.decodes (S.ident p) (share p u) = true)
    (h : Inv V S ids share s) (hf : Full ids share s) (hm : Moves V S share s t) :
    Full ids share t := by
  cases hm with
  | opens p u c server r x hnode halive hout hin hserver hc hopened =>
    obtain ⟨-, -, hcache⟩ := (h.wires p).data u _ (hout.mem_iff.2 (.head _))
    obtain ⟨hother, hclosed, hnew, hself⟩ := storedAt hnode rfl (closed_generated (.inl rfl))
    have hkept : ∀ m, m ∈ s.incoming (otherServer p) → m ∈ t.incoming (otherServer p) := fun m hm =>
      hin.mem_iff.2 (.tail _ hm)
    have hsent2 : ∀ w, (t.node p).sent2 w = (s.node p).sent2 w := fun w => by
      by_cases hwu : w = u
      · subst hwu
        simp [Node.sent2, hself, hcache, hc]
      · simp only [Node.sent2, hnew w hwu]
    refine ⟨fun q => by rw [halive]; exact hf.alive q, fun q w hw hnone => ?_,
      fun q w o ho hnone => ?_,
      fun q w o ho hcl => ?_⟩
    · rcases eq_or_eq_other p q with rfl | rfl
      · have hwu : w ≠ u := by
          rintro rfl
          rw [hself] at hnone
          cases hnone
        rw [hnew w hwu] at hnone
        exact mem_of_perm_cons hout (hf.data q w hw hnone) fun heq => hwu (by cases heq; rfl)
      · rw [hother] at hnone
        exact hkept _ (hf.data _ w hw hnone)
    · rcases eq_or_eq_other p q with rfl | rfl
      · rw [hother] at ho
        rw [hsent2] at hnone
        exact mem_of_perm_cons hout (hf.verify1 q w o ho hnone) (by simp)
      · rw [otherServer_otherServer] at ho
        rw [hother] at hnone
        by_cases hwu : w = u
        · subst hwu
          simp only [Node.sent1, hself, Option.map_some, Option.some.injEq] at ho
          subst ho
          exact hin.mem_iff.2 (.head _)
        · refine hkept _ (hf.verify1 _ w o ?_ hnone)
          rw [otherServer_otherServer]
          rwa [Node.sent1, hnew w hwu] at ho
    · rw [hclosed] at hcl
      rcases eq_or_eq_other p q with rfl | rfl
      · rw [hother] at ho
        exact mem_of_perm_cons hout (hf.verify2 q w o ho hcl) (by simp)
      · rw [otherServer_otherServer, hsent2] at ho
        exact hkept _ (hf.verify2 _ w o (by rwa [otherServer_otherServer]) hcl)
  | fails p u hnode halive hout hin hd =>
    obtain ⟨-, hu, -⟩ := (h.wires p).data u _ (hout.mem_iff.2 (.head _))
    exact absurd (hdec p u hu) hd
  | answers p u c c' o r r' x y q' hnode halive hout hin hcache hcache' hopened hopened'
      hanswered =>
    obtain ⟨hother, hclosed, hnew, hself⟩ := storedAt hnode rfl (closed_generated (.inr rfl))
    have hkept : ∀ m, m ∈ s.incoming (otherServer p) → m ∈ t.incoming (otherServer p) := fun m hm =>
      hin.mem_iff.2 (.tail _ hm)
    have hsent1 : ∀ w, (t.node p).sent1 w = (s.node p).sent1 w := fun w => by
      by_cases hwu : w = u
      · subst hwu
        simp [Node.sent1, hself, hcache]
      · simp only [Node.sent1, hnew w hwu]
    refine ⟨fun q => by rw [halive]; exact hf.alive q, fun q w hw hnone => ?_,
      fun q w o₁ ho hnone => ?_, fun q w o₁ ho hcl => ?_⟩
    · rcases eq_or_eq_other p q with rfl | rfl
      · have hwu : w ≠ u := by
          rintro rfl
          rw [hself] at hnone
          cases hnone
        rw [hnew w hwu] at hnone
        exact mem_of_perm_cons hout (hf.data q w hw hnone) (by simp)
      · rw [hother] at hnone
        exact hkept _ (hf.data _ w hw hnone)
    · rcases eq_or_eq_other p q with rfl | rfl
      · have hwu : w ≠ u := by
          rintro rfl
          simp [Node.sent2, hself] at hnone
        rw [hother] at ho
        rw [Node.sent2, hnew w hwu] at hnone
        exact mem_of_perm_cons hout (hf.verify1 q w o₁ ho hnone) fun heq => hwu (by cases heq; rfl)
      · rw [otherServer_otherServer, hsent1] at ho
        rw [hother] at hnone
        exact hkept _ (hf.verify1 _ w o₁ (by rwa [otherServer_otherServer]) hnone)
    · rw [hclosed] at hcl
      rcases eq_or_eq_other p q with rfl | rfl
      · rw [hother] at ho
        exact mem_of_perm_cons hout (hf.verify2 q w o₁ ho hcl) (by simp)
      · rw [otherServer_otherServer] at ho
        by_cases hwu : w = u
        · subst hwu
          simp only [Node.sent2, hself, Option.bind_some, Option.some.injEq] at ho
          subst ho
          exact hin.mem_iff.2 (.head _)
        · rw [Node.sent2, hnew w hwu] at ho
          exact hkept _ (hf.verify2 _ w o₁ (by rwa [otherServer_otherServer]) hcl)
  | closes p u c o o' b hnode halive hout hin hcache hp2 hverdict =>
    have hcaches : ∀ q, (t.node q).cache = (s.node q).cache := fun q => by
      rw [hnode]
      rcases eq_or_eq_other p q with rfl | rfl <;> cases b <;> simp
    have hmem : ∀ q m, m ≠ ⟨u, .verify2 o'⟩ → m ∈ s.incoming q → m ∈ t.incoming q := by
      intro q m hne hm
      rcases eq_or_eq_other p q with rfl | rfl
      · exact mem_of_perm_cons hout hm hne
      · rwa [hin]
    refine ⟨fun q => by rw [halive]; exact hf.alive q, fun q w hw hnone => ?_,
      fun q w o₁ ho hnone => ?_, fun q w o₁ ho hcl => ?_⟩
    · rw [hcaches] at hnone
      exact hmem q _ (by simp) (hf.data q w hw hnone)
    · rw [Node.sent1, hcaches] at ho
      rw [Node.sent2, hcaches] at hnone
      exact hmem q _ (by simp) (hf.verify1 q w o₁ ho hnone)
    · rw [Node.sent2, hcaches] at ho
      rcases eq_or_eq_other p q with rfl | rfl
      · rw [hnode, Function.update_self] at hcl
        have hcl' : w ∉
            ((s.node q).logged u (if b then .aggregateData else .invalidData)).closed := by
          cases b <;> exact hcl
        rw [closed_logged, List.mem_append, not_or] at hcl'
        refine hmem q _ (fun heq => hcl'.2 ?_) (hf.verify2 q w o₁ ho hcl'.1)
        cases heq
        cases b <;> simp
      · rw [hnode, update_other] at hcl
        rw [hin]
        exact hf.verify2 _ w o₁ ho hcl

theorem Effect.full (hdec : ∀ p, ∀ u ∈ ids, V.decodes (S.ident p) (share p u) = true)
    (h : Inv V S ids share s) (hf : Full ids share s) (he : Effect V S share s t) :
    Full ids share t := by
  cases he with
  | idle hnode halive hin =>
    exact ⟨halive ▸ hf.alive, fun p u hu hc => (hin p).mem_iff.2 (hf.data p u hu (hnode ▸ hc)),
      fun p u o ho hn => (hin p).mem_iff.2 (hf.verify1 p u o (hnode ▸ ho) (hnode ▸ hn)),
      fun p u o ho hc => (hin p).mem_iff.2 (hf.verify2 p u o (hnode ▸ ho) (hnode ▸ hc))⟩
  | moves hm => exact hm.full hdec h hf

/-- When every share decodes, no packet is lost and no server stops. -/
theorem full_reachable (hV : Laws V) (hnd : ids.Nodup)
    (hdec : ∀ p, ∀ u ∈ ids, V.decodes (S.ident p) (share p u) = true) :
    (exchange S ids share).Inductive fun s => Inv V S ids share s ∧ Full ids share s where
  init _ hs := hs ▸ ⟨inv_start hV hnd, full_start⟩
  step _ _ _ h hst :=
    ⟨(step_effect hV h.1 hst).inv hV h.1, (step_effect hV h.1 hst).full hdec h.1 h.2⟩

/-! ## A packet that is due -/

theorem sent1_of_round (h : 1 ≤ (s.node p).round u) : ∃ o, (s.node p).sent1 u = some o := by
  cases hc : (s.node p).cache u with
  | none =>
    rw [round_none hc] at h
    omega
  | some c => exact ⟨c.p1, by simp [Node.sent1, hc]⟩

theorem sent2_of_round (h : 2 ≤ (s.node p).round u) : ∃ o, (s.node p).sent2 u = some o := by
  cases hc : (s.node p).cache u with
  | none =>
    rw [round_none hc] at h
    omega
  | some c =>
    cases hp2 : c.p2 with
    | none =>
      rw [round_opened hc hp2] at h
      omega
    | some o => exact ⟨o, by simp [Node.sent2, hc, hp2]⟩

/-- A client that is ready for its next round at a server has a packet on its
way there that the server would not put back. -/
theorem due (hV : Laws V) (hdec : ∀ p, ∀ u ∈ ids, V.decodes (S.ident p) (share p u) = true)
    (h : Inv V S ids share s) (hf : Full ids share s) (hu : u ∈ ids)
    (hready : Ready otherServer 3 (rounds s.node) p u) :
    ∃ m ∈ s.incoming p, (serverConsume L (s.node p) m).1 ≠ .ok .again := by
  obtain ⟨hlt, hle⟩ := hready
  unfold rounds at hlt hle
  cases hcache : (s.node p).cache u with
  | none =>
    have hd := hdec p u hu
    rw [← h.nodes.ident p] at hd
    obtain ⟨c, -, -, hturn, -⟩ := consume_data hV hcache hd
    exact ⟨_, hf.data p u hu hcache, by simp [hturn]⟩
  | some c =>
    obtain ⟨-, r, x, hopened⟩ := h.nodes.opened p u c hcache
    cases hp2 : c.p2 with
    | none =>
      rw [round_opened hcache hp2] at hle
      obtain ⟨o, ho⟩ := sent1_of_round hle
      have hsent := ho
      simp only [Node.sent1, Option.map_eq_some_iff] at hsent
      obtain ⟨c', hcache', rfl⟩ := hsent
      obtain ⟨-, r', y, hopened'⟩ := h.nodes.opened _ u c' hcache'
      obtain ⟨o', -, hturn, -⟩ := consume_verify1 hV hcache hopened hopened'.pending hopened'.seen
      exact ⟨_, hf.verify1 p u _ ho (by simp [Node.sent2, hcache, hp2]), by simp [hturn]⟩
    | some o =>
      by_cases hcl : u ∈ (s.node p).closed
      · rw [round_closed hcache hp2 hcl] at hlt
        omega
      · rw [round_answered hcache hp2 hcl] at hle
        obtain ⟨o', ho'⟩ := sent2_of_round hle
        have hsent := ho'
        simp only [Node.sent2, Option.bind_eq_some_iff] at hsent
        obtain ⟨c', hcache', hp2'⟩ := hsent
        obtain ⟨_, r, x, _, _, q, -, hopened, -, hans⟩ := h.nodes.answered p u c o hcache hp2
        obtain ⟨_, _, _, _, _, q', -, -, -, hans'⟩ := h.nodes.answered _ u c' o' hcache' hp2'
        have hheld := hopened.held
        rw [← h.nodes.ident p] at hheld
        have hturn := consume_verify2 hV hcache hp2 hheld hans.pending hans.seen hans'.pending
          hans'.seen
        exact ⟨_, hf.verify2 p u o' ho' hcl, by simp [hturn]⟩

/-- A state that is not complete holds a packet that is due. -/
theorem exists_due (hV : Laws V) (hdec : ∀ p, ∀ u ∈ ids, V.decodes (S.ident p) (share p u) = true)
    (h : Inv V S ids share s) (hf : Full ids share s) (hno : ¬ Complete ids s) :
    ∃ p, ∃ m ∈ s.incoming p, (serverConsume L (s.node p) m).1 ≠ .ok .again := by
  simp only [Complete, not_forall] at hno
  obtain ⟨u, hu, p, hcl⟩ := hno
  have hlt : rounds s.node p u < 3 := by
    cases hc : (s.node p).cache u with
    | none => simp [rounds, round_none hc]
    | some c =>
      cases hp2 : c.p2 with
      | none => simp [rounds, round_opened hc hp2]
      | some o => simp [rounds, round_answered hc hp2 hcl]
  rcases can_step otherServer_otherServer hlt with hready | hready
  · exact ⟨p, due hV hdec h hf hu hready⟩
  · exact ⟨otherServer p, due hV hdec h hf hu hready⟩

/-! ## Turns -/

theorem exchange_progress (hV : Laws V) (hnd : ids.Nodup)
    (hdec : ∀ p, ∀ u ∈ ids, V.decodes (S.ident p) (share p u) = true) :
    Progress otherServer (serverConsume L)
      (fun s => Inv V S ids share s ∧ Full ids share s ∧ s.todo = []) (Complete ids)
      (fun node => rank otherServer 3 ids (rounds node) .A) where
  again _ _ := consume_again
  good s p hs := by
    obtain ⟨h, hf, htodo⟩ := hs
    cases hin : s.inbox p with
    | nil =>
      rw [turn_idle fun _ => hin]
      exact ⟨h, hf, htodo⟩
    | cons m rest =>
      have hst : exchangeStep s (.take p 0) = some (turn otherServer (serverConsume L) s p) := by
        have hst : exchangeStep s (.take p ([] : List (Packet L ι)).length) = _ :=
          take_eq (hf.alive p) hin
        rw [turn_eq (hf.alive p) hin]
        exact hst
      have he := step_effect hV h hst
      refine ⟨he.inv hV h, he.full hdec h hf, ?_⟩
      rw [turn_eq (hf.alive p) hin, afterTurn_todo, htodo]
  lower s p m rest hs ha hin hdue := by
    obtain ⟨h, hf, -⟩ := hs
    have hm := turn_moves hV h (took_out hin) hdue
    rw [turn_eq ha hin]
    rcases moves_rounds h hm with ⟨⟨q, u⟩, hu, ⟨hlt, -⟩, heq⟩ | ⟨-, q, u, hu, hd⟩
    · rw [heq]
      have := rank_step hnd otherServer_ne hu (eq_or_eq_other .A q) hlt
      dsimp only at this ⊢
      omega
    · exact absurd (hdec q u hu) hd
  find s hs hno := by
    obtain ⟨h, hf, htodo⟩ := hs
    obtain ⟨p, m, hm, hdue⟩ := exists_due hV hdec h hf hno
    simp only [St.incoming, htodo, List.filterMap_nil, List.append_nil] at hm
    exact ⟨p, m, hf.alive p, hm, hdue⟩

/-- From every state of the exchange in which the client has sent all its
packets, whatever order they were taken in until then, and under every schedule
in which both servers take turns again and again, every client is closed at both
servers in the end. -/
theorem exchange_completes (hV : Laws V) (hnd : ids.Nodup)
    (hdec : ∀ p, ∀ u ∈ ids, V.decodes (S.ident p) (share p u) = true)
    (hr : (exchange S ids share).Reachable s) (htodo : s.todo = []) {σ : ℕ → ServerId}
    (hσ : Fair σ) : ∃ n, Complete ids (trace otherServer (serverConsume L) σ s n) := by
  obtain ⟨h, hf⟩ := (full_reachable hV hnd hdec).reachable s hr
  exact (exchange_progress hV hnd hdec).eventually ⟨h, hf, htodo⟩ hσ

/-- The servers take turns one after the other. -/
def Sample.schedule (n : ℕ) : ServerId := if n % 2 = 0 then .A else .B

theorem Sample.schedule_fair : Fair schedule := fun p n => by
  cases p with
  | A => exact ⟨2 * n, by omega, by simp [schedule]⟩
  | B => exact ⟨2 * n + 1, by omega, by simp [schedule, Nat.add_mod]⟩

theorem exchange_completes_sample : ∃ (s : Sys plain ℕ) (n : ℕ), s.inbox .A ≠ [] ∧
    Complete [0, 1, 2] (trace otherServer (serverConsume plain) Sample.schedule s n) := by
  obtain ⟨s, hreach, hobs⟩ := Sample.reached (Sample.posts ++ [.take .A 1])
    (fun s => (s.todo.isEmpty, (s.inbox .A).isEmpty)) (a := (true, false)) (by decide +kernel)
  have hin : s.inbox .A ≠ [] := fun h => by
    have hno : (s.inbox .A).isEmpty = false := congrArg Prod.snd hobs
    rw [h] at hno
    cases hno
  have hdec : ∀ p, ∀ u ∈ [0, 1, 2], plainView.decodes (Sample.setup.ident p) (Sample.share p u) =
      true := by
    intro p u hu
    cases p <;> fin_cases hu <;> rfl
  obtain ⟨n, hn⟩ := exchange_completes plain_laws (by decide) hdec hreach
    (List.isEmpty_iff.1 (congrArg Prod.fst hobs)) Sample.schedule_fair
  exact ⟨s, n, hin, hn⟩

end PrioProcessor.L6
