import PrioProcessor.L6Exchange.Completion
import PrioProcessor.L6Exchange.Fifo

/-!
# The run of examples/asyncio

`main` (examples/asyncio/main.py:81-120) puts the packets of all clients into the
queues, starts the two servers, waits for the `join` of each queue and opens the
total shares. A queue counts the packets put and not yet done; its `join` returns
the first time the count is 0, and a later put does not undo that. The two joins
are waited for one after the other, so neither says that the other queue is still
empty.

* `main_fifo`: a run of `main` is a run of the exchange over first-in first-out
  queues.
* `main_output`: when both queues are empty as `main` opens the total shares,
  its assertion holds.
* `main_early`: for every number of clients there is a schedule on which both
  joins return before any share is aggregated; the output is zero.
* `main_stalls`: a share that does not decode keeps both servers from
  aggregating anything, and `main` from ever opening the total shares.
-/
namespace PrioProcessor.L6

open L1 L1.Wrapper Mailbox

/-- The packets of client `i`.
mirrors examples/asyncio/main.py:75-78 -/
def clientPackets (L : Libprio) (config : L.Config) (dataItems : Bytes) (coins : L.Coins) (i : ℕ) :
    Except PyExc (List (ServerId × Packet L ℕ)) := do
  let (forServerA, forServerB) ← clientEncode L config dataItems coins
  pure [(.A, ⟨i, .data forServerA⟩), (.B, ⟨i, .data forServerB⟩)]

/-- mirrors examples/asyncio/main.py:73-78 -/
def clientProduce (L : Libprio) (config : L.Config) (dataItems : Bytes) (coins : ℕ → L.Coins)
    (nClients : ℕ) : Except PyExc (List (ServerId × Packet L ℕ)) := do
  let packets ← (List.range nClients).mapM fun i => clientPackets L config dataItems (coins i) i
  pure packets.flatten

/-- `main` at its `await`: the servers and queues, the count of each queue,
whether the `join` of each queue has returned, and the output. -/
structure Main (L : Libprio) (ι : Type) where
  sys : Sys L ι
  unfinished : ServerId → ℕ
  joined : ServerId → Bool
  output : Option (Except PyExc (List ℕ))

inductive MainLabel where
  | turn (p : ServerId)
  | finish
  deriving DecidableEq, Repr

section Model

variable {L : Libprio} {ι : Type}

/-- `put` counts the packet. -/
def Main.put (m : Main L ι) (p : ServerId) : Main L ι :=
  { m with unfinished := Function.update m.unfinished p (m.unfinished p + 1) }

/-- `task_done`: at count 0 the `join` returns. -/
def Main.taskDone (m : Main L ι) (p : ServerId) : Main L ι :=
  { m with
    unfinished := Function.update m.unfinished p (m.unfinished p - 1)
    joined := Function.update m.joined p (m.joined p || m.unfinished p - 1 == 0) }

/-- The calls of `put` and `task_done` in a turn. A turn that raises makes
neither. -/
def Main.count (m : Main L ι) (p : ServerId) : Except PyExc (Reply (Packet L ι)) → Main L ι
  | .ok .again => (m.put p).taskDone p
  | .ok (.send _) => (m.put (otherServer p)).taskDone p
  | .ok .quiet => m.taskDone p
  | .error _ => m

variable [DecidableEq ι]

/-- mirrors examples/asyncio/main.py:102-118: the servers take turns until the
total shares are opened; `consumers.cancel()` ends their turns. -/
def mainStep (config : L.Config) (m : Main L ι) : MainLabel → Option (Main L ι)
  | .turn p =>
    match m.sys.inbox p with
    | [] => none
    | packet :: rest =>
      if m.output.isNone && m.sys.alive p then
        some ({ m with sys := afterTurn m.sys p packet rest }.count p
          (serverConsume L (m.sys.node p) packet).1)
      else none
  | .finish =>
    if m.output.isNone && m.joined .A && m.joined .B then
      some { m with output := some (output L config m.sys.node) }
    else none

/-- The clients' packets are in the queues. -/
def mainStart (S : Setup L) (packets : List (ServerId × Packet L ι)) : Main L ι where
  sys := { todo := []
           node := fun p => ⟨S.server p, fun _ => none, []⟩
           inbox := fun p => packets.filterMap fun x => if x.1 = p then some x.2 else none
           alive := fun _ => true }
  unfinished p := (packets.filterMap fun x => if x.1 = p then some x.2 else none).length
  joined p := (packets.filterMap fun x => if x.1 = p then some x.2 else none).isEmpty
  output := none

def mainSystem (config : L.Config) (S : Setup L) (packets : List (ServerId × Packet L ι)) :
    LTS (Main L ι) MainLabel := .ofFn (· = mainStart S packets) (mainStep config)

end Model

variable {L : Libprio} {ι : Type}

/-! ## Turns and counts -/

section Turn

variable {m m' : Main L ι} {p q : ServerId} {r : Except PyExc (Reply (Packet L ι))}

@[simp] theorem count_sys : (m.count p r).sys = m.sys := by
  rcases r with e | (_ | x | _) <;> rfl

@[simp] theorem count_output : (m.count p r).output = m.output := by
  rcases r with e | (_ | x | _) <;> rfl

/-- A `join` that has returned stays so. -/
theorem count_joined (h : m.joined q = true) : (m.count p r).joined q = true := by
  have hdone : ∀ m₀ : Main L ι, m₀.joined q = true → (m₀.taskDone p).joined q = true := by
    intro m₀ h₀
    by_cases hq : q = p
    · subst hq
      simp [Main.taskDone, h₀]
    · simpa [Main.taskDone, hq] using h₀
  rcases r with e | (_ | x | _)
  · exact h
  · exact hdone _ h
  · exact hdone _ h
  · exact hdone _ h

/-- A `join` returns when the count reaches 0. -/
theorem count_zero {reply : Reply (Packet L ι)} (h : (m.count p (.ok reply)).unfinished p = 0) :
    (m.count p (.ok reply)).joined p = true := by
  cases reply <;> simp_all [Main.count, Main.taskDone, Main.put]

variable [DecidableEq ι] {config : L.Config} {packet : Packet L ι} {rest : List (Packet L ι)}

theorem mainStep_turn (hin : m.sys.inbox p = packet :: rest) (ho : m.output = none)
    (ha : m.sys.alive p = true) : mainStep config m (.turn p) =
      some ({ m with sys := afterTurn m.sys p packet rest }.count p
        (serverConsume L (m.sys.node p) packet).1) := by
  simp [mainStep, hin, ho, ha]

theorem mainStep_turn_inv (h : mainStep config m (.turn p) = some m') :
    ∃ packet rest, m.sys.inbox p = packet :: rest ∧ m.output = none ∧ m.sys.alive p = true ∧
      m' = { m with sys := afterTurn m.sys p packet rest }.count p
        (serverConsume L (m.sys.node p) packet).1 := by
  simp only [mainStep] at h
  split at h
  · cases h
  · rename_i packet rest hin
    split at h
    · rename_i hc
      rw [Bool.and_eq_true, Option.isNone_iff_eq_none] at hc
      exact ⟨packet, rest, hin, hc.1, hc.2, (Option.some.inj h).symm⟩
    · cases h

theorem mainStep_finish_inv (h : mainStep config m .finish = some m') :
    m.output = none ∧ m.joined .A = true ∧ m.joined .B = true ∧
      m' = { m with output := some (output L config m.sys.node) } := by
  simp only [mainStep] at h
  split at h
  · rename_i hc
    simp only [Bool.and_eq_true, Option.isNone_iff_eq_none] at hc
    exact ⟨hc.1.1, hc.1.2, hc.2, (Option.some.inj h).symm⟩
  · cases h

/-- Where the packet of a turn goes. -/
theorem afterTurn_inbox {s : Sys L ι} (p q : ServerId) :
    (afterTurn s p packet rest).inbox q =
      (if q = p then rest else s.inbox q) ++
        match (serverConsume L (s.node p) packet).1 with
        | .ok .again => if q = p then [packet] else []
        | .ok (.send x) => if q = p then [] else [x]
        | _ => [] := by
  have htook : ∀ n, (s.took p n rest).inbox q = if q = p then rest else s.inbox q := fun n => by
    by_cases hq : q = p
    · subst hq
      simp
    · simp [took_inbox_other hq, hq]
  unfold afterTurn
  rcases (serverConsume L (s.node p) packet).1 with e | (_ | x | _)
  · simpa [settle] using htook _
  · by_cases hq : q = p
    · subst hq
      simp [settle]
    · simp [settle, deliver_inbox_other hq, htook, hq]
  · rcases eq_or_eq_other p q with rfl | rfl
    · simp [settle, deliver_inbox_other (otherServer_ne _).symm]
    · simp [settle, htook, otherServer_ne]
  · simpa [settle] using htook _

theorem afterTurn_alive_ok {s : Sys L ι} {reply : Reply (Packet L ι)}
    (h : (serverConsume L (s.node p) packet).1 = .ok reply) :
    (afterTurn s p packet rest).alive = s.alive := by
  unfold afterTurn
  rw [h]
  cases reply <;> rfl

theorem afterTurn_alive_error {s : Sys L ι} {e : PyExc}
    (h : (serverConsume L (s.node p) packet).1 = .error e) :
    (afterTurn s p packet rest).alive = Function.update s.alive p false := by
  unfold afterTurn
  rw [h]
  rfl

/-- A queue counts its packets, and the one a server raised on. -/
def Counted (m : Main L ι) : Prop :=
  ∀ q, m.unfinished q = (m.sys.inbox q).length + if m.sys.alive q then 0 else 1

theorem counted_turn (h : Counted m) (hin : m.sys.inbox p = packet :: rest)
    (ha : m.sys.alive p = true) :
    Counted ({ m with sys := afterTurn m.sys p packet rest }.count p
      (serverConsume L (m.sys.node p) packet).1) := by
  have hp : m.unfinished p = rest.length + 1 := by
    rw [h p, hin, ha]
    simp
  intro q
  have hq := h q
  simp only [count_sys, afterTurn_inbox]
  cases hr : (serverConsume L (m.sys.node p) packet).1 with
  | error e =>
    rw [afterTurn_alive_error hr]
    rcases eq_or_eq_other p q with rfl | rfl
    · simpa [Main.count] using hp
    · simpa [Main.count, otherServer_ne] using hq
  | ok reply =>
    rw [afterTurn_alive_ok hr]
    rcases eq_or_eq_other p q with rfl | rfl
    · cases reply <;> simp [Main.count, Main.put, Main.taskDone, hp, ha,
        Function.update_of_ne (otherServer_ne q).symm]
    · cases reply <;> simp [Main.count, Main.put, Main.taskDone, hq, otherServer_ne,
        Nat.add_right_comm]

end Turn

/-! ## A run of main is a run of the exchange -/

section Fifo

variable [DecidableEq ι] {V : View L} {S : Setup L} {ids : List ι}
  {share : ServerId → ι → Bytes} {config : L.Config} {m : Main L ι}

/-- What holds in every state of `main`. -/
structure MainInv (config : L.Config) (S : Setup L) (ids : List ι) (share : ServerId → ι → Bytes)
    (m : Main L ι) : Prop where
  sys : (exchangeFifo S ids share).Reachable m.sys
  sent : m.sys.todo = []
  counted : Counted m
  output : ∀ r, m.output = some r →
    r = output L config m.sys.node ∧ ∀ p, m.joined p = true

theorem main_reachable :
    (mainSystem config S (sends ids share)).Inductive (MainInv config S ids share) where
  init m hm := by
    subst hm
    obtain ⟨ls, hrun⟩ : ∃ ls, (exchangeFifo S ids share).Run (start S ids share) ls
        { start S ids share with todo := [], inbox := (start S ids share).incoming } := post_all _ _
    exact ⟨⟨_, ls, rfl, hrun⟩, rfl, fun p => rfl, fun r hr => by cases hr⟩
  step m l m' h hst := by
    cases l with
    | turn p =>
      obtain ⟨packet, rest, hin, ho, ha, rfl⟩ := mainStep_turn_inv hst
      have hstep : exchangeStep m.sys (.take p ([] : List (Packet L ι)).length) =
          some (afterTurn m.sys p packet rest) := take_eq ha hin
      refine ⟨?_, ?_, counted_turn h.counted hin ha, fun r hr => ?_⟩
      · rw [count_sys]
        exact h.sys.step ⟨hstep, rfl⟩
      · rw [count_sys]
        exact afterTurn_todo.trans h.sent
      · rw [count_output] at hr
        rw [ho] at hr
        cases hr
    | finish =>
      obtain ⟨-, hA, hB, rfl⟩ := mainStep_finish_inv hst
      refine ⟨h.sys, h.sent, h.counted, fun r hr => ?_⟩
      cases hr
      exact ⟨rfl, fun p => by cases p <;> assumption⟩

/-- A run of `main` is a run of the exchange over first-in first-out queues, with
everything sent before the first turn; the count of a queue is the number of its
packets while its server runs, and one more once it has raised. -/
theorem main_fifo (hr : (mainSystem config S (sends ids share)).Reachable m) :
    (exchangeFifo S ids share).Reachable m.sys ∧ m.sys.todo = [] ∧ Counted m :=
  have h := main_reachable.reachable m hr
  ⟨h.sys, h.sent, h.counted⟩

end Fifo

/-! ## The output -/

/-- The shares of the clients, when every encoding succeeds. -/
theorem client_shares {config : L.Config} {dataItems : Bytes} {coins : ℕ → L.Coins} {nClients : ℕ}
    (h : ∀ i < nClients, ∃ ab, clientEncode L config dataItems (coins i) = .ok ab) :
    ∃ share : ServerId → ℕ → Bytes, ∀ i < nClients,
      clientEncode L config dataItems (coins i) = .ok (share .A i, share .B i) := by
  have henc : ∀ i, ∃ ab, i < nClients → clientEncode L config dataItems (coins i) = .ok ab := by
    intro i
    by_cases hi : i < nClients
    · obtain ⟨ab, hab⟩ := h i hi
      exact ⟨ab, fun _ => hab⟩
    · exact ⟨([], []), fun hi' => absurd hi' hi⟩
  choose ab hab using henc
  exact ⟨fun p i => if p = .A then (ab i).1 else (ab i).2, hab⟩

theorem clientProduce_ok {config : L.Config} {dataItems : Bytes} {coins : ℕ → L.Coins}
    {nClients : ℕ} {packets : List (ServerId × Packet L ℕ)}
    (h : clientProduce L config dataItems coins nClients = .ok packets) :
    ∃ share, packets = sends (List.range nClients) share ∧ ∀ i < nClients,
      clientEncode L config dataItems (coins i) = .ok (share .A i, share .B i) := by
  unfold clientProduce at h
  obtain ⟨parts, hparts, hpackets⟩ := bind_ok h
  cases hpackets
  obtain ⟨share, hshare⟩ := client_shares fun i hi => by
    obtain ⟨ys, hys⟩ := exists_mapM_ok.1 ⟨parts, hparts⟩ i (List.mem_range.2 hi)
    exact (bind_ok hys).imp fun _ hz => hz.1
  refine ⟨share, ?_, hshare⟩
  have hmap : (List.range nClients).mapM
      (fun i => clientPackets L config dataItems (coins i) i) = .ok ((List.range nClients).map
        fun i => [(.A, ⟨i, .data (share .A i)⟩), (.B, ⟨i, .data (share .B i)⟩)]) :=
    mapM_ok fun i hi => by
      unfold clientPackets
      rw [hshare i (List.mem_range.1 hi)]
      rfl
  cases hmap.symm.trans hparts
  rfl

/-- Both servers of `main` have the configuration `cfg` and the secret
`server_secret`.
mirrors examples/asyncio/main.py:85-93 -/
def mainSetup (cfg : L.Config) (key : ServerId → L.PrivateKey) (serverSecret : Bytes) : Setup L :=
  ⟨fun _ => cfg, key, fun _ => serverSecret⟩

/-- What the output of `main` relies on. -/
structure OutputLaws (V : View L) (nData : ℕ) (cfg : L.Config) (S : Setup L) : Prop extends
    Laws V where
  stream : V.StreamLaw
  quiet : V.QuietLaw
  symm : V.SymmLaw
  total : V.TotalLaw
  encode : V.EncodeLaw nData cfg (S.ident .A) (S.ident .B)
  snip : V.SnipLaw nData cfg (S.ident .A) (S.ident .B)
  fields : L.prioConfigNumDataFields cfg = nData

section Output

variable {V : View L} {cfg : L.Config} {key : ServerId → L.PrivateKey} {serverSecret : Bytes}
  {nData nClients : ℕ} {dataItems : Bytes} {coins : ℕ → L.Coins}
  {packets : List (ServerId × Packet L ℕ)} {m : Main L ℕ}

/-- With both queues empty every client is closed. -/
theorem complete_of_empty [DecidableEq ι] {S : Setup L} {ids : List ι}
    {share : ServerId → ι → Bytes} {s : Sys L ι} (hV : Laws V)
    (hdec : ∀ p, ∀ u ∈ ids, V.decodes (S.ident p) (share p u) = true) (h : Inv V S ids share s)
    (hf : Full ids share s) (hin : ∀ p, s.incoming p = []) : Complete ids s := by
  by_contra hno
  obtain ⟨p, m, hm, -⟩ := exists_due hV hdec h hf hno
  rw [hin] at hm
  cases hm

section Sums

variable [DecidableEq ι] {S : Setup L} {ids : List ι} {share : ServerId → ι → Bytes} {s : Sys L ι}

/-- Once every client is closed, every client is aggregated. -/
theorem complete_added (hV : OutputLaws V nData cfg S) (hsecret : S.secret .A = S.secret .B)
    (hnd : ids.Nodup)
    (hpairs : ∀ u ∈ ids, V.Encodes nData cfg (share .A u) (share .B u) dataItems)
    (hr : (exchangeFifo S ids share).Reachable s) (hcomplete : Complete ids s) (p : ServerId) :
    (s.node p).added.Perm ids := by
  obtain ⟨hinv, hal⟩ := (aligned_reachable hV.toLaws hV.stream hV.quiet hnd).reachable s hr
  have h := hinv.nodes
  refine (List.perm_ext_iff_of_nodup (added_nodup (h.once p)) hnd).2 fun u => ⟨fun hu => ?_,
    fun hu => (hal.added_iff h hV.symm hV.snip hnd hsecret (hcomplete u hu p)).2
      ⟨dataItems, hpairs u hu⟩⟩
  obtain ⟨o, ho⟩ := h.closed_sent2 (added_subset_closed hu) p
  simp only [Node.sent2, Option.bind_eq_some_iff] at ho
  obtain ⟨c, hc, -⟩ := ho
  exact (h.opened p u c hc).1

/-- Once every client is closed, the two accumulators add up to one client
vector for each client. -/
theorem complete_sums (hV : OutputLaws V nData cfg S) (hsecret : S.secret .A = S.secret .B)
    (hnd : ids.Nodup) (hvec : ClientVector nData dataItems) (hmod : ids.length < V.modulus)
    (hpairs : ∀ u ∈ ids, V.Encodes nData cfg (share .A u) (share .B u) dataItems)
    (hr : (exchangeFifo S ids share).Reachable s) (hcomplete : Complete ids s) {j : ℕ}
    (hj : j < nData) :
    (V.acc (s.node .A).server.inst j + V.acc (s.node .B).server.inst j).val =
      field dataItems j * ids.length := by
  have h := ((inv_reachable hV.toLaws hnd).reachable s (LTS.Reachable.of_guard hr)).nodes
  have hadded := complete_added hV hsecret hnd hpairs hr hcomplete
  have hhalves : ∀ u ∈ ids, V.Halves nData (S.ident .A) (S.ident .B) (share .A u) (share .B u)
      ((fun _ => dataItems) u) := fun u hu => hV.encode.halves _ _ _ (hpairs u hu)
  rw [h.acc, h.acc, ((hadded .A).map _).sum_eq, ((hadded .B).map _).sum_eq,
    View.sum_halves hhalves hj, View.sum_field_mod (fun _ _ => hvec) hmod]
  simp [Nat.mul_comm]

end Sums

/-- Once every client is closed, all `nClients` copies of the client vector are
in the total. -/
theorem complete_output (hV : OutputLaws V nData cfg (mainSetup cfg key serverSecret))
    (hvec : ClientVector nData dataItems) (hmod : nClients < V.modulus)
    {share : ServerId → ℕ → Bytes}
    (henc : ∀ i < nClients, clientEncode L cfg dataItems (coins i) = .ok (share .A i, share .B i))
    {s : Sys L ℕ}
    (hr : (exchangeFifo (mainSetup cfg key serverSecret) (List.range nClients) share).Reachable s)
    (hcomplete : Complete (List.range nClients) s) :
    output L cfg s.node = .ok (dataItems.map fun item => item.toNat * nClients) := by
  have hpairs : ∀ u ∈ List.range nClients,
      V.Encodes nData cfg (share .A u) (share .B u) dataItems :=
    fun u hu => ⟨hvec, coins u, henc u (List.mem_range.1 hu)⟩
  have h := ((inv_reachable hV.toLaws List.nodup_range).reachable s
    (LTS.Reachable.of_guard hr)).nodes
  rw [output_eq hV.total h, hV.fields]
  congr 1
  refine List.ext_getElem (by simp [hvec.length]) fun j hj hj' => ?_
  have hlen : j < dataItems.length := by simpa using hj'
  have hlt : j < nData := by rwa [hvec.length] at hlen
  rw [List.getElem_map, List.getElem_range, complete_sums hV rfl List.nodup_range hvec
    (by rwa [List.length_range]) hpairs hr hcomplete hlt, List.getElem_map, List.length_range]
  unfold field
  rw [List.getD_eq_getElem _ _ hlen]

theorem shares_decode (hV : OutputLaws V nData cfg (mainSetup cfg key serverSecret))
    (hvec : ClientVector nData dataItems) {share : ServerId → ℕ → Bytes}
    (henc : ∀ i < nClients, clientEncode L cfg dataItems (coins i) = .ok (share .A i, share .B i)) :
    ∀ p, ∀ u ∈ List.range nClients,
      V.decodes ((mainSetup cfg key serverSecret).ident p) (share p u) = true := fun p u hu => by
  have hd := hV.encode.decodes _ _ _ ⟨hvec, coins u, henc u (List.mem_range.1 hu)⟩
  cases p
  · exact hd.1
  · exact hd.2

/-- When both queues are empty as `main` opens the total shares, the output is
the one it asserts: `nClients` times the client vector. -/
theorem main_output (hV : OutputLaws V nData cfg (mainSetup cfg key serverSecret))
    (hvec : ClientVector nData dataItems) (hmod : nClients < V.modulus)
    (hpackets : clientProduce L cfg dataItems coins nClients = .ok packets)
    (hr : (mainSystem cfg (mainSetup cfg key serverSecret) packets).Reachable m)
    {r : Except PyExc (List ℕ)} (hout : m.output = some r) (hempty : ∀ p, m.sys.inbox p = []) :
    r = .ok (dataItems.map fun item => item.toNat * nClients) := by
  obtain ⟨share, rfl, henc⟩ := clientProduce_ok hpackets
  have hm := main_reachable.reachable m hr
  have hreach := LTS.Reachable.of_guard hm.sys
  have hdec := shares_decode hV hvec henc
  obtain ⟨h, hf⟩ := (full_reachable hV.toLaws List.nodup_range hdec).reachable _ hreach
  have hcomplete := complete_of_empty hV.toLaws hdec h hf fun p => by
    simp [St.incoming, hempty p, hm.sent]
  rw [(hm.output r hout).1]
  exact complete_output hV hvec hmod henc hm.sys hcomplete

end Output

theorem plain_outputLaws {cfg : plain.Config} (hcfg : plain.prioConfigNumDataFields cfg = 2)
    (S : Setup plain) : OutputLaws plainView 2 cfg S where
  toLaws := plain_laws
  stream := Plain.plain_stream
  quiet := Plain.plain_quiet
  symm := Plain.plain_symm
  total := Plain.plain_total
  encode := Plain.plain_encode _ _ _
  snip := Plain.plain_snip _ _ _
  fields := hcfg

namespace Sample

def cfg : plain.Config := ⟨2, [1], [2], [9]⟩

/-- The packets of two clients with the data `(0, 1)`. -/
def packets : List (ServerId × Packet plain ℕ) :=
  match clientProduce plain cfg [0, 1] (fun i => ⟨UInt8.ofNat i, 3⟩) 2 with
  | .ok packets => packets
  | .error _ => []

theorem packets_eq :
    clientProduce plain cfg [0, 1] (fun i => ⟨UInt8.ofNat i, 3⟩) 2 = .ok packets := rfl

theorem vector : ClientVector 2 [0, 1] := ⟨rfl, by simp⟩

end Sample

theorem main_output_sample : ∃ m : Main plain ℕ, m.output = some (.ok [0, 2]) ∧
    (m.sys.node .A).added = [0, 1] := by
  have hrun : (LTS.exec (mainStep Sample.cfg) (mainStart (mainSetup Sample.cfg (fun _ => []) [4])
      Sample.packets) ((List.replicate 6 [.turn .A, .turn .B]).flatten ++ [.finish])).map
        (fun m => (m.output.isSome, (m.sys.inbox .A).isEmpty, (m.sys.inbox .B).isEmpty,
          (m.sys.node .A).added)) = some (true, true, true, [0, 1]) := by decide +kernel
  obtain ⟨m, hm, hobs⟩ := Option.map_eq_some_iff.1 hrun
  obtain ⟨r, hr⟩ := Option.isSome_iff_exists.1 (congrArg Prod.fst hobs)
  have hempty : ∀ p, m.sys.inbox p = [] := fun p => by
    cases p
    · exact List.isEmpty_iff.1 (congrArg (fun x => x.2.1) hobs)
    · exact List.isEmpty_iff.1 (congrArg (fun x => x.2.2.1) hobs)
  have hout := main_output (plain_outputLaws rfl _) Sample.vector (by decide) Sample.packets_eq
    ⟨_, _, rfl, LTS.run_of_exec _ hm⟩ hr hempty
  exact ⟨m, by rw [hr, hout]; rfl, congrArg (fun x => x.2.2.2) hobs⟩

/-! ## The joins return early -/

section Early

variable [DecidableEq ι] {V : View L} {S : Setup L} {ids : List ι} {share : ServerId → ι → Bytes}
  {config : L.Config} {m : Main L ι} {p : ServerId} {ms rest : List (Packet L ι)}

/-- What a state of `main` looks like after server `p` alone handled the packets
`ms` in front of `rest`, and sent the packets `out`. -/
structure Handled (config : L.Config) (S : Setup L) (ids : List ι) (share : ServerId → ι → Bytes)
    (p : ServerId) (m m' : Main L ι) (ms rest out : List (Packet L ι)) : Prop where
  reachable : (mainSystem config S (sends ids share)).Reachable m'
  output : m'.output = none
  alive : ∀ q, m'.sys.alive q = true
  inbox : m'.sys.inbox p = rest
  other : m'.sys.inbox (otherServer p) = m.sys.inbox (otherServer p) ++ out
  length : out.length = ms.length
  node : m'.sys.node (otherServer p) = m.sys.node (otherServer p)
  joined : ∀ q, m.joined q = true → m'.joined q = true
  emptied : ms ≠ [] → rest = [] → m'.joined p = true

/-- A server that answers each of some packets handles them in a row. -/
theorem handles {G : Node L ι → List (Packet L ι) → Prop} {K : Packet L ι → Prop}
    (hgood : ∀ n x ms, G n (x :: ms) →
      ∃ y n', serverConsume L n x = (.ok (.send y), n') ∧ K y ∧ G n' ms)
    (hr : (mainSystem config S (sends ids share)).Reachable m) (ho : m.output = none)
    (halive : ∀ q, m.sys.alive q = true) (hin : m.sys.inbox p = ms ++ rest)
    (hn : G (m.sys.node p) ms) :
    ∃ m' out, Handled config S ids share p m m' ms rest out ∧ (∀ y ∈ out, K y) ∧
      G (m'.sys.node p) [] := by
  induction ms generalizing m with
  | nil =>
    exact ⟨m, [], ⟨hr, ho, halive, hin, (List.append_nil _).symm, rfl, rfl, fun _ h => h,
      fun h => absurd rfl h⟩, (fun _ h => by cases h), hn⟩
  | cons x ms ih =>
    obtain ⟨y, n', hturn, hy, hn'⟩ := hgood _ x ms hn
    rw [List.cons_append] at hin
    have hr₁ := hr.step (mainStep_turn hin ho (halive p))
    have hreply : (serverConsume L (m.sys.node p) x).1 = .ok (.send y) := by rw [hturn]
    have hnode : (afterTurn m.sys p x (ms ++ rest)).node =
        Function.update m.sys.node p (serverConsume L (m.sys.node p) x).2 := afterTurn_node
    obtain ⟨m', out, h, hout, hlast⟩ := ih hr₁ (by rw [count_output]; exact ho)
      (fun q => by rw [count_sys, afterTurn_alive_ok hreply]; exact halive q)
      (by rw [count_sys, afterTurn_inbox, hreply]; simp)
      (by
        rw [count_sys]
        dsimp only
        rw [hnode, Function.update_self, hturn]
        exact hn')
    have hother := h.other
    rw [count_sys, afterTurn_inbox, hreply] at hother
    simp only [otherServer_ne, if_false, List.append_assoc, List.singleton_append] at hother
    refine ⟨m', y :: out, ⟨h.reachable, h.output, h.alive, h.inbox, hother, by simp [h.length], ?_,
      fun q hq => h.joined q (count_joined hq), fun _ hrest => ?_⟩, ?_, hlast⟩
    · rw [h.node, count_sys]
      dsimp only
      rw [hnode, update_other]
    · cases ms with
      | cons z ms => exact h.emptied (List.cons_ne_nil _ _) hrest
      | nil =>
        -- the last of the packets empties the queue
        refine h.joined p ?_
        have hcount := (main_reachable.reachable _ hr₁).counted p
        rw [count_sys, afterTurn_inbox, afterTurn_alive_ok hreply, hreply] at hcount
        rw [hreply]
        exact count_zero (by simpa [hrest, halive p, hreply] using hcount)
    · intro z hz
      rcases List.mem_cons.1 hz with rfl | hz
      · exact hy
      · exact hout z hz

/-- Every client in `ids` is open at server `p`, and none is closed. -/
structure AllOpen (V : View L) (S : Setup L) (ids : List ι) (share : ServerId → ι → Bytes)
    (p : ServerId) (n : Node L ι) : Prop where
  opened : ∀ u ∈ ids, ∃ c r x, n.cache u = some c ∧ Opened V (S.ident p) (share p u) c r x
  closed : n.closed = []

/-- The data packets `ms` open the clients that are not open yet. -/
structure Opening (V : View L) (S : Setup L) (ids : List ι) (share : ServerId → ι → Bytes)
    (p : ServerId) (n : Node L ι) (us : List ι) : Prop where
  nodup : us.Nodup
  fresh : ∀ u ∈ us, u ∈ ids ∧ n.cache u = none
  ident : V.ident n.server.inst = S.ident p
  opened : ∀ u ∈ ids, u ∉ us →
    ∃ c r x, n.cache u = some c ∧ Opened V (S.ident p) (share p u) c r x
  closed : n.closed = []

/-- The packets are the shares of clients that are not open yet. -/
def OpeningAll (V : View L) (S : Setup L) (ids : List ι) (share : ServerId → ι → Bytes)
    (p : ServerId) (n : Node L ι) (ms : List (Packet L ι)) : Prop :=
  ∃ us, ms = us.map (fun u => ⟨u, .data (share p u)⟩) ∧ Opening V S ids share p n us

/-- A verify1 packet of a client in `ids` that can be answered. -/
def Answerable (V : View L) (ids : List ι) (y : Packet L ι) : Prop :=
  ∃ u ∈ ids, ∃ o x, y = ⟨u, .verify1 o⟩ ∧ o.pending = none ∧ V.seen1 o.value = some x

/-- The packets can be answered by a server at which all clients are open. -/
def AnsweringAll (V : View L) (S : Setup L) (ids : List ι) (share : ServerId → ι → Bytes)
    (p : ServerId) (n : Node L ι) (ms : List (Packet L ι)) : Prop :=
  (∀ y ∈ ms, Answerable V ids y) ∧ AllOpen V S ids share p n

theorem opening_turn (hV : Laws V) (hdec : ∀ p, ∀ u ∈ ids, V.decodes (S.ident p) (share p u) = true)
    (n : Node L ι) (x : Packet L ι) (ms : List (Packet L ι))
    (h : OpeningAll V S ids share p n (x :: ms)) :
    ∃ y n', serverConsume L n x = (.ok (.send y), n') ∧ Answerable V ids y ∧
      OpeningAll V S ids share p n' ms := by
  obtain ⟨us, hus, h⟩ := h
  cases us with
  | nil => cases hus
  | cons u us =>
    obtain ⟨rfl, rfl⟩ := List.cons.inj hus
    obtain ⟨hu, hnd⟩ := List.nodup_cons.1 h.nodup
    obtain ⟨huids, hcache⟩ := h.fresh u (.head _)
    have hd := hdec p u huids
    rw [← h.ident] at hd
    obtain ⟨c, r, x, hturn, -, hopened, -⟩ := consume_data hV hcache hd
    rw [h.ident] at hopened
    refine ⟨_, _, hturn, ⟨u, huids, c.p1, x, rfl, hopened.pending, hopened.seen⟩, us, rfl, hnd,
      fun w hw => ?_, ?_, fun w hw hwus => ?_, ?_⟩
    · have hwu : w ≠ u := fun hwu => hu (hwu ▸ hw)
      rw [store_cache_other hwu]
      exact h.fresh w (.tail _ hw)
    · exact (createVerifier_keeps hV n.server _).1.trans h.ident
    · by_cases hwu : w = u
      · subst hwu
        exact ⟨c, r, x, store_cache_self, hopened⟩
      · rw [store_cache_other hwu]
        exact h.opened w hw fun hmem => hwus ((List.mem_cons.1 hmem).resolve_left hwu)
    · exact (closed_generated (n := n) (u := u) (.inl rfl)).trans h.closed

theorem answering_turn (hV : Laws V) (n : Node L ι) (x : Packet L ι) (ms : List (Packet L ι))
    (h : AnsweringAll V S ids share p n (x :: ms)) :
    ∃ y n', serverConsume L n x = (.ok (.send y), n') ∧ True ∧
      AnsweringAll V S ids share p n' ms := by
  obtain ⟨hall, h⟩ := h
  obtain ⟨u, hu, o, y, rfl, hpend, hseen⟩ := hall x (.head _)
  obtain ⟨c, r, x, hcache, hopened⟩ := h.opened u hu
  obtain ⟨o', q, hturn, -⟩ := consume_verify1 hV hcache hopened hpend hseen
  refine ⟨_, _, hturn, trivial, fun y hy => hall y (.tail _ hy), fun w hw => ?_, ?_⟩
  · by_cases hwu : w = u
    · subst hwu
      exact ⟨_, r, x, store_cache_self, hopened.held, hopened.pending, hopened.seen, hopened.made⟩
    · rw [store_cache_other hwu]
      exact h.opened w hw
  · exact (closed_generated (n := n) (u := u) (.inr rfl)).trans h.closed

/-- A schedule on which both joins return while nothing is aggregated: server A
opens all clients and waits, server B opens all clients and answers. -/
theorem joins_early (config : L.Config) (hV : Laws V) (hnd : ids.Nodup) (hne : ids ≠ [])
    (hdec : ∀ p, ∀ u ∈ ids, V.decodes (S.ident p) (share p u) = true) :
    ∃ m, (mainSystem config S (sends ids share)).Reachable m ∧ m.output = none ∧
      (∀ p, m.joined p = true) ∧ ∀ p, (m.sys.node p).closed = [] := by
  have hstart : ∀ p, (mainStart S (sends ids share)).sys.inbox p =
      ids.map (fun u => ⟨u, .data (share p u)⟩) := fun p => start_incoming (S := S) p
  have h₀ : (mainSystem config S (sends ids share)).Reachable (mainStart S (sends ids share)) :=
    LTS.reachable_init rfl
  have hopening : ∀ p, Opening V S ids share p ⟨S.server p, fun _ => none, []⟩ ids := fun p =>
    ⟨hnd, fun u hu => ⟨hu, rfl⟩, hV.setData.new_ident _ _ _ _, fun u hu hno => absurd hu hno, rfl⟩
  obtain ⟨m₁, out, h₁, hout, us₁, hus₁, hA⟩ := handles (p := .A)
    (G := OpeningAll V S ids share .A) (K := Answerable V ids) (opening_turn hV hdec)
    h₀ rfl (fun _ => rfl) (by rw [hstart, List.append_nil])
    ⟨ids, rfl, hopening .A⟩
  obtain ⟨m₂, _, h₂, -, us₂, hus₂, hB⟩ := handles (p := .B)
    (G := OpeningAll V S ids share .B) (K := Answerable V ids) (opening_turn hV hdec)
    h₁.reachable h₁.output h₁.alive (h₁.other.trans (by rw [← hstart]; rfl))
    ⟨ids, rfl, by
      have hnode : m₁.sys.node .B = ⟨S.server .B, fun _ => none, []⟩ := h₁.node
      rw [hnode]
      exact hopening .B⟩
  cases List.map_eq_nil_iff.1 hus₂.symm
  obtain ⟨m₃, _, h₃, -, -, hB₃⟩ := handles (p := .B) (K := fun _ => True)
    (G := AnsweringAll V S ids share .B) (answering_turn hV) h₂.reachable h₂.output h₂.alive
    (h₂.inbox.trans (List.append_nil _).symm)
    ⟨hout, fun u hu => hB.opened u hu List.not_mem_nil, hB.closed⟩
  have hout_ne : out ≠ [] := by
    refine List.ne_nil_of_length_pos ?_
    rw [h₁.length, List.length_map]
    exact List.length_pos_of_ne_nil hne
  refine ⟨m₃, h₃.reachable, h₃.output, fun p => ?_, fun p => ?_⟩
  · cases p with
    | A => exact h₃.joined _ (h₂.joined _ (h₁.emptied (by simpa using hne) rfl))
    | B => exact h₃.emptied hout_ne rfl
  · cases p with
    | A =>
      have hnode : m₃.sys.node .A = m₁.sys.node .A := h₃.node.trans h₂.node
      rw [hnode]
      exact hA.closed
    | B => exact hB₃.closed

end Early

/-- For every number of clients there is a schedule on which `main` opens the
total shares before any share is aggregated; its assertion fails when the client
vector has a 1. -/
theorem main_early {V : View L} {cfg : L.Config} {key : ServerId → L.PrivateKey}
    {serverSecret : Bytes} {nData nClients : ℕ} {dataItems : Bytes} {coins : ℕ → L.Coins}
    {packets : List (ServerId × Packet L ℕ)}
    (hV : OutputLaws V nData cfg (mainSetup cfg key serverSecret))
    (hvec : ClientVector nData dataItems) (hpos : 0 < nClients) (hone : 1 ∈ dataItems)
    (hpackets : clientProduce L cfg dataItems coins nClients = .ok packets) :
    ∃ m, (mainSystem cfg (mainSetup cfg key serverSecret) packets).Reachable m ∧
      (∀ p, (m.sys.node p).added = []) ∧ m.output = some (.ok (List.replicate nData 0)) ∧
      List.replicate nData 0 ≠ dataItems.map fun item => item.toNat * nClients := by
  obtain ⟨share, rfl, henc⟩ := clientProduce_ok hpackets
  have hdec := shares_decode hV hvec henc
  have hne : List.range nClients ≠ [] := fun h => by
    rw [List.range_eq_nil] at h
    omega
  obtain ⟨m, hr, ho, hjoined, hclosed⟩ := joins_early cfg hV.toLaws List.nodup_range hne hdec
  have hadded : ∀ p, (m.sys.node p).added = [] := fun p =>
    List.eq_nil_of_subset_nil (hclosed p ▸ added_subset_closed)
  have hnodes := ((inv_reachable hV.toLaws List.nodup_range).reachable _
    (LTS.Reachable.of_guard (main_reachable.reachable m hr).sys)).nodes
  have hfinish : mainStep cfg m .finish =
      some { m with output := some (output L cfg m.sys.node) } := by
    simp [mainStep, ho, hjoined]
  refine ⟨_, hr.step hfinish, hadded, ?_, ?_⟩
  · dsimp only
    rw [output_eq hV.total hnodes, hV.fields, hnodes.acc, hnodes.acc, hadded, hadded]
    simp
  · intro heq
    have hmem : (1 : UInt8).toNat * nClients ∈ List.replicate nData 0 := by
      rw [heq]
      exact List.mem_map.2 ⟨1, hone, rfl⟩
    have hzero := (List.mem_replicate.1 hmem).2
    simp at hzero
    omega

theorem main_early_sample : ∃ m, (mainSystem Sample.cfg (mainSetup Sample.cfg (fun _ => []) [4])
    Sample.packets).Reachable m ∧ m.output = some (.ok [0, 0]) ∧ [0, 0] ≠ [0, 2] := by
  obtain ⟨m, hr, -, hout, hne⟩ := main_early (plain_outputLaws rfl _) Sample.vector
    (by decide : 0 < 2) (by decide) Sample.packets_eq
  exact ⟨m, hr, hout, hne⟩

/-! ## A share that does not decode -/

section Stall

variable [DecidableEq ι] {V : View L} {S : Setup L} {ids : List ι} {share : ServerId → ι → Bytes}
  {config : L.Config} {m : Main L ι} {p : ServerId} {u : ι}

/-- The share of `u` is still in front of every verify packet at server `p`, or
has stopped it. -/
structure Stuck (share : ServerId → ι → Bytes) (p : ServerId) (u : ι) (m : Main L ι) : Prop where
  sent2 : ∀ w, (m.sys.node p).sent2 w = none
  front : m.sys.alive p = true →
    ∃ (ds : List ι) (vs : List (Packet L ι)),
      m.sys.inbox p = ds.map (fun w => ⟨w, .data (share p w)⟩) ++ vs ∧ u ∈ ds
  joined : m.joined p = false
  output : m.output = none

/-- A turn of the other server only adds to the end of the queue of `p`. -/
theorem stuck_other {packet : Packet L ι} {rest : List (Packet L ι)} (h : Stuck share p u m) :
    Stuck share p u ({ m with sys := afterTurn m.sys (otherServer p) packet rest }.count
      (otherServer p) (serverConsume L (m.sys.node (otherServer p)) packet).1) := by
  have hne := (otherServer_ne p).symm
  refine ⟨fun w => ?_, fun ha => ?_, ?_, by rw [count_output]; exact h.output⟩
  · rw [count_sys]
    dsimp only
    rw [afterTurn_node, Function.update_of_ne hne]
    exact h.sent2 w
  · rw [count_sys] at ha ⊢
    obtain ⟨ds, vs, hin, hu⟩ := h.front (afterTurn_alive ha).1
    dsimp only
    rw [afterTurn_inbox, if_neg hne, hin, List.append_assoc]
    exact ⟨ds, _, rfl, hu⟩
  · rcases (serverConsume L (m.sys.node (otherServer p)) packet).1 with e | (_ | x | _) <;>
      simp [Main.count, Main.put, Main.taskDone, Function.update_of_ne hne, h.joined]

/-- The server's own turn sets a share in front of that of `u`, or raises. -/
theorem stuck_own (hV : Laws V) (hd : V.decodes (S.ident p) (share p u) ≠ true)
    {packet : Packet L ι} {rest : List (Packet L ι)} (hinv : Inv V S ids share m.sys)
    (hcount : Counted m) (h : Stuck share p u m) (hin : m.sys.inbox p = packet :: rest)
    (ha : m.sys.alive p = true) :
    Stuck share p u ({ m with sys := afterTurn m.sys p packet rest }.count p
      (serverConsume L (m.sys.node p) packet).1) := by
  obtain ⟨ds, vs, hfront, hu⟩ := h.front ha
  obtain ⟨w, ds, rfl⟩ := List.exists_cons_of_ne_nil (List.ne_nil_of_mem hu)
  rw [List.map_cons, List.cons_append, hin] at hfront
  obtain ⟨rfl, rfl⟩ := List.cons.inj hfront
  obtain ⟨-, -, hcache⟩ :=
    (hinv.wires p).data w _ ((took_out hin (m.sys.node p)).mem_iff.2 (.head _))
  by_cases hdw : V.decodes (V.ident (m.sys.node p).server.inst) (share p w) = true
  · obtain ⟨c, -, -, hturn, hc, -⟩ := consume_data hV hcache hdw
    have hwu : u ≠ w := by
      rintro rfl
      rw [hinv.nodes.ident] at hdw
      exact hd hdw
    have hmem : u ∈ ds := (List.mem_cons.1 hu).resolve_left hwu
    refine ⟨fun v => ?_, fun _ => ?_, ?_, by rw [count_output]; exact h.output⟩
    · rw [count_sys]
      dsimp only
      rw [afterTurn_node, Function.update_self, hturn]
      by_cases hv : v = w
      · subst hv
        simp [Node.sent2, hc]
      · rw [sent2_store_other hv]
        exact h.sent2 v
    · rw [count_sys]
      dsimp only
      rw [afterTurn_inbox, hturn, if_pos rfl]
      exact ⟨ds, vs, by simp, hmem⟩
    · rw [hturn]
      have hlen : 0 < ds.length := List.length_pos_of_mem hmem
      have hunf : m.unfinished p = ds.length + vs.length + 1 := by
        rw [hcount p, hin, ha]
        simp
      have hleft : m.unfinished p - 1 ≠ 0 := by omega
      simp [Main.count, Main.put, Main.taskDone, h.joined, hleft,
        Function.update_of_ne (otherServer_ne p).symm]
  · have hturn := consume_data_error (u := w) hV hdw
    refine ⟨fun v => ?_, fun halive => ?_, by rw [hturn]; exact h.joined,
      by rw [count_output]; exact h.output⟩
    · rw [count_sys]
      dsimp only
      rw [afterTurn_node, Function.update_self, hturn]
      exact h.sent2 v
    · rw [count_sys] at halive
      obtain ⟨r, hr⟩ := (afterTurn_alive halive).2 rfl
      rw [hturn] at hr
      cases hr

/-- When some share does not decode at its server, no server ever aggregates a
share and `main` never opens the total shares. -/
theorem main_stalls (hV : Laws V) (hnd : ids.Nodup) (hu : u ∈ ids)
    (hd : V.decodes (S.ident p) (share p u) ≠ true)
    (hr : (mainSystem config S (sends ids share)).Reachable m) :
    m.output = none ∧ ∀ q, (m.sys.node q).added = [] := by
  have hind : (mainSystem config S (sends ids share)).Inductive fun m =>
      MainInv config S ids share m ∧ Stuck share p u m := by
    refine ⟨fun m hm => ?_, fun m l m' ⟨hm, hs⟩ hst => ?_⟩
    · subst hm
      have hin : (mainStart S (sends ids share)).sys.inbox p =
          ids.map (fun u => ⟨u, .data (share p u)⟩) := start_incoming (S := S) p
      refine ⟨main_reachable.init _ rfl, fun _ => rfl, fun _ => ⟨ids, [], ?_, hu⟩, ?_, rfl⟩
      · rw [hin, List.append_nil]
      · change ((mainStart S (sends ids share)).sys.inbox p).isEmpty = false
        rw [hin]
        cases ids with
        | nil => cases hu
        | cons w ids => rfl
    · refine ⟨main_reachable.step m l m' hm hst, ?_⟩
      cases l with
      | turn q =>
        obtain ⟨packet, rest, hin, -, ha, rfl⟩ := mainStep_turn_inv hst
        have hinv := (inv_reachable hV hnd).reachable _ (LTS.Reachable.of_guard hm.sys)
        rcases eq_or_eq_other p q with rfl | rfl
        · exact stuck_own hV hd hinv hm.counted hs hin ha
        · exact stuck_other hs
      | finish =>
        obtain ⟨-, hA, hB, -⟩ := mainStep_finish_inv hst
        have hjoined := hs.joined
        cases p
        · rw [hA] at hjoined; cases hjoined
        · rw [hB] at hjoined; cases hjoined
  obtain ⟨hm, hs⟩ := hind.reachable m hr
  have hinv := (inv_reachable hV hnd).reachable _ (LTS.Reachable.of_guard hm.sys)
  refine ⟨hs.output, fun q => ?_⟩
  rw [List.eq_nil_iff_forall_not_mem]
  intro w hw
  obtain ⟨o, ho⟩ := hinv.nodes.closed_sent2 (added_subset_closed hw) p
  rw [hs.sent2] at ho
  cases ho

end Stall

/-- The share of client 1 at server A has one byte. -/
def Sample.badShare : ServerId → ℕ → Bytes
  | .A, 1 => [0]
  | p, u => Sample.share p u

theorem main_stalls_sample : ∃ m : Main plain ℕ,
    (m.sys.node .B).sent1 0 ≠ none ∧ m.output = none ∧ ∀ q, (m.sys.node q).added = [] := by
  have hrun : (LTS.exec (mainStep Sample.cfg) (mainStart Sample.setup
      (sends [0, 1, 2] Sample.badShare)) [.turn .A, .turn .A, .turn .B]).map
        (fun m => ((m.sys.node .B).sent1 0).isSome) = some true := by decide +kernel
  obtain ⟨m, hm, hobs⟩ := Option.map_eq_some_iff.1 hrun
  have hreach :
      (mainSystem Sample.cfg Sample.setup (sends [0, 1, 2] Sample.badShare)).Reachable m :=
    ⟨_, _, rfl, LTS.run_of_exec _ hm⟩
  obtain ⟨hout, hadded⟩ := main_stalls (V := plainView) (p := .A) (u := 1) plain_laws (by decide)
    (by decide) (by decide) hreach
  exact ⟨m, Option.isSome_iff_ne_none.1 hobs, hout, hadded⟩

end PrioProcessor.L6
