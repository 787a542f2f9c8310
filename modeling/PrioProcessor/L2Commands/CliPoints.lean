import PrioProcessor.L2Commands.Cli

/-!
# Evaluation points of the command-line tools

A command of `prio_processor/prio/commands.py` keeps one server for a whole
file, and every row that reaches `PrioVerifier_set_data` and decodes takes the
next value of the server's stream. So the point of a row is the value at the
number of rows before it that took one: in verify1 the rows that decode
(`verify1_points`), in verify2 the rows that decode and whose id has both
verify1 packets (`verify2_points`).
-/
namespace PrioProcessor.L2.Cli

open L1

variable {L : Libprio} {V : L1.View L}

/-- The rows of a file before the row with an id. -/
def before (file : List Datum) (id : String) : List Datum := file.takeWhile fun d => d.id ≠ id

theorem before_append {pre post : List Datum} {d : Datum}
    (hu : ((pre ++ d :: post).map Datum.id).Nodup) : before (pre ++ d :: post) d.id = pre := by
  unfold before
  induction pre with
  | nil => simp
  | cons e pre ih =>
    obtain ⟨he, hu⟩ := List.nodup_cons.1 hu
    have hne : e.id ≠ d.id := fun h => he (by simp [h])
    rw [List.cons_append, List.takeWhile_cons_of_pos (by simpa using hne), ih hu]

theorem exists_before {file : List Datum} (hu : (file.map Datum.id).Nodup) {d : Datum}
    (hd : d ∈ file) : ∃ post, file = before file d.id ++ d :: post := by
  obtain ⟨pre, post, rfl⟩ := List.append_of_mem hd
  exact ⟨post, by rw [before_append hu]⟩

theorem foldl_count {α : Type} (p : α → Bool) (xs : List α) (n : ℕ) :
    (xs.foldl (fun n x => n + if p x then 1 else 0) n) = n + xs.countP p := by
  induction xs generalizing n with
  | nil => rfl
  | cons x xs ih =>
    rw [List.foldl_cons, ih, List.countP_cons]
    omega

/-- verify1 takes a value of the stream for the row. -/
def takes1 (V : L1.View L) (i : Ident L) (d : Datum) : Bool :=
  (b64decode d.payload).isSome && (V.decodes i d.bytes || V.failTakes)

/-- verify2 takes a value of the stream for the row. -/
def takes2 (V : L1.View L) (i : Ident L) (vi ve : List Datum) (d : Datum) : Bool :=
  match rowArgs vi ve d with
  | .ok (b, _, _) => V.decodes i b || V.failTakes
  | .error _ => false

theorem verify1Row_pos (hR : V.StreamLaw) (d : Datum) (s : Round1 L) :
    V.pos ((verify1Row L d).exec s).2.server =
      V.pos s.server + if takes1 V (V.ident s.server) d then 1 else 0 := by
  unfold takes1
  by_cases hd : d.Decodes
  · have hsome : (b64decode d.payload).isSome = true := hd
    rw [verify1Row_exec hd, hsome, Bool.true_and]
    dsimp only
    rw [verify1Calls_server, hR.pos]
  · have hnone : (b64decode d.payload).isSome = false := Bool.not_eq_true _ ▸ hd
    rw [verify1Row_undecoded hd, hnone]
    rfl

theorem verify2Row_pos (hR : V.StreamLaw) (config : L.Config)
    (vi ve : List Datum) (d : Datum) (s : Round2 L) :
    V.pos ((verify2Row L config vi ve d).exec s).2.server =
      V.pos s.server + if takes2 V (V.ident s.server) vi ve d then 1 else 0 := by
  unfold takes2
  cases ha : rowArgs vi ve d with
  | error e => rw [verify2Row_noArgs ha]; rfl
  | ok t =>
    obtain ⟨b, x, y⟩ := t
    rw [verify2Row_exec ha]
    dsimp only
    rw [verify2Calls_server, hR.pos]

/-- Along the server's position every row of verify1 that returns has the
stream's value at this position as its point. -/
theorem verify1_tracks_pos (hS : V.SetDataLaw) (hP : V.PacketLaw) (hR : V.StreamLaw) (i : Ident L) :
    Tracks (verify1Row L)
      (fun (n : ℕ) (s : Round1 L) => V.ident s.server = i ∧ V.pos s.server = n)
      (fun n d => n + if takes1 V i d then 1 else 0)
      fun n d y => Line1 V i d (V.stream i.seed n) y where
  objs d n s hs := ⟨(verify1Row_ident hS d s).trans hs.1, by
    rw [verify1Row_pos hR, hs.1, hs.2]⟩
  row d n s y hs h := by
    obtain ⟨r, hr, hl⟩ := verify1Row_ok hS hP h
    have hheld := hR.held s.server s.verifier d.bytes hl.2.1
    cases hr.symm.trans hheld
    rw [hs.1, hs.2] at hl
    exact hl

theorem verify2_tracks_pos (hS : V.SetDataLaw) (hP : V.PacketLaw) (hR : V.StreamLaw) (i : Ident L)
    (config : L.Config) (vi ve : List Datum) :
    Tracks (verify2Row L config vi ve)
      (fun (n : ℕ) (s : Round2 L) => V.ident s.server = i ∧ V.pos s.server = n)
      (fun n d => n + if takes2 V i vi ve d then 1 else 0)
      fun n d y => Line2 V i vi ve d (V.stream i.seed n) y where
  objs d n s hs := ⟨(verify2Row_ident hS config vi ve d s).trans hs.1, by
    rw [verify2Row_pos hR, hs.1, hs.2]⟩
  row d n s y hs h := by
    obtain ⟨r, hr, hl⟩ := verify2Row_ok hS hP h
    have hheld := hR.held s.server s.verifier d.bytes hl.2.1
    cases hr.symm.trans hheld
    rw [hs.1, hs.2] at hl
    exact hl

section Files

variable {a : Args} (o : Opened L a)

/-- The point of a row in verify1. -/
def point1 (V : L1.View L) (o : Opened L a) (raw : List Datum) (id : String) : V.Point :=
  V.stream o.seed ((before raw id).countP (takes1 V o.ident))

/-- The point of a row in verify2. -/
def point2 (V : L1.View L) (o : Opened L a) (raw vi ve : List Datum) (id : String) : V.Point :=
  V.stream o.seed ((before raw id).countP (takes2 V o.ident vi ve))

/-- verify1's output for a file of distinct ids and valid base64: one line for
each share that decodes, with its point. -/
structure File1 (V : L1.View L) (o : Opened L a) (raw lines : List Datum) : Prop where
  decodes : ∀ y ∈ lines, y.Decodes
  ids : (lines.map Datum.id).Sublist (raw.map Datum.id)
  made : ∀ id q, Holds lines id q → ∃ d ∈ raw, d.id = id ∧ V.decodes o.ident d.bytes = true ∧
    V.Made1 ⟨o.ident, d.bytes, point1 V o raw id⟩ q
  live : V.LiveLaw → ∀ d ∈ raw, V.decodes o.ident d.bytes = true → ∃ q, Holds lines d.id q

theorem verify1_points (hS : V.SetDataLaw) (hP : V.PacketLaw) (hR : V.StreamLaw) {raw : List Datum}
    (hu : (raw.map Datum.id).Nodup) (hraw : ∀ d ∈ raw, d.Decodes) :
    ∃ lines, (verify1 L a raw >>= Written.file) = .ok lines ∧ File1 V o raw lines := by
  obtain ⟨lines, hfile, hids, hmem⟩ := verify1_file (V := V) o hS hP hraw
  refine ⟨lines, hfile, ?_⟩
  rw [verify1_eq o] at hfile
  rcases hf : forTry catchesRuntime (verify1Row L) raw (Loop.start (Round1.new L o.server))
    with ⟨r, l⟩
  rw [hf] at hfile
  cases r with
  | error e => cases hfile
  | ok u =>
    have hout : l.out = lines := Except.ok.inj hfile
    have htr := verify1_tracks_pos (V := V) hS hP hR o.ident
    have hI : V.ident (Round1.new L o.server).server = o.ident ∧
        V.pos (Round1.new L o.server).server = 0 := ⟨o.ident_server hS, hR.new_pos _ _ _ _⟩
    refine ⟨fun y hy => ?_, hids, fun id q hq => ?_, fun hL d hd hdec => ?_⟩
    · obtain ⟨d, -, r, hl⟩ := hmem y hy
      exact hl.decodes
    · obtain ⟨y, hy, rfl, -, rfl⟩ := hq
      rcases forTry_mem htr (g := 0) hI hf (hout ▸ hy) with hin | ⟨pre, d, post, rfl, hl⟩
      · cases hin
      · obtain ⟨-, hdec, q, hq, rfl⟩ := hl
        refine ⟨d, by simp, rfl, hdec, ?_⟩
        unfold point1
        rw [before_append hu, bytes_encoded]
        rw [foldl_count, Nat.zero_add] at hq
        exact hq
    · obtain ⟨post, hsplit⟩ := exists_before hu hd
      have hlive : ∀ (n : ℕ) (s : Round1 L), V.ident s.server = o.ident ∧ V.pos s.server = n →
          ∃ y, ((verify1Row L d).exec s).1 = .ok y := by
        intro n s hs
        obtain ⟨q, hq⟩ := verify1Calls_live hS hP hL (o := s) (b := d.bytes) (by rwa [hs.1])
        refine ⟨⟨d.id, b64encode q⟩, ?_⟩
        rw [verify1Row_exec (hraw d hd), hq]; rfl
      obtain ⟨y, hy, hl⟩ := forTry_emits htr (g := 0) hI hf hsplit hlive
      obtain ⟨-, -, q, -, rfl⟩ := hl
      rw [hout] at hy
      exact ⟨q, ⟨d.id, b64encode q⟩, hy, rfl, decodes_encoded _ _, bytes_encoded _ _⟩

/-- verify2's output: one line for each share that decodes and whose id has two
verify1 packets that are read, with its point. -/
structure File2 (V : L1.View L) (o : Opened L a) (raw vi ve lines : List Datum) : Prop where
  decodes : ∀ y ∈ lines, y.Decodes
  ids : (lines.map Datum.id).Sublist (raw.map Datum.id)
  made : ∀ id q, Holds lines id q → ∃ d ∈ raw, d.id = id ∧ V.decodes o.ident d.bytes = true ∧
    ∃ x z, Holds vi id x ∧ Holds ve id z ∧
      V.Made2 ⟨o.ident, d.bytes, point2 V o raw vi ve id⟩ x z q
  live : V.LiveLaw → ∀ d ∈ raw, V.decodes o.ident d.bytes = true → ∀ x z, Holds vi d.id x →
    Holds ve d.id z → V.reads1 x = true → V.reads1 z = true → ∃ q, Holds lines d.id q

theorem verify2_points (hS : V.SetDataLaw) (hP : V.PacketLaw) (hR : V.StreamLaw)
    {raw vi ve : List Datum} (hu : (raw.map Datum.id).Nodup) (hi : (vi.map Datum.id).Nodup)
    (he : (ve.map Datum.id).Nodup) (hraw : ∀ d ∈ raw, d.Decodes) (hvi : ∀ d ∈ vi, d.Decodes)
    (hve : ∀ d ∈ ve, d.Decodes) :
    ∃ lines, (verify2 L a raw vi ve >>= Written.file) = .ok lines ∧
      File2 V o raw vi ve lines := by
  obtain ⟨lines, hfile, hids, hmem⟩ := verify2_file (V := V) o hS hP hraw hvi hve
  refine ⟨lines, hfile, ?_⟩
  rw [verify2_eq o] at hfile
  rcases hf : forTry catchesRuntimeKey (verify2Row L o.config vi ve) raw
    (Loop.start (Round2.new L o.server)) with ⟨r, l⟩
  rw [hf] at hfile
  cases r with
  | error e => cases hfile
  | ok u =>
    have hout : l.out = lines := Except.ok.inj hfile
    have htr := verify2_tracks_pos (V := V) hS hP hR o.ident o.config vi ve
    have hI : V.ident (Round2.new L o.server).server = o.ident ∧
        V.pos (Round2.new L o.server).server = 0 := ⟨o.ident_server hS, hR.new_pos _ _ _ _⟩
    refine ⟨fun y hy => ?_, hids, fun id q hq => ?_, fun hL d hd hdec x z hx hz hrx hrz => ?_⟩
    · obtain ⟨d, -, r, hl⟩ := hmem y hy
      exact hl.decodes
    · obtain ⟨y, hy, rfl, -, rfl⟩ := hq
      rcases forTry_mem htr (g := 0) hI hf (hout ▸ hy) with hin | ⟨pre, d, post, rfl, hl⟩
      · cases hin
      · obtain ⟨-, hdec, x, z, q, hx, hz, hq, rfl⟩ := hl
        refine ⟨d, by simp, rfl, hdec, x, z, hx, hz, ?_⟩
        unfold point2
        rw [before_append hu, bytes_encoded]
        rw [foldl_count, Nat.zero_add] at hq
        exact hq
    · obtain ⟨post, hsplit⟩ := exists_before hu hd
      have hargs := rowArgs_of_holds hi he (hraw d hd) hx hz
      have hlive : ∀ (n : ℕ) (s : Round2 L), V.ident s.server = o.ident ∧ V.pos s.server = n →
          ∃ y, ((verify2Row L o.config vi ve d).exec s).1 = .ok y := by
        intro n s hs
        obtain ⟨q, hq⟩ := verify2Calls_live hS hP hL o.config (o := s) (b := d.bytes)
          (by rwa [hs.1]) hrx hrz
        refine ⟨⟨d.id, b64encode q⟩, ?_⟩
        rw [verify2Row_exec hargs, hq]; rfl
      obtain ⟨y, hy, hl⟩ := forTry_emits htr (g := 0) hI hf hsplit hlive
      obtain ⟨-, -, x, z, q, -, -, -, rfl⟩ := hl
      rw [hout] at hy
      exact ⟨q, ⟨d.id, b64encode q⟩, hy, rfl, decodes_encoded _ _, bytes_encoded _ _⟩

end Files

end PrioProcessor.L2.Cli
