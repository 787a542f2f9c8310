import Mathlib.Data.List.Infix
import Mathlib.Tactic.Common

/-!
# Directories of an object store

An object store is flat: a directory is a prefix of keys, and an operation on
a directory touches the keys with the prefix `dir/`. Two directories can
interfere when they are equal or one contains the other; `Apart` excludes
both, and then no key is in both (`Apart.key`).

* `replaceDir`: overwrite a directory (a job with mode `overwrite`).
* `mirror`: make a directory a copy of another one and remove everything else
  in it (`mc mirror --remove --overwrite src/ dst/`).
* `replaceDir_apart`, `mirror_apart`, `put_apart`, `erase_apart`: the keys of a
  directory apart from the destination keep their objects.
-/
namespace PrioProcessor.ObjectStore

/-- The directory is equal to `e` or contains it. -/
def Under (d e : String) : Prop := (d.toList ++ ['/']) <+: (e.toList ++ ['/'])

/-- The key is in the directory. -/
def Within (d key : String) : Prop := (d.toList ++ ['/']) <+: key.toList

instance (d e : String) : Decidable (Under d e) := inferInstanceAs (Decidable (_ <+: _))

instance (d e : String) : Decidable (Within d e) := inferInstanceAs (Decidable (_ <+: _))

theorem Within.under {d e : String} (h : Within d e) : Under d e :=
  h.trans (List.prefix_append _ _)

/-- Different directories, neither inside the other. -/
structure Apart (d e : String) : Prop where
  ne : d ≠ e
  not_within : ¬ Within d e
  not_contains : ¬ Within e d

theorem apart_of_not_under {d e : String} (h : ¬ Under d e) (h' : ¬ Under e d) : Apart d e where
  ne heq := h (heq ▸ List.prefix_refl _)
  not_within hw := h hw.under
  not_contains hw := h' hw.under

theorem under_iff {d e : String} : Under d e ↔ d = e ∨ Within d e := by
  constructor
  · intro h
    obtain ⟨t, ht⟩ := h
    rcases List.eq_nil_or_concat t with rfl | ⟨t, c, rfl⟩
    · left
      rw [List.append_nil] at ht
      exact String.toList_inj.1 (List.append_left_injective _ ht)
    · right
      rw [List.concat_eq_append, ← List.append_assoc] at ht
      exact ⟨t, (List.append_inj' ht rfl).1⟩
  · intro h
    rcases h with rfl | h
    · exact List.prefix_refl _
    · exact h.under

/-- A key of two directories puts one under the other. -/
theorem under_of_key {d e k : String} (hd : Within d k) (he : Within e k) :
    Under d e ∨ Under e d :=
  List.prefix_or_prefix_of_prefix hd he

theorem Apart.key {d e k : String} (h : Apart d e) (hd : Within d k) : ¬ Within e k := by
  intro he
  rcases under_of_key hd he with hu | hu
  · rcases under_iff.1 hu with heq | hw
    · exact h.ne heq
    · exact h.not_within hw
  · rcases under_iff.1 hu with heq | hw
    · exact h.ne heq.symm
    · exact h.not_contains hw

/-! ## Components -/

theorem under_append_left (p d e : String) : Under (p ++ d) (p ++ e) ↔ Under d e := by
  unfold Under
  rw [String.toList_append, String.toList_append, List.append_assoc, List.append_assoc,
    List.prefix_append_right_inj]

theorem prefix_first {p q x y : List Char} (hp : '/' ∉ p) (hq : '/' ∉ q)
    (h : p ++ '/' :: x <+: q ++ '/' :: y) : p = q := by
  induction p generalizing q with
  | nil =>
    cases q with
    | nil => rfl
    | cons c q =>
      obtain ⟨rfl, -⟩ := List.cons_prefix_cons.1 h
      exact absurd List.mem_cons_self hq
  | cons c p ih =>
    cases q with
    | nil =>
      obtain ⟨rfl, -⟩ := List.cons_prefix_cons.1 h
      exact absurd List.mem_cons_self hp
    | cons d q =>
      obtain ⟨rfl, htail⟩ := List.cons_prefix_cons.1 h
      rw [ih (fun hc => hp (List.mem_cons_of_mem _ hc))
        (fun hc => hq (List.mem_cons_of_mem _ hc)) htail]

theorem append_left_inj {p x y : String} (h : p ++ x = p ++ y) : x = y := by
  rw [← String.toList_inj, String.toList_append, String.toList_append] at h
  exact String.toList_inj.1 (List.append_cancel_left h)

/-- Keys with the same first component, if that has no slash. -/
theorem component_inj {p q x y : String} (hp : '/' ∉ p.toList) (hq : '/' ∉ q.toList)
    (h : p ++ "/" ++ x = q ++ "/" ++ y) : p = q ∧ x = y := by
  have hpq : p = q := by
    rw [← String.toList_inj] at h
    simp only [String.toList_append, List.append_assoc] at h
    refine String.toList_inj.1 (prefix_first (x := x.toList) (y := y.toList) hp hq ?_)
    exact ⟨[], (List.append_nil _).trans h⟩
  rw [hpq] at h
  exact ⟨hpq, append_left_inj h⟩

/-- Directories in different buckets are not under one another: a bucket name
has no slash. -/
theorem Under.bucket_eq {p q x y : String} (hp : '/' ∉ p.toList) (hq : '/' ∉ q.toList)
    (h : Under (p ++ ("/" ++ x)) (q ++ ("/" ++ y))) : p = q := by
  unfold Under at h
  simp only [String.toList_append, List.append_assoc] at h
  exact String.toList_inj.1 (prefix_first hp hq h)

/-- Components of one length at one place are equal in nested directories. -/
theorem Under.component_eq {p q x y : String} (hlen : p.length = q.length)
    (h : Under (p ++ x) (q ++ y)) : p = q := by
  unfold Under at h
  simp only [String.toList_append, List.append_assoc] at h
  have hl : p.toList.length = q.toList.length := by
    rw [String.length_toList, String.length_toList, hlen]
  exact String.toList_inj.1 ((List.prefix_append_inj_of_length_eq hl).1 h).1

/-! ## Operations -/

/-- The objects of a store. -/
abbrev Store (β : Type) := String → Option β

variable {β : Type}

/-- The key below the directory. -/
def below (d key : String) : String := String.ofList (key.toList.drop (d.toList.length + 1))

def put (key : String) (v : β) (s : Store β) : Store β := fun k => if k = key then some v else s k

def erase (key : String) (s : Store β) : Store β := fun k => if k = key then none else s k

/-- The directory holds exactly `new`, by the keys below it. -/
def replaceDir (d : String) (new : String → Option β) (s : Store β) : Store β := fun k =>
  if Within d k then new (below d k) else s k

/-- `mc mirror --remove --overwrite src/ dst/` -/
def mirror (src dst : String) (s : Store β) : Store β :=
  replaceDir dst (fun k => s (src ++ "/" ++ k)) s

theorem within_append (d k : String) : Within d (d ++ "/" ++ k) := by
  unfold Within
  rw [String.toList_append, String.toList_append]
  exact List.prefix_append _ _

theorem within_iff {d k : String} : Within d k ↔ ∃ x, k = d ++ "/" ++ x := by
  constructor
  · intro h
    obtain ⟨t, ht⟩ := h
    refine ⟨String.ofList t, String.toList_inj.1 ?_⟩
    simp only [String.toList_append, String.toList_ofList]
    exact ht.symm
  · intro h
    obtain ⟨x, rfl⟩ := h
    exact within_append d x

/-- A directory below `d` only has keys of `d`. -/
theorem within_sub {d x k : String} (h : Within (d ++ "/" ++ x) k) : Within d k :=
  List.IsPrefix.trans (by
    unfold Within at *
    rw [String.toList_append, String.toList_append, List.append_assoc]
    exact List.prefix_append _ _) h

theorem below_append (d k : String) : below d (d ++ "/" ++ k) = k := by
  unfold below
  rw [String.toList_append, String.toList_append, List.append_assoc, ← List.drop_drop,
    List.drop_left]
  exact String.ofList_toList

theorem replaceDir_in (d x : String) (new : String → Option β) (s : Store β) :
    replaceDir d new s (d ++ "/" ++ x) = new x := by
  unfold replaceDir
  rw [if_pos (within_append d x), below_append]

variable {d e k : String}

theorem replaceDir_apart (h : Apart d e) (hk : Within d k) (new : String → Option β)
    (s : Store β) : replaceDir e new s k = s k := by
  unfold replaceDir
  rw [if_neg (h.key hk)]

theorem mirror_apart (h : Apart d e) (hk : Within d k) (src : String) (s : Store β) :
    mirror src e s k = s k := replaceDir_apart h hk _ s

theorem Apart.key_ne (h : Apart d e) (hk : Within d k) (x : String) : k ≠ e ++ "/" ++ x := by
  intro heq
  rw [heq] at hk
  exact h.key hk (within_append e x)

theorem put_apart (h : Apart d e) (hk : Within d k) (x : String) (v : β) (s : Store β) :
    put (e ++ "/" ++ x) v s k = s k := by
  unfold put
  rw [if_neg (h.key_ne hk x)]

theorem erase_apart (h : Apart d e) (hk : Within d k) (x : String) (s : Store β) :
    erase (e ++ "/" ++ x) s k = s k := by
  unfold erase
  rw [if_neg (h.key_ne hk x)]

theorem put_dst (d x y : String) (v : β) (s : Store β) :
    put (d ++ "/" ++ x) v s (d ++ "/" ++ y) = if y = x then some v else s (d ++ "/" ++ y) := by
  unfold put
  by_cases h : y = x
  · rw [h, if_pos rfl, if_pos rfl]
  · rw [if_neg h, if_neg fun heq => h (append_left_inj heq)]

theorem erase_dst (d x y : String) (s : Store β) :
    erase (d ++ "/" ++ x) s (d ++ "/" ++ y) = if y = x then none else s (d ++ "/" ++ y) := by
  unfold erase
  by_cases h : y = x
  · rw [h, if_pos rfl, if_pos rfl]
  · rw [if_neg h, if_neg fun heq => h (append_left_inj heq)]

/-- The keys below a directory after a put there. -/
theorem isSome_put_dst {d x y : String} {v : β} {s : Store β} :
    (put (d ++ "/" ++ x) v s (d ++ "/" ++ y)).isSome = true ↔
      y = x ∨ (s (d ++ "/" ++ y)).isSome = true := by
  rw [put_dst]
  by_cases h : y = x
  · simp [h]
  · simp [h]

theorem isSome_erase_dst {d x y : String} {s : Store β} :
    (erase (d ++ "/" ++ x) s (d ++ "/" ++ y)).isSome = true ↔
      y ≠ x ∧ (s (d ++ "/" ++ y)).isSome = true := by
  rw [erase_dst]
  by_cases h : y = x
  · simp [h]
  · simp [h]

/-- After a mirror the destination holds the source's objects, by the keys
below. -/
theorem mirror_dst (src dst x : String) (s : Store β) :
    mirror src dst s (dst ++ "/" ++ x) = s (src ++ "/" ++ x) := replaceDir_in dst x _ s

end PrioProcessor.ObjectStore
