import Mathlib.Data.List.Count
import Mathlib.Data.List.Nodup
import Mathlib.Data.List.Perm.Basic
import Mathlib.Algebra.BigOperators.Group.List.Basic

/-!
# Tables matched by a key

Two ways to match the rows of two tables: the relational inner join, and a
dictionary built from one of them (`{key(d): val(d) for d in ds}`, where a
later row replaces an earlier one with the same key).

* `lookup_eq_some_iff`, `join_eq_filterMap`: with distinct keys the dictionary
  holds the rows of the table, and the join is a lookup for each row.

`Shuffle` is what an engine may do to the rows of a table it stores or groups:
cut them into parts, in any order.
-/
namespace PrioProcessor.Table

variable {α β κ V : Type} [DecidableEq κ]

/-! ## Dictionaries -/

def lookup (key : α → κ) (ds : List α) (k : κ) : Option α := ds.reverse.find? fun d => key d = k

theorem mem_of_lookup {key : α → κ} {ds : List α} {k : κ} {d : α} (h : lookup key ds k = some d) :
    d ∈ ds ∧ key d = k := by
  have hk := List.find?_some h
  exact ⟨List.mem_reverse.1 (List.mem_of_find?_eq_some h), of_decide_eq_true hk⟩

theorem lookup_eq_some_iff {key : α → κ} {ds : List α} (hd : (ds.map key).Nodup) {k : κ} {d : α} :
    lookup key ds k = some d ↔ d ∈ ds ∧ key d = k := by
  refine ⟨mem_of_lookup, fun ⟨hm, hk⟩ => ?_⟩
  cases hl : lookup key ds k with
  | none =>
    have hno := List.find?_eq_none.1 hl d (List.mem_reverse.2 hm)
    exact absurd (decide_eq_true hk) hno
  | some e =>
    obtain ⟨he, hek⟩ := mem_of_lookup hl
    rw [List.inj_on_of_nodup_map hd he hm (hek.trans hk.symm)]

theorem lookup_eq_none_iff {key : α → κ} {ds : List α} {k : κ} :
    lookup key ds k = none ↔ ∀ d ∈ ds, key d ≠ k := by
  simp [lookup, List.find?_eq_none]

/-! ## Inner join -/

def join (key : α → κ) (key' : β → κ) (xs : List α) (ys : List β) : List (α × β) :=
  xs.flatMap fun x => (ys.filter fun y => key' y = key x).map fun y => (x, y)

theorem mem_join {key : α → κ} {key' : β → κ} {xs : List α} {ys : List β} {p : α × β} :
    p ∈ join key key' xs ys ↔ p.1 ∈ xs ∧ p.2 ∈ ys ∧ key' p.2 = key p.1 := by
  obtain ⟨x, y⟩ := p
  simp only [join, List.mem_flatMap, List.mem_map, List.mem_filter, decide_eq_true_eq,
    Prod.mk.injEq]
  constructor
  · rintro ⟨a, ha, b, ⟨hb, hk⟩, rfl, rfl⟩
    exact ⟨ha, hb, hk⟩
  · rintro ⟨hx, hy, hk⟩
    exact ⟨x, hx, y, ⟨hy, hk⟩, rfl, rfl⟩

theorem join_cons (key : α → κ) (key' : β → κ) (x : α) (xs : List α) (ys : List β) :
    join key key' (x :: xs) ys =
      ((ys.filter fun y => key' y = key x).map fun y => (x, y)) ++ join key key' xs ys := rfl

theorem filter_key_eq {key : α → κ} {xs : List α} (hd : (xs.map key).Nodup) {x : α}
    (hx : x ∈ xs) : (xs.filter fun y => key y = key x) = [x] := by
  induction xs with
  | nil => cases hx
  | cons z xs ih =>
    have hz := List.nodup_cons.1 hd
    rw [List.filter_cons]
    rcases List.mem_cons.1 hx with rfl | hx
    · have hrest : (xs.filter fun y => key y = key x) = [] :=
        List.filter_eq_nil_iff.2 fun y hy hk =>
          hz.1 (List.mem_map.2 ⟨y, hy, of_decide_eq_true hk⟩)
      rw [if_pos (decide_eq_true rfl), hrest]
    · have hne : ¬ key z = key x := fun h => hz.1 (List.mem_map.2 ⟨x, hx, h.symm⟩)
      rw [if_neg (by simpa using hne), ih hz.2 hx]

/-- With distinct keys on the right the join is one lookup for each left row. -/
theorem join_eq_filterMap {key : α → κ} {key' : β → κ} {xs : List α} {ys : List β}
    (hd : (ys.map key').Nodup) :
    join key key' xs ys = xs.filterMap fun x => (lookup key' ys (key x)).map fun y => (x, y) := by
  induction xs with
  | nil => rfl
  | cons x xs ih =>
    rw [join_cons, ih]
    cases hl : lookup key' ys (key x) with
    | none =>
      have hno : (ys.filter fun y => key' y = key x) = [] :=
        List.filter_eq_nil_iff.2 fun y hy hk => lookup_eq_none_iff.1 hl y hy (of_decide_eq_true hk)
      rw [List.filterMap_cons_none (by rw [hl]; rfl), hno]; rfl
    | some y =>
      obtain ⟨hy, hk⟩ := mem_of_lookup hl
      have hone := filter_key_eq hd hy
      rw [hk] at hone
      rw [List.filterMap_cons_some (by rw [hl]; rfl), hone]; rfl

/-- With distinct keys on the right every left row is joined at most once. -/
theorem join_keys_sublist (key : α → κ) {key' : β → κ} (xs : List α) {ys : List β}
    (hd : (ys.map key').Nodup) :
    ((join key key' xs ys).map fun p => key p.1).Sublist (xs.map key) := by
  rw [join_eq_filterMap hd]
  induction xs with
  | nil => exact .slnil
  | cons x xs ih =>
    cases hl : lookup key' ys (key x) with
    | none =>
      rw [List.filterMap_cons_none (by rw [hl]; rfl)]
      exact ih.cons _
    | some y =>
      rw [List.filterMap_cons_some (by rw [hl]; rfl)]
      exact ih.cons_cons _

/-- Rows that agree on a property with the row they are made of are selected
by selecting these. -/
theorem filter_flatMap_of {f : α → List β} {p : β → Bool} {q : α → Bool} {xs : List α}
    (h : ∀ x ∈ xs, ∀ y ∈ f x, p y = q x) : (xs.flatMap f).filter p = (xs.filter q).flatMap f := by
  induction xs with
  | nil => rfl
  | cons x xs ih =>
    have ih := ih fun z hz => h z (.tail x hz)
    have hx := h x List.mem_cons_self
    rw [List.flatMap_cons, List.filter_append, ih, List.filter_cons]
    by_cases hq : q x = true
    · rw [if_pos hq, List.flatMap_cons, List.filter_eq_self.2 fun y hy => (hx y hy).trans hq]
    · have hnone : (f x).filter p = [] := List.filter_eq_nil_iff.2 fun y hy hp =>
        hq ((hx y hy).symm.trans hp)
      rw [if_neg hq, hnone, List.nil_append]

/-! ## Parts -/

/-- Cut the rows of a table into parts, in any order. -/
structure Shuffle (α : Type) where
  parts : List α → List (List α)
  perm : ∀ xs, (parts xs).flatten.Perm xs

namespace Shuffle

/-- The rows as they are read back, part by part. -/
def rows (S : Shuffle α) (xs : List α) : List α := (S.parts xs).flatten

theorem rows_perm (S : Shuffle α) (xs : List α) : (S.rows xs).Perm xs := S.perm xs

/-- The parts that hold a row. -/
def groups (S : Shuffle α) (xs : List α) : List (List α) := (S.parts xs).filter fun p => !p.isEmpty

theorem groups_perm (S : Shuffle α) (xs : List α) : (S.groups xs).flatten.Perm xs := by
  have h : ∀ ps : List (List α), (ps.filter fun p => !p.isEmpty).flatten = ps.flatten := by
    intro ps
    induction ps with
    | nil => rfl
    | cons p ps ih => cases p <;> simp [ih]
  rw [groups, h]
  exact S.perm xs

@[simp] theorem groups_nil (S : Shuffle α) : S.groups [] = [] := by
  have hflat : (S.groups []).flatten = [] := List.perm_nil.1 (S.groups_perm [])
  refine List.eq_nil_iff_forall_not_mem.2 fun p hp => ?_
  have hnil : p = [] := List.flatten_eq_nil_iff.1 hflat p hp
  have hne := (List.mem_filter.1 hp).2
  rw [hnil] at hne
  cases hne

theorem groups_ne_nil (S : Shuffle α) {xs : List α} (h : xs ≠ []) : S.groups xs ≠ [] := by
  intro hg
  have := (S.groups_perm xs).length_eq
  rw [hg] at this
  exact h (List.length_eq_zero_iff.1 this.symm)

/-- One part, in the given order. -/
def whole : Shuffle α := ⟨fun xs => [xs], fun xs => by simp⟩

/-- Two parts in reversed order. -/
def halves : Shuffle α where
  parts xs := [xs.drop (xs.length / 2), xs.take (xs.length / 2)]
  perm xs := by
    have h := @List.perm_append_comm _ (xs.drop (xs.length / 2)) (xs.take (xs.length / 2))
    rw [List.take_append_drop] at h
    simpa using h

end Shuffle

end PrioProcessor.Table
