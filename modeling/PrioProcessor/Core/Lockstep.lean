import PrioProcessor.Core.Lts
import Mathlib.Algebra.BigOperators.Group.List.Basic
import Mathlib.Algebra.GroupWithZero.Nat
import Mathlib.Data.List.Nodup

/-!
# Two parties in lockstep

Two parties take each item through `k` rounds. A party takes its next round of
an item once its peer has taken as many of it, so the answer that round needs
has been sent; the items do not wait for one another. A state is the number of
rounds of each item done at each party.

* `skew`: the peers are at most one round of an item apart.
* `can_step`: an item that is not through all rounds at both parties can be
  taken further at one of them.
* `rank_step`: a step lowers the number of rounds to go by one.
-/
namespace PrioProcessor.Lockstep

variable {P ι : Type} [DecidableEq P] [DecidableEq ι]

/-- The rounds of each item done at each party. -/
abbrev St (P ι : Type) : Type := P → ι → ℕ

/-- Party `p` takes its next round of item `i`. -/
def advance (s : St P ι) (p : P) (i : ι) : St P ι :=
  Function.update s p (Function.update (s p) i (s p i + 1))

/-- Party `p` may take its next round of item `i`. -/
def Ready (peer : P → P) (k : ℕ) (s : St P ι) (p : P) (i : ι) : Prop :=
  s p i < k ∧ s p i ≤ s (peer p) i

def lockstep (peer : P → P) (k : ℕ) : LTS (St P ι) (P × ι) where
  init s := s = fun _ _ => 0
  step s l t := Ready peer k s l.1 l.2 ∧ t = advance s l.1 l.2

@[simp] theorem advance_self (s : St P ι) (p : P) (i : ι) : advance s p i p i = s p i + 1 := by
  simp [advance]

theorem advance_item {s : St P ι} {p : P} {i j : ι} (q : P) (h : j ≠ i) :
    advance s p i q j = s q j := by
  unfold advance
  by_cases hq : q = p
  · subst hq; simp [h]
  · simp [hq]

theorem advance_party {s : St P ι} {p q : P} {i : ι} (j : ι) (h : q ≠ p) :
    advance s p i q j = s q j := by simp [advance, h]

/-- Peers at most one round of an item apart, and no more than `k` rounds. -/
structure Skew (peer : P → P) (k : ℕ) (s : St P ι) : Prop where
  near : ∀ p i, s p i ≤ s (peer p) i + 1
  le : ∀ p i, s p i ≤ k

variable {peer : P → P} {k : ℕ}

theorem skew_step {s t : St P ι} {l : P × ι} (h : Skew peer k s)
    (hst : (lockstep peer k).step s l t) : Skew peer k t := by
  obtain ⟨p, i⟩ := l
  obtain ⟨⟨hlt, hle⟩, rfl⟩ := hst
  dsimp only at hlt hle ⊢
  have hgrow : ∀ q j, s q j ≤ advance s p i q j := fun q j => by
    by_cases hj : j = i
    · by_cases hq : q = p
      · subst hj hq; simp
      · rw [advance_party j hq]
    · rw [advance_item q hj]
  constructor
  · intro q j
    by_cases hj : j = i ∧ q = p
    · obtain ⟨rfl, rfl⟩ := hj
      have := hgrow (peer q) j
      rw [advance_self]; omega
    · have hq : advance s p i q j = s q j := by
        by_cases hji : j = i
        · exact advance_party j fun hqp => hj ⟨hji, hqp⟩
        · exact advance_item q hji
      have := h.near q j
      have := hgrow (peer q) j
      omega
  · intro q j
    by_cases hj : j = i
    · by_cases hq : q = p
      · subst hj hq; rw [advance_self]; exact hlt
      · rw [advance_party j hq]; exact h.le q j
    · rw [advance_item q hj]; exact h.le q j

theorem skew : (lockstep peer k : LTS (St P ι) (P × ι)).Inductive (Skew peer k) where
  init s h := by subst h; exact ⟨fun _ _ => Nat.zero_le _, fun _ _ => Nat.zero_le _⟩
  step _ _ _ := skew_step

omit [DecidableEq P] [DecidableEq ι] in
/-- An item short of `k` rounds at a party is ready at the party or at its
peer. -/
theorem can_step (hpeer : Function.Involutive peer) {s : St P ι} {p : P} {i : ι}
    (hlt : s p i < k) : Ready peer k s p i ∨ Ready peer k s (peer p) i := by
  by_cases hle : s p i ≤ s (peer p) i
  · exact .inl ⟨hlt, hle⟩
  · refine .inr ⟨by omega, ?_⟩
    rw [hpeer p]; omega

/-! ## Rounds to go -/

/-- The rounds of the listed items a party has still to take. -/
def toGo (k : ℕ) (items : List ι) (s : St P ι) (p : P) : ℕ := (items.map fun i => k - s p i).sum

/-- The rounds of the listed items a party and its peer have still to take. -/
def rank (peer : P → P) (k : ℕ) (items : List ι) (s : St P ι) (p : P) : ℕ :=
  toGo k items s p + toGo k items s (peer p)

theorem toGo_other {items : List ι} {s : St P ι} {p q : P} (i : ι) (h : q ≠ p) :
    toGo k items (advance s p i) q = toGo k items s q := by
  unfold toGo
  congr 1
  exact List.map_congr_left fun j _ => by rw [advance_party j h]

theorem toGo_self {items : List ι} (hnd : items.Nodup) {s : St P ι} {p : P} {i : ι} (hi : i ∈ items)
    (hlt : s p i < k) : toGo k items (advance s p i) p + 1 = toGo k items s p := by
  unfold toGo
  induction items with
  | nil => cases hi
  | cons j items ih =>
    obtain ⟨hj, hnd⟩ := List.nodup_cons.1 hnd
    simp only [List.map_cons, List.sum_cons]
    by_cases hij : i = j
    · subst hij
      have hrest : (items.map fun j => k - advance s p i p j) = items.map fun j => k - s p j :=
        List.map_congr_left fun j' hj' => by
          rw [advance_item p (fun h => hj (by rwa [h] at hj'))]
      rw [hrest, advance_self]; omega
    · have := ih hnd ((List.mem_cons.1 hi).resolve_left hij)
      rw [advance_item p (Ne.symm hij)]; omega

/-- A step of either party lowers the rank by one. -/
theorem rank_step {items : List ι} (hnd : items.Nodup) (hne : ∀ p, peer p ≠ p) {s : St P ι}
    {p q : P} {i : ι} (hi : i ∈ items) (hq : q = p ∨ q = peer p) (hlt : s q i < k) :
    rank peer k items (advance s q i) p + 1 = rank peer k items s p := by
  unfold rank
  rcases hq with rfl | rfl
  · have := toGo_self hnd hi hlt
    rw [toGo_other i (hne q)]; omega
  · have := toGo_self hnd hi hlt
    rw [toGo_other i (hne p).symm]; omega

end PrioProcessor.Lockstep
