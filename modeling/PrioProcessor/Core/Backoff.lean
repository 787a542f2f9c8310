import Mathlib.Tactic.Ring

/-!
# Exponential backoff

A loop tests a condition and sleeps until the condition holds; the first sleep
takes `d` and each next one `e` times as long. A test that fails although the
condition will hold soon costs one more sleep, which is at most `d` and `e - 1`
times what the loop has slept so far (`sleep_eq`), so a loop that entered at
`x` and waits for something that comes at `m` is awake again by
`m + d + (e - 1) * (m - x)` (`wake_le`).

Two parties that go through rounds and wait for each other in this way drift
apart by at most `window` from round to round.
-/
namespace PrioProcessor.Backoff

/-- How long the first `k` sleeps take. -/
def time (d e : ℕ) : ℕ → ℕ
  | 0 => 0
  | k + 1 => time d e k + d * e ^ k

theorem time_mono (d e : ℕ) {k l : ℕ} (h : k ≤ l) : time d e k ≤ time d e l := by
  induction h with
  | refl => exact Nat.le_refl _
  | step _ ih => exact Nat.le_trans ih (Nat.le_add_right _ _)

/-- Sleeps of one length. -/
theorem time_one (d k : ℕ) : time d 1 k = k * d := by
  induction k with
  | zero => simp [time]
  | succ k ih => rw [time, ih, Nat.one_pow, Nat.mul_one, Nat.succ_mul]

/-- The next sleep, by what was slept so far. -/
theorem sleep_eq (d : ℕ) {e : ℕ} (he : 1 ≤ e) (k : ℕ) :
    d * e ^ k = d + (e - 1) * time d e k := by
  obtain ⟨f, rfl⟩ := Nat.exists_eq_add_of_le' he
  induction k with
  | zero => simp [time]
  | succ k ih =>
    have hnext : d * (f + 1) ^ (k + 1) = d * (f + 1) ^ k + f * (d * (f + 1) ^ k) := by ring
    rw [hnext, time, Nat.add_sub_cancel, Nat.mul_add, ← Nat.add_assoc]
    rw [Nat.add_sub_cancel] at ih
    omega

/-- A loop whose last test came no later than `m` is awake again soon after. -/
theorem wake_le {d e x polled m w : ℕ} (hpolled : polled ≤ m) (hw : m ≤ x + w) :
    polled + (d + (e - 1) * (polled - x)) ≤ m + (d + (e - 1) * w) := by
  have hmul : (e - 1) * (polled - x) ≤ (e - 1) * w := Nat.mul_le_mul_left _ (by omega)
  omega

/-- How far apart two parties enter round `k + 1`, if they enter round 1 at
most `first` apart, wake up at most `lag` late and work at most `work`. -/
def window (d e lag work first : ℕ) : ℕ → ℕ
  | 0 => first
  | k + 1 => (e - 1) * window d e lag work first k + d + lag + work

theorem window_one_le (d lag work first k : ℕ) :
    window d 1 lag work first k ≤ max first (d + lag + work) := by
  cases k with
  | zero => exact le_max_left _ _
  | succ k => simp [window]

end PrioProcessor.Backoff
