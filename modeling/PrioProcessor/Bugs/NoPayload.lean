import PrioProcessor.L5Origin.Pairing
import Mathlib.Data.Rat.Floor
import Mathlib.Algebra.Order.Field.Basic

/-!
# A day without payloads cannot be staged

`estimate_num_partitions` (prio_processor/origin/staging.py:108-112) sums the
lengths of the payloads under "a" and hands the quotient to
`repartitionByRange`. The sum over no rows, or over nulls alone, is null, and
`size_b * 1.0` raises `TypeError`; the sum over empty strings is 0, and Spark
refuses 0 partitions. The function does not guard either case, so `transform`
fails on a day without pings, without `prioData`, without a payload under "a",
or with empty payloads alone.

Counterexample: no pings at all, one entry without the key "a", and one with an
empty payload (`day_without_payload`).

Condition on the pings (`sized_iff`): some entry of a kept ping has a payload
under "a" that is not empty.
-/
namespace PrioProcessor.Bugs.NoPayload

open L5 L5.Pairing

/-- The number of partitions is the quotient, rounded up. -/
theorem estimate_eq_ceil {rows : List Numbered} {mb n : ℕ} (hmb : 0 < mb)
    (h : estimateNumPartitions rows mb = .ok n) :
    n = ⌈(totalLength rows : ℚ) / 10 ^ 6 / mb⌉₊ := by
  refine eq_of_forall_ge_iff fun k => ?_
  have hpos : (0 : ℚ) < mb := by exact_mod_cast hmb
  rw [estimate_le_iff hmb h, Nat.ceil_le, div_le_iff₀ hpos, div_le_iff₀ (by norm_num)]
  have hk : ((k * (1000000 * mb) : ℕ) : ℚ) = k * mb * 10 ^ 6 := by push_cast; ring
  rw [← hk, Nat.cast_le]

/-- `transform` completes, in as many partitions of 250 MB as hold the payloads
under "a", and at least one. -/
def Sized (C : Choices) (data : List Ping) : Prop :=
  ∃ n out, estimateNumPartitions (numbered C data) 250 = .ok n ∧ transform C data = .ok out ∧
    n = ⌈(totalLength (numbered C data) : ℚ) / 10 ^ 6 / 250⌉₊ ∧ 1 ≤ n ∧
    (totalLength (numbered C data) : ℚ) ≤ n * (250 * 10 ^ 6)

/-- **Condition**: a day is staged exactly when some entry of a kept ping has a
payload under "a" that is not empty. -/
theorem sized_iff (C : Choices) (data : List Ping) : Sized C data ↔
    ∃ b ∈ blocks (kept C data), ∃ s, payloadOf "a" b.prio = some s ∧ s ≠ "" := by
  rw [← exists_numbered fun prio => ∃ s, payloadOf "a" prio = some s ∧ s ≠ ""]
  have hmb : 0 < 250 := by decide
  refine Iff.trans ?_ (estimate_pos_iff hmb)
  constructor
  · rintro ⟨n, out, hn, -, -, hpos, -⟩
    exact ⟨n, hn, hpos⟩
  · rintro ⟨n, hn, hpos⟩
    refine ⟨n, (partitions C data).flatten, hn, ?_, estimate_eq_ceil hmb hn, hpos, ?_⟩
    · rw [transform_eq, hn]
      simp only [Except.bind]
      rw [if_neg (by omega)]
    · have hfit := (estimate_le_iff hmb hn n).1 (le_refl n)
      have hfit : (totalLength (numbered C data) : ℚ) ≤ ((n * (1000000 * 250) : ℕ) : ℚ) := by
        exact_mod_cast hfit
      refine hfit.trans_eq ?_
      push_cast
      ring

/-- **Counterexample**: an empty day, a day whose only entry lacks the key "a",
and one whose only payload is empty. -/
theorem day_without_payload :
    let C : Choices := ⟨.whole, .whole, .whole⟩
    let b : PrioMap := ⟨[("b", some "y")], by decide⟩
    let empty : PrioMap := ⟨[("a", some ""), ("b", some "y")], by decide⟩
    transform C [] = .error .typeError ∧
    transform C [⟨some "p", none⟩] = .error .typeError ∧
    transform C [⟨some "p", some [⟨some "e", some b⟩]⟩] = .error .typeError ∧
    transform C [⟨some "p", some [⟨some "e", some empty⟩]⟩] = .error .illegalArgument ∧
    ¬ Sized C [] := by
  refine ⟨rfl, rfl, rfl, by decide +kernel, ?_⟩
  rintro ⟨n, out, hn, -⟩
  cases hn

end PrioProcessor.Bugs.NoPayload
