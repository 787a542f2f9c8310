import Mathlib.Tactic.Common

/-!
# Objects that are decoded on use

A codec writes a value to bytes and reads bytes into a fresh value. An object
restored from bytes (`loads`) keeps them as `pending` next to a fresh value and
reads them when `deserialize` is called; `dumps` writes the value alone and
does not look at `pending`. An object therefore has two representations, and
`StandsFor` says which value it is about.

* `run_kept`: along a history in which `deserialize` is called between any two
  round trips, the object stands for the value it had at the start.
* `run_lost`: along any other history that does not raise, it ends up standing
  for the fresh value.
* `kept_iff`: the object is the one it was exactly in the histories of the
  first kind.
-/
namespace PrioProcessor

/-- `truthy` is the test `if data:` of the bytes. -/
structure Codec (ε P B C : Type) where
  fresh : P
  write : P → Except ε B
  read : P → B → C → Except ε Unit × P
  truthy : B → Bool

/-- A value, and the bytes it is still to be read from. -/
structure Lazy (P B : Type) where
  value : P
  pending : Option B
  deriving DecidableEq, Repr

/-- A round trip through bytes, or a call of `deserialize`. -/
inductive LazyOp (C : Type) where
  | roundTrip
  | deserialize (c : C)
  deriving DecidableEq, Repr

namespace Codec

variable {ε P B C : Type} (K : Codec ε P B C)

/-- A read that raises leaves the bytes pending. -/
def deserialize (c : C) (o : Lazy P B) : Except ε Unit × Lazy P B :=
  match o.pending with
  | none => (.ok (), ⟨o.value, none⟩)
  | some b =>
    if K.truthy b then
      match K.read o.value b c with
      | (.ok (), p) => (.ok (), ⟨p, none⟩)
      | (.error e, p) => (.error e, ⟨p, some b⟩)
    else (.ok (), ⟨o.value, none⟩)

def dumps (o : Lazy P B) : Except ε B := K.write o.value

def loads (b : B) : Lazy P B := ⟨K.fresh, some b⟩

def step : LazyOp C → Lazy P B → Except ε (Lazy P B)
  | .roundTrip, o => (K.dumps o).map K.loads
  | .deserialize c, o => (K.deserialize c o).1.map fun _ => (K.deserialize c o).2

/-- A history; an exception ends it. -/
def run : List (LazyOp C) → Lazy P B → Except ε (Lazy P B)
  | [], o => .ok o
  | op :: ops, o => (K.step op o).bind (run ops)

/-- What the object is written as once it has been deserialized. -/
def rewritten (c : C) (o : Lazy P B) : Except ε B :=
  (K.deserialize c o).1.bind fun _ => K.dumps (K.deserialize c o).2

/-- Some round trip starts from an object that has bytes pending; `pending`
says whether the object has some at the start. -/
def stale : Bool → List (LazyOp C) → Bool
  | _, [] => false
  | pending, .roundTrip :: ops => pending || stale true ops
  | _, .deserialize _ :: ops => stale false ops

/-- The histories call `deserialize` with contexts from `shared`. -/
def Within (shared : C → Prop) (ops : List (LazyOp C)) : Prop :=
  ∀ c, .deserialize c ∈ ops → shared c

/-! ## Laws -/

/-- The values in `Made` hold data, which the fresh value does not, and can be
written; what is written is not empty, and reading it undoes the write. -/
structure Law (Made : P → Prop) (shared : C → Prop) : Prop where
  holds : ∀ p, Made p → p ≠ K.fresh
  written : ∀ p, Made p → ∃ b, K.write p = .ok b
  truthy : ∀ p b, p = K.fresh ∨ Made p → K.write p = .ok b → K.truthy b = true
  read : ∀ p b c, p = K.fresh ∨ Made p → K.write p = .ok b → shared c →
    K.read K.fresh b c = (.ok (), p)

/-- The object is about the value `p`; the flag says whether it has bytes
pending. -/
def StandsFor (p : P) : Bool → Lazy P B → Prop
  | false, o => o = ⟨p, none⟩
  | true, o => ∃ b, K.write p = .ok b ∧ o = ⟨K.fresh, some b⟩

variable {K} {Made : P → Prop} {shared : C → Prop} {p : P} {o o' : Lazy P B} {q : Bool}
  {ops : List (LazyOp C)}

theorem deserialize_standsFor (hK : K.Law Made shared) (hp : p = K.fresh ∨ Made p)
    (h : K.StandsFor p q o) {c : C} (hc : shared c) :
    K.deserialize c o = (.ok (), ⟨p, none⟩) := by
  cases q with
  | false => cases h; rfl
  | true =>
    obtain ⟨b, hb, rfl⟩ := h
    unfold deserialize
    dsimp only
    rw [if_pos (hK.truthy p b hp hb), hK.read p b c hp hb hc]

theorem rewritten_standsFor (hK : K.Law Made shared) (hp : p = K.fresh ∨ Made p)
    (h : K.StandsFor p q o) {c : C} (hc : shared c) : K.rewritten c o = K.write p := by
  unfold rewritten
  rw [deserialize_standsFor hK hp h hc]
  rfl

theorem within_cons {op : LazyOp C} (h : Within shared (op :: ops)) : Within shared ops :=
  fun c hc => h c (.tail op hc)

/-- An object that stands for the fresh value does so for ever. -/
theorem run_fresh (hK : K.Law Made shared) (hops : Within shared ops)
    (h : K.StandsFor K.fresh q o) (hr : K.run ops o = .ok o') :
    ∃ q', K.StandsFor K.fresh q' o' := by
  induction ops generalizing o q with
  | nil => cases hr; exact ⟨q, h⟩
  | cons op ops ih =>
    have ih' := fun {o q} => ih (o := o) (q := q) (within_cons hops)
    have hvalue : o.value = K.fresh := by
      cases q with
      | false => cases h; rfl
      | true => obtain ⟨b, -, rfl⟩ := h; rfl
    cases op with
    | roundTrip =>
      simp only [run, step, dumps, hvalue] at hr
      cases hw : K.write K.fresh with
      | error e => rw [hw] at hr; cases hr
      | ok b =>
        rw [hw] at hr
        exact ih' (q := true) ⟨b, hw, rfl⟩ hr
    | deserialize c =>
      have hd := deserialize_standsFor hK (.inl rfl) h (hops c List.mem_cons_self)
      simp only [run, step, hd] at hr
      exact ih' (q := false) rfl hr

/-- No round trip loses the value when `deserialize` is called before the next
one. -/
theorem run_kept (hK : K.Law Made shared) (hp : Made p) (hops : Within shared ops)
    (h : K.StandsFor p q o) (hs : stale q ops = false) :
    ∃ o' q', K.run ops o = .ok o' ∧ K.StandsFor p q' o' := by
  induction ops generalizing o q with
  | nil => exact ⟨o, q, rfl, h⟩
  | cons op ops ih =>
    have ih' := fun {o q} => ih (o := o) (q := q) (within_cons hops)
    cases op with
    | roundTrip =>
      obtain ⟨hnone, hrest⟩ := Bool.or_eq_false_iff.1 hs
      rw [hnone] at h
      cases h
      obtain ⟨b, hb⟩ := hK.written p hp
      simp only [run, step, dumps, hb]
      exact ih' (q := true) ⟨b, hb, rfl⟩ hrest
    | deserialize c =>
      have hd := deserialize_standsFor hK (.inr hp) h (hops c List.mem_cons_self)
      simp only [run, step, hd]
      exact ih' (q := false) rfl hs

/-- A round trip of an object with bytes pending loses them. -/
theorem run_lost (hK : K.Law Made shared) (hp : Made p) (hops : Within shared ops)
    (h : K.StandsFor p q o) (hs : stale q ops = true) (hr : K.run ops o = .ok o') :
    ∃ q', K.StandsFor K.fresh q' o' := by
  induction ops generalizing o q with
  | nil => cases hs
  | cons op ops ih =>
    have ih' := fun {o q} => ih (o := o) (q := q) (within_cons hops)
    cases op with
    | roundTrip =>
      simp only [run, step, dumps] at hr
      cases q with
      | false =>
        cases h
        obtain ⟨b, hb⟩ := hK.written p hp
        rw [hb] at hr
        exact ih' (q := true) ⟨b, hb, rfl⟩ hs hr
      | true =>
        -- the fresh value is written in place of the pending bytes
        obtain ⟨b, -, rfl⟩ := h
        cases hw : K.write K.fresh with
        | error e => rw [hw] at hr; cases hr
        | ok w =>
          rw [hw] at hr
          exact run_fresh hK (within_cons hops) (q := true) ⟨w, hw, rfl⟩ hr
    | deserialize c =>
      have hd := deserialize_standsFor hK (.inr hp) h (hops c List.mem_cons_self)
      simp only [run, step, hd] at hr
      exact ih' (q := false) rfl hs hr

/-- After such a history the object is deserialized as a fresh one is. -/
theorem deserialize_lost (hK : K.Law Made shared) (hp : Made p) (hops : Within shared ops)
    (hs : stale false ops = true) (hr : K.run ops ⟨p, none⟩ = .ok o') {c : C} (hc : shared c) :
    K.deserialize c o' = K.deserialize c ⟨K.fresh, none⟩ := by
  have hstart : K.StandsFor p false ⟨p, none⟩ := rfl
  obtain ⟨q', ho'⟩ := run_lost hK hp hops hstart hs hr
  exact deserialize_standsFor hK (.inl rfl) ho' hc

/-- The fresh value is not written as a value that holds data. -/
theorem write_fresh_ne (hK : K.Law Made shared) (hp : Made p) {b : B} (hb : K.write p = .ok b)
    {c₀ : C} (hc₀ : shared c₀) : K.write K.fresh ≠ .ok b := by
  intro hw
  have h₁ := hK.read p b c₀ (.inr hp) hb hc₀
  have h₂ := hK.read K.fresh b c₀ (.inl rfl) hw hc₀
  rw [h₁] at h₂
  exact hK.holds p hp (congrArg Prod.snd h₂)

/-- After a history the object is written, once deserialized, as it was before
it exactly when no round trip started with bytes pending. -/
theorem kept_iff (hK : K.Law Made shared) (hp : Made p) (hops : Within shared ops) {c₀ : C}
    (hc₀ : shared c₀) : stale false ops = false ↔ ∃ o', K.run ops ⟨p, none⟩ = .ok o' ∧
      ∀ c, shared c → K.rewritten c o' = K.rewritten c ⟨p, none⟩ := by
  have hstart : K.StandsFor p false ⟨p, none⟩ := rfl
  refine ⟨fun hs => ?_, fun h => ?_⟩
  · obtain ⟨o', q', hr, ho'⟩ := run_kept hK hp hops hstart hs
    refine ⟨o', hr, fun c hc => ?_⟩
    rw [rewritten_standsFor hK (.inr hp) ho' hc, rewritten_standsFor hK (.inr hp) hstart hc]
  · obtain ⟨o', hr, hsame⟩ := h
    by_contra hs
    rw [Bool.not_eq_false] at hs
    obtain ⟨q', ho'⟩ := run_lost hK hp hops hstart hs hr
    obtain ⟨b, hb⟩ := hK.written p hp
    refine write_fresh_ne hK hp hb hc₀ ?_
    rw [← rewritten_standsFor hK (.inl rfl) ho' hc₀, hsame c₀ hc₀,
      rewritten_standsFor hK (.inr hp) hstart hc₀, hb]

end Codec

end PrioProcessor
