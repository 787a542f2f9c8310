import Mathlib.Algebra.BigOperators.Group.List.Basic

/-!
# Code with mutable objects and exceptions

`Eff ε σ α` is code that changes objects `σ` and returns an `α` or raises an
`ε`; what it changed before a raise stays changed. `forTry` is the loop

    for x in xs:
        total += 1
        try:
            emit(body(x))
        except caught:
            error += 1

with its counters, the rows it emitted so far and the objects in one record
(`Loop`), so that an exception that is not caught leaves the rows written
before it.

* `forTry_sim`: bodies that agree along a relation between two object types
  give loops that agree.
* `forTry_mem`, `forTry_emits`: the emitted rows, one by one, with the ghost
  state each was computed in.
* `forTry_pure`: when what a body returns does not depend on the objects, the
  emitted rows are a `filterMap` of the input, the counters count, and the
  objects are a fold; `forTry_along`: the same along a relation to the objects.
* `forTry_outcomes`, `forTry_uncaught`: a loop ends exactly when it catches what
  its rows raise, and has then emitted and counted all of them.
-/
namespace PrioProcessor

@[simp] theorem ok_bind {ε α β : Type} (a : α) (f : α → Except ε β) :
    ((Except.ok a : Except ε α) >>= f) = f a := rfl

theorem bind_error {ε α β : Type} {r : Except ε α} {f : α → Except ε β} {e : ε}
    (h : (r >>= f) = .error e) : r = .error e ∨ ∃ a, f a = .error e := by
  cases r with
  | error e' => cases h; exact .inl rfl
  | ok a => exact .inr ⟨a, h⟩

theorem bind_ok {ε α β : Type} {r : Except ε α} {f : α → Except ε β} {b : β}
    (h : (r >>= f) = .ok b) : ∃ a, r = .ok a ∧ f a = .ok b := by
  cases r with
  | error e => cases h
  | ok a => exact ⟨a, rfl, h⟩

theorem mapM_ok {ε α β : Type} {f : α → Except ε β} {g : α → β} {xs : List α}
    (h : ∀ x ∈ xs, f x = .ok (g x)) : xs.mapM f = .ok (xs.map g) := by
  induction xs with
  | nil => rfl
  | cons x xs ih =>
    rw [List.mapM_cons, h x List.mem_cons_self, ok_bind, ih fun y hy => h y (.tail x hy)]
    rfl

/-- A `mapM` returns what its calls return. -/
theorem mapM_eq_ok {ε α β : Type} {f : α → Except ε β} {xs : List α} {ys : List β} :
    xs.mapM f = .ok ys ↔ List.Forall₂ (fun x y => f x = .ok y) xs ys := by
  induction xs generalizing ys with
  | nil => simp [pure, Except.pure, eq_comm]
  | cons x xs ih =>
    rw [List.mapM_cons]
    refine ⟨fun h => ?_, fun h => ?_⟩
    · obtain ⟨y, hy, h⟩ := bind_ok h
      obtain ⟨zs, hzs, h⟩ := bind_ok h
      cases h
      exact .cons hy (ih.1 hzs)
    · cases h with
      | cons hy hzs => rw [hy, ok_bind, ih.2 hzs]; rfl

/-- A `mapM` returns exactly when all of its calls do. -/
theorem exists_mapM_ok {ε α β : Type} {f : α → Except ε β} {xs : List α} :
    (∃ ys, xs.mapM f = .ok ys) ↔ ∀ x ∈ xs, ∃ y, f x = .ok y := by
  simp only [mapM_eq_ok]
  induction xs with
  | nil => simp
  | cons x xs ih =>
    simp only [List.forall₂_cons_left_iff, List.forall_mem_cons, ← ih]
    refine ⟨fun ⟨_, y, ys, hy, hys, _⟩ => ⟨⟨y, hy⟩, ys, hys⟩, fun ⟨⟨y, hy⟩, ys, hys⟩ => ?_⟩
    exact ⟨y :: ys, y, ys, hy, hys, rfl⟩

/-- A `mapM` raises what one of its calls raises. -/
theorem mapM_error {ε α β : Type} {f : α → Except ε β} {xs : List α} {e : ε}
    (h : xs.mapM f = .error e) : ∃ x ∈ xs, f x = .error e := by
  induction xs with
  | nil => cases h
  | cons x xs ih =>
    rw [List.mapM_cons] at h
    rcases bind_error h with h | ⟨y, h⟩
    · exact ⟨x, List.mem_cons_self, h⟩
    · rcases bind_error h with h | ⟨ys, h⟩
      · obtain ⟨z, hz, hze⟩ := ih h
        exact ⟨z, .tail x hz, hze⟩
      · cases h

abbrev Eff (ε σ α : Type) : Type := ExceptT ε (StateM σ) α

namespace Eff

variable {ε σ α β : Type}

def exec (m : Eff ε σ α) (s : σ) : Except ε α × σ := (ExceptT.run m).run s

/-- A call on the objects. -/
def call (f : σ → Except ε α × σ) : Eff ε σ α := ExceptT.mk fun s => f s

/-- A value computed without the objects. -/
def lift (r : Except ε α) : Eff ε σ α := call fun s => (r, s)

@[simp] theorem exec_call (f : σ → Except ε α × σ) (s : σ) : (call f).exec s = f s := rfl

@[simp] theorem exec_lift (r : Except ε α) (s : σ) : (lift r : Eff ε σ α).exec s = (r, s) := rfl

theorem exec_bind (m : Eff ε σ α) (k : α → Eff ε σ β) (s : σ) :
    (m >>= k).exec s = match m.exec s with
      | (.ok a, s') => (k a).exec s'
      | (.error e, s') => (.error e, s') := by
  simp only [exec, ExceptT.run_bind, StateT.run_bind]
  change (match (ExceptT.run m).run s with | (r, s') => _) = _
  rcases (ExceptT.run m).run s with ⟨_ | _, _⟩ <;> rfl

theorem exec_bind_fst_ok {m : Eff ε σ α} {k : α → Eff ε σ β} {s : σ} {b : β} :
    ((m >>= k).exec s).1 = .ok b ↔
      ∃ a, (m.exec s).1 = .ok a ∧ ((k a).exec (m.exec s).2).1 = .ok b := by
  rw [exec_bind]
  rcases m.exec s with ⟨_ | a, s'⟩ <;> simp

theorem exec_bind_fst_error {m : Eff ε σ α} {k : α → Eff ε σ β} {s : σ} {e : ε} :
    ((m >>= k).exec s).1 = .error e ↔ (m.exec s).1 = .error e ∨
      ∃ a, (m.exec s).1 = .ok a ∧ ((k a).exec (m.exec s).2).1 = .error e := by
  rw [exec_bind]
  rcases m.exec s with ⟨_ | a, s'⟩ <;> simp

/-- The objects keep `I`, whether the code returns or raises. -/
def Keeps (I : σ → Prop) (m : Eff ε σ α) : Prop := ∀ s, I s → I (m.exec s).2

theorem keeps_bind {I : σ → Prop} {m : Eff ε σ α} {k : α → Eff ε σ β} (hm : Keeps I m)
    (hk : ∀ a, Keeps I (k a)) : Keeps I (m >>= k) := by
  intro s hs
  rw [exec_bind]
  rcases h : m.exec s with ⟨_ | a, s'⟩
  · have := hm s hs; rwa [h] at this
  · have := hm s hs; rw [h] at this; exact hk a s' this

theorem keeps_call {I : σ → Prop} {f : σ → Except ε α × σ} (h : ∀ s, I s → I (f s).2) :
    Keeps I (call f) := h

theorem keeps_lift {I : σ → Prop} (r : Except ε α) : Keeps I (lift r : Eff ε σ α) := fun _ hs => hs

end Eff

/-! ## The loop -/

/-- Objects, emitted rows and counters of a running loop. -/
structure Loop (σ β : Type) where
  objs : σ
  out : List β
  error : ℕ
  total : ℕ
  deriving DecidableEq, Repr

/-- The loop before its first row. -/
def Loop.start {σ β : Type} (s : σ) : Loop σ β := ⟨s, [], 0, 0⟩

variable {ε σ γ α β : Type}

def forTry (caught : ε → Bool) (body : α → Eff ε σ β) :
    List α → Loop σ β → Except ε Unit × Loop σ β
  | [], l => (.ok (), l)
  | x :: xs, l =>
    match (body x).exec l.objs with
    | (.ok y, s) => forTry caught body xs ⟨s, l.out ++ [y], l.error, l.total + 1⟩
    | (.error e, s) =>
      if caught e then forTry caught body xs ⟨s, l.out, l.error + 1, l.total + 1⟩
      else (.error e, ⟨s, l.out, l.error, l.total + 1⟩)

/-- Two loops whose bodies return the same along `R` emit the same rows, count
the same, end the same way, and keep `R`. -/
theorem forTry_sim {caught : ε → Bool} {body : α → Eff ε σ β} {spec : α → Eff ε γ β}
    {R : γ → σ → Prop} {xs : List α}
    (h : ∀ x ∈ xs, ∀ g s, R g s →
      ((body x).exec s).1 = ((spec x).exec g).1 ∧ R ((spec x).exec g).2 ((body x).exec s).2)
    {g : γ} {s : σ} (hR : R g s) (out : List β) (er tot : ℕ) {r : Except ε Unit} {l : Loop γ β}
    (hl : forTry caught spec xs ⟨g, out, er, tot⟩ = (r, l)) :
    ∃ s', forTry caught body xs ⟨s, out, er, tot⟩ = (r, ⟨s', l.out, l.error, l.total⟩) ∧
      R l.objs s' := by
  induction xs generalizing g s out er tot with
  | nil =>
    simp only [forTry, Prod.mk.injEq] at hl
    obtain ⟨rfl, rfl⟩ := hl
    exact ⟨s, rfl, hR⟩
  | cons x xs ih =>
    have ih' := fun {g s} (hR : R g s) => ih (fun y hy => h y (List.mem_cons_of_mem _ hy)) hR
    obtain ⟨h₁, h₂⟩ := h x List.mem_cons_self g s hR
    simp only [forTry] at hl ⊢
    rcases hb : (body x).exec s with ⟨rb, s'⟩
    rcases hs : (spec x).exec g with ⟨rs, g'⟩
    rw [hb, hs] at h₁ h₂
    simp only at h₁ h₂
    subst h₁
    rw [hs] at hl
    cases rb with
    | ok y => exact ih' h₂ _ _ _ hl
    | error e =>
      dsimp only at hl ⊢
      by_cases hc : caught e = true
      · rw [if_pos hc] at hl ⊢
        exact ih' h₂ _ _ _ hl
      · rw [if_neg hc] at hl ⊢
        simp only [Prod.mk.injEq] at hl
        obtain ⟨rfl, rfl⟩ := hl
        exact ⟨s', rfl, h₂⟩

/-! ## What a loop emits

A ghost `γ` follows the objects: `upd` says how a row changes it. -/

/-- Along `I`, every row changes the ghost by `upd` and returns only what `Q`
allows. -/
structure Tracks (body : α → Eff ε σ β) (I : γ → σ → Prop) (upd : γ → α → γ)
    (Q : γ → α → β → Prop) : Prop where
  objs : ∀ x g s, I g s → I (upd g x) ((body x).exec s).2
  row : ∀ x g s y, I g s → ((body x).exec s).1 = .ok y → Q g x y

section Tracks

variable {caught : ε → Bool} {body : α → Eff ε σ β} {I : γ → σ → Prop} {upd : γ → α → γ}
  {Q : γ → α → β → Prop} {xs : List α} {g : γ} {l l' : Loop σ β} {r : Except ε Unit}

theorem forTry_ok (h : Tracks body I upd Q)
    (hc : ∀ x ∈ xs, ∀ g s e, I g s → ((body x).exec s).1 = .error e → caught e = true)
    (hI : I g l.objs) : (forTry caught body xs l).1 = .ok () := by
  induction xs generalizing g l with
  | nil => rfl
  | cons x xs ih =>
    have ih' := fun {g l} (hI : I g l.objs) =>
      ih (g := g) (l := l) (fun y hy => hc y (List.mem_cons_of_mem _ hy)) hI
    have hobj := h.objs x g l.objs hI
    have hcx := hc x List.mem_cons_self g l.objs
    rw [forTry]
    rcases hb : (body x).exec l.objs with ⟨e | y, s⟩
    · rw [hb] at hobj hcx
      dsimp only
      rw [if_pos (hcx e hI rfl)]
      exact ih' hobj
    · rw [hb] at hobj
      exact ih' hobj

/-- Every emitted row comes from a row of the input, read when the ghost was
the one its predecessors led to. -/
theorem forTry_mem (h : Tracks body I upd Q) (hI : I g l.objs)
    (hr : forTry caught body xs l = (r, l')) {y : β} (hy : y ∈ l'.out) :
    y ∈ l.out ∨ ∃ pre x post, xs = pre ++ x :: post ∧ Q (pre.foldl upd g) x y := by
  induction xs generalizing g l with
  | nil => cases hr; exact .inl hy
  | cons x xs ih =>
    have hobj := h.objs x g l.objs hI
    have hrow := h.row x g l.objs
    rw [forTry] at hr
    have hrec : ∀ l₁ : Loop σ β, I (upd g x) l₁.objs → forTry caught body xs l₁ = (r, l') →
        y ∈ l₁.out ∨ ∃ pre z post, x :: xs = pre ++ z :: post ∧ Q (pre.foldl upd g) z y := by
      intro l₁ hI₁ hr₁
      rcases ih hI₁ hr₁ with hin | ⟨pre, z, post, rfl, hQ⟩
      · exact .inl hin
      · exact .inr ⟨x :: pre, z, post, rfl, hQ⟩
    rcases hb : (body x).exec l.objs with ⟨e | z, s⟩
    · rw [hb] at hr hobj
      dsimp only at hr
      split at hr
      · exact hrec ⟨s, l.out, l.error + 1, l.total + 1⟩ hobj hr
      · cases hr; exact .inl hy
    · rw [hb] at hr hobj hrow
      rcases hrec _ hobj hr with hin | hin
      · rcases List.mem_append.1 hin with hin | hin
        · exact .inl hin
        · rw [List.mem_singleton.1 hin]
          exact .inr ⟨[], x, xs, rfl, hrow z hI rfl⟩
      · exact .inr hin

theorem forTry_out_mono {y : β} (hr : forTry caught body xs l = (r, l')) (hy : y ∈ l.out) :
    y ∈ l'.out := by
  induction xs generalizing l with
  | nil => cases hr; exact hy
  | cons x xs ih =>
    rw [forTry] at hr
    split at hr
    · exact ih hr (List.mem_append_left _ hy)
    · split at hr
      · exact ih hr hy
      · cases hr; exact hy

/-- A row that returns whenever it is read is emitted, if the loop ends. -/
theorem forTry_emits (h : Tracks body I upd Q) (hI : I g l.objs)
    (hr : forTry caught body xs l = (.ok (), l')) {pre post : List α} {x : α}
    (hxs : xs = pre ++ x :: post)
    (hx : ∀ g s, I g s → ∃ y, ((body x).exec s).1 = .ok y) :
    ∃ y ∈ l'.out, Q (pre.foldl upd g) x y := by
  subst hxs
  induction pre generalizing g l with
  | nil =>
    obtain ⟨y, hy⟩ := hx g l.objs hI
    have hrow := h.row x g l.objs y hI hy
    simp only [List.nil_append, forTry] at hr
    rcases hb : (body x).exec l.objs with ⟨e | z, s⟩
    · rw [hb] at hy; cases hy
    · rw [hb] at hy hr
      cases hy
      exact ⟨y, forTry_out_mono hr (List.mem_append_right _ List.mem_cons_self), hrow⟩
  | cons w pre ih =>
    have hobj := h.objs w g l.objs hI
    simp only [List.cons_append, forTry] at hr
    rcases hb : (body w).exec l.objs with ⟨e | z, s⟩
    · rw [hb] at hr hobj
      dsimp only at hr
      split at hr
      · exact ih (g := upd g w) hobj hr
      · cases hr
    · rw [hb] at hr hobj
      exact ih (g := upd g w) hobj hr

/-- The emitted rows carry the keys of distinct rows of the input, in order. -/
theorem forTry_keys {κ : Type} {key : α → κ} {key' : β → κ}
    (hkey : ∀ x s y, ((body x).exec s).1 = .ok y → key' y = key x)
    (hr : forTry caught body xs l = (r, l')) :
    ∃ ks, ks.Sublist (xs.map key) ∧ l'.out.map key' = l.out.map key' ++ ks := by
  induction xs generalizing l with
  | nil => cases hr; exact ⟨[], .slnil, (List.append_nil _).symm⟩
  | cons x xs ih =>
    have hk := hkey x l.objs
    rw [forTry] at hr
    rcases hb : (body x).exec l.objs with ⟨e | z, s⟩
    · rw [hb] at hr
      dsimp only at hr
      split at hr
      · obtain ⟨ks, hs, hks⟩ := ih hr
        exact ⟨ks, hs.cons _, hks⟩
      · cases hr
        exact ⟨[], List.nil_sublist _, (List.append_nil _).symm⟩
    · rw [hb] at hr hk
      obtain ⟨ks, hs, hks⟩ := ih hr
      refine ⟨key x :: ks, hs.cons_cons _, ?_⟩
      rw [hks, List.map_append, List.map_singleton, hk z rfl, List.append_assoc]
      rfl

end Tracks

/-- The rows a per-row function returns. -/
def emitted (f : α → Except ε β) (xs : List α) : List β := xs.filterMap fun x => (f x).toOption

/-- The number of rows on which a per-row function raises. -/
def raised (f : α → Except ε β) (xs : List α) : ℕ := xs.countP fun x => !(f x).toBool

@[simp] theorem emitted_nil (f : α → Except ε β) : emitted f [] = [] := rfl

@[simp] theorem raised_nil (f : α → Except ε β) : raised f [] = 0 := rfl

theorem emitted_cons_ok {f : α → Except ε β} {x : α} {y : β} (h : f x = .ok y) (xs : List α) :
    emitted f (x :: xs) = y :: emitted f xs := by
  simp [emitted, h, Except.toOption]

theorem emitted_cons_error {f : α → Except ε β} {x : α} {e : ε} (h : f x = .error e)
    (xs : List α) : emitted f (x :: xs) = emitted f xs := by
  simp [emitted, h, Except.toOption]

theorem raised_cons_ok {f : α → Except ε β} {x : α} {y : β} (h : f x = .ok y) (xs : List α) :
    raised f (x :: xs) = raised f xs := by
  simp [raised, h, Except.toBool]

theorem raised_cons_error {f : α → Except ε β} {x : α} {e : ε} (h : f x = .error e)
    (xs : List α) : raised f (x :: xs) = raised f xs + 1 := by
  simp [raised, h, Except.toBool]

/-- A loop whose rows return `f x` whatever the objects are, and change them
by `upd x`. -/
theorem forTry_pure {caught : ε → Bool} {spec : α → Eff ε γ β} {f : α → Except ε β}
    {upd : γ → α → γ} {xs : List α} (h : ∀ x ∈ xs, ∀ g, (spec x).exec g = (f x, upd g x))
    (hc : ∀ x ∈ xs, ∀ e, f x = .error e → caught e = true) (g : γ) (out : List β) (er tot : ℕ) :
    forTry caught spec xs ⟨g, out, er, tot⟩ =
      (.ok (), ⟨xs.foldl upd g, out ++ emitted f xs, er + raised f xs, tot + xs.length⟩) := by
  induction xs generalizing g out er tot with
  | nil => simp [forTry]
  | cons x xs ih =>
    have ih' := ih (fun y hy => h y (List.mem_cons_of_mem _ hy))
      (fun y hy => hc y (List.mem_cons_of_mem _ hy))
    simp only [forTry, h x List.mem_cons_self, List.foldl_cons]
    cases hf : f x with
    | ok y =>
      simp only [ih', emitted_cons_ok hf, raised_cons_ok hf, List.length_cons, List.append_assoc,
        List.singleton_append]
      congr 2; omega
    | error e =>
      simp only [hc x List.mem_cons_self e hf, if_true, ih', emitted_cons_error hf,
        raised_cons_error hf, List.length_cons]
      congr 2 <;> omega

/-- A loop whose rows return `f x` and change the ghost by `upd x`, along `R`. -/
theorem forTry_along {caught : ε → Bool} {body : α → Eff ε σ β} {R : γ → σ → Prop}
    {f : α → Except ε β} {upd : γ → α → γ} {xs : List α}
    (h : ∀ x ∈ xs, ∀ g s, R g s →
      ((body x).exec s).1 = f x ∧ R (upd g x) ((body x).exec s).2)
    (hc : ∀ x ∈ xs, ∀ e, f x = .error e → caught e = true) {g : γ} {s : σ} (hR : R g s) :
    ∃ s', forTry caught body xs (Loop.start s) =
      (.ok (), ⟨s', emitted f xs, raised f xs, xs.length⟩) ∧ R (xs.foldl upd g) s' := by
  -- the loop over the ghost alone
  let spec : α → Eff ε γ β := fun x => Eff.call fun g => (f x, upd g x)
  have hspec : ∀ x ∈ xs, ∀ g, (spec x).exec g = (f x, upd g x) := fun _ _ _ => rfl
  have hsim : ∀ x ∈ xs, ∀ g s, R g s → ((body x).exec s).1 = ((spec x).exec g).1 ∧
      R ((spec x).exec g).2 ((body x).exec s).2 := h
  obtain ⟨s', hloop, hR'⟩ := forTry_sim hsim hR [] 0 0 (forTry_pure hspec hc g [] 0 0)
  refine ⟨s', ?_, hR'⟩
  simp only [List.nil_append, Nat.zero_add] at hloop
  exact hloop

/-! ## A loop that catches everything

`outcomes` are the results of the rows, one by one, in a loop that no exception
ends. -/

def outcomes (body : α → Eff ε σ β) : List α → σ → List (Except ε β)
  | [], _ => []
  | x :: xs, s => ((body x).exec s).1 :: outcomes body xs ((body x).exec s).2

/-- The loop ends when all that is raised is caught, and has then emitted and
counted the outcomes. -/
theorem forTry_outcomes {caught : ε → Bool} {body : α → Eff ε σ β} {xs : List α} {l : Loop σ β}
    (h : ∀ r ∈ outcomes body xs l.objs, ∀ e, r = .error e → caught e = true) :
    ∃ s', forTry caught body xs l = (.ok (), ⟨s', l.out ++ emitted id (outcomes body xs l.objs),
      l.error + raised id (outcomes body xs l.objs), l.total + xs.length⟩) := by
  induction xs generalizing l with
  | nil => exact ⟨l.objs, by simp [forTry, outcomes]⟩
  | cons x xs ih =>
    have hx := h _ List.mem_cons_self
    have hxs := fun r hr => h r (List.mem_cons_of_mem _ hr)
    unfold forTry outcomes
    rcases hb : (body x).exec l.objs with ⟨e | y, s⟩
    · rw [hb] at hx hxs
      obtain ⟨s', hs'⟩ := ih (l := ⟨s, l.out, l.error + 1, l.total + 1⟩) hxs
      refine ⟨s', ?_⟩
      dsimp only at hs' ⊢
      rw [if_pos (hx e rfl), hs', emitted_cons_error (f := id) rfl, raised_cons_error (f := id) rfl,
        List.length_cons, Nat.add_right_comm l.error, Nat.add_right_comm l.total, Nat.add_assoc,
        Nat.add_assoc]
    · rw [hb] at hxs
      obtain ⟨s', hs'⟩ := ih (l := ⟨s, l.out ++ [y], l.error, l.total + 1⟩) hxs
      refine ⟨s', ?_⟩
      dsimp only at hs' ⊢
      rw [hs', emitted_cons_ok (f := id) rfl, raised_cons_ok (f := id) rfl, List.length_cons,
        List.append_assoc, Nat.add_right_comm l.total, Nat.add_assoc]
      rfl

/-- What is not caught ends the loop. -/
theorem forTry_uncaught {caught : ε → Bool} {body : α → Eff ε σ β} {xs : List α} {l : Loop σ β}
    (h : (forTry caught body xs l).1 = .ok ()) :
    ∀ r ∈ outcomes body xs l.objs, ∀ e, r = .error e → caught e = true := by
  induction xs generalizing l with
  | nil => exact fun r hr => absurd hr List.not_mem_nil
  | cons x xs ih =>
    unfold forTry at h
    unfold outcomes
    rcases hb : (body x).exec l.objs with ⟨e | y, s⟩
    · rw [hb] at h
      dsimp only at h
      split at h
      · rename_i hc
        intro r hr e' he'
        rcases List.mem_cons.1 hr with rfl | hr
        · cases he'; exact hc
        · exact ih (l := ⟨s, l.out, l.error + 1, l.total + 1⟩) h r hr e' he'
      · cases h
    · rw [hb] at h
      intro r hr e' he'
      rcases List.mem_cons.1 hr with rfl | hr
      · cases he'
      · exact ih (l := ⟨s, l.out ++ [y], l.error, l.total + 1⟩) h r hr e' he'

/-- A test of the outcomes that depends on the rows alone. -/
theorem outcomes_all_iff {body : α → Eff ε σ β} {xs : List α} {s : σ} {P : Except ε β → Prop}
    {Q : α → Prop} (h : ∀ x ∈ xs, ∀ s, P ((body x).exec s).1 ↔ Q x) :
    (∀ r ∈ outcomes body xs s, P r) ↔ ∀ x ∈ xs, Q x := by
  induction xs generalizing s with
  | nil => simp [outcomes]
  | cons x xs ih =>
    unfold outcomes
    rw [List.forall_mem_cons, List.forall_mem_cons, h x List.mem_cons_self,
      ih fun y hy => h y (List.mem_cons_of_mem _ hy)]

/-- A loop ends exactly when every row is one that raises nothing uncaught. -/
theorem forTry_ended_iff {caught : ε → Bool} {body : α → Eff ε σ β} {xs : List α} {l : Loop σ β}
    {Q : α → Prop}
    (h : ∀ x ∈ xs, ∀ s, (∀ e, ((body x).exec s).1 = .error e → caught e = true) ↔ Q x) :
    (forTry caught body xs l).1 = .ok () ↔ ∀ x ∈ xs, Q x := by
  rw [← outcomes_all_iff (s := l.objs) (P := fun r => ∀ e, r = .error e → caught e = true) h]
  refine ⟨forTry_uncaught, fun hall => ?_⟩
  obtain ⟨s', hs'⟩ := forTry_outcomes hall
  rw [hs']

end PrioProcessor
