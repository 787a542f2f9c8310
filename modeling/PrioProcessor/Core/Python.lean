import PrioProcessor.Core.Effect
import PrioProcessor.Core.Table
import Mathlib.Data.List.DropRight

/-!
# Python text and JSON values

`strip`, `readlines`, `split` and `int` on text, and what Python does with a
value that `json.load` returns: iteration, `v[key]` and `v[i:]`.

* `strip_eq_nil`: blank text is white space.
* `split_join`: text with one separator splits into its two sides.
* `comprehension_ok`: a list comprehension whose condition does not raise is a
  filter.
* `sliceFrom_ok`: the items of a slice, and where it starts; `zip_slice`: what
  `zip` pairs with them.
-/
namespace PrioProcessor.Python

/-- Python's exceptions. -/
inductive Exc where
  | typeError | keyError | indexError | attributeError | assertionError | valueError
  | nameError | syntaxError | notImplementedError | validationError
  deriving DecidableEq, Repr

/-- `[x for x in xs if cond(x)]` -/
def comprehension {α ε : Type} (cond : α → Except ε Bool) : List α → Except ε (List α)
  | [] => .ok []
  | x :: xs => do
    let keep ← cond x
    let ys ← comprehension cond xs
    pure (if keep then x :: ys else ys)

theorem comprehension_ok {α ε : Type} {cond : α → Except ε Bool} {p : α → Bool} {xs : List α}
    (h : ∀ x ∈ xs, cond x = .ok (p x)) : comprehension cond xs = .ok (xs.filter p) := by
  induction xs with
  | nil => rfl
  | cons x xs ih =>
    rw [comprehension, h x List.mem_cons_self, ok_bind, ih fun y hy => h y (.tail x hy), ok_bind,
      List.filter_cons]
    rfl

/-! ## Text -/

section Text

variable {α : Type}

/-- `s.strip()`, where `space` says what white space is. -/
def strip (space : α → Bool) (s : List α) : List α := (s.dropWhile space).rdropWhile space

theorem strip_eq_nil {space : α → Bool} {s : List α} : strip space s = [] ↔ ∀ c ∈ s, space c := by
  unfold strip
  rw [List.rdropWhile_eq_nil_iff]
  constructor
  · intro h
    have hnil : s.dropWhile space = [] := by
      cases hd : s.dropWhile space with
      | nil => rfl
      | cons c cs =>
        have hne : s.dropWhile space ≠ [] := by simp [hd]
        have hhead := List.head_dropWhile_not space hne
        have hspace := h _ (List.head_mem hne)
        rw [hhead] at hspace
        cases hspace
    exact List.dropWhile_eq_nil_iff.1 hnil
  · intro h c hc
    exact h c (List.dropWhile_subset _ hc)

variable [DecidableEq α]

/-- `readlines()`: every line keeps its end. -/
def readlines (newline : α) : List α → List (List α)
  | [] => []
  | c :: cs =>
    if c = newline then [c] :: readlines newline cs
    else match readlines newline cs with
      | [] => [[c]]
      | l :: ls => (c :: l) :: ls

end Text

/-- `s.split(sep)` for one character. -/
def split (sep : Char) (s : String) : List String := (s.toList.splitOn sep).map String.ofList

/-- `str` of different numbers differs. -/
theorem toString_injective : Function.Injective (toString : ℕ → String) := fun i j h => by
  have hdigits := congrArg (fun s : String => Nat.ofDigitChars 10 s.toList 0) h
  have hvalue : ∀ i : ℕ, Nat.ofDigitChars 10 (toString i).toList 0 = i := fun i => by
    change Nat.ofDigitChars 10 i.repr.toList 0 = i
    rw [Nat.toList_repr, Nat.ofDigitChars_toDigits (by decide) (by decide)]
  simpa only [hvalue] using hdigits

theorem split_join {sep : Char} {a b : String} (ha : sep ∉ a.toList) (hb : sep ∉ b.toList) :
    split sep (a ++ String.singleton sep ++ b) = [a, b] := by
  have hs : (a ++ String.singleton sep ++ b).toList = a.toList ++ sep :: b.toList := by
    simp [String.toList_append]
  unfold split
  rw [hs, List.splitOn_append_cons_self_of_not_mem ha, List.splitOn_eq_singleton hb]
  simp

/-- White space of C, in ASCII text. -/
def isSpace (c : Char) : Bool := c ∈ ['\t', '\n', '\x0b', '\x0c', '\r', ' ']

/-- The zeros of the decimal digits of Unicode 9. -/
def zeros : List ℕ :=
  [0x30, 0x660, 0x6f0, 0x7c0, 0x966, 0x9e6, 0xa66, 0xae6, 0xb66, 0xbe6, 0xc66, 0xce6, 0xd66, 0xde6,
    0xe50, 0xed0, 0xf20, 0x1040, 0x1090, 0x17e0, 0x1810, 0x1946, 0x19d0, 0x1a80, 0x1a90, 0x1b50,
    0x1bb0, 0x1c40, 0x1c50, 0xa620, 0xa8d0, 0xa900, 0xa9d0, 0xa9f0, 0xaa50, 0xabf0, 0xff10, 0x104a0,
    0x11066, 0x110f0, 0x11136, 0x111d0, 0x112f0, 0x11450, 0x114d0, 0x11650, 0x116c0, 0x11730,
    0x118e0, 0x11c50, 0x16a60, 0x16b50, 0x1d7ce, 0x1d7d8, 0x1d7e2, 0x1d7ec, 0x1d7f6, 0x1e950]

/-- White space outside ASCII. -/
def wideSpaces : List ℕ :=
  [0x85, 0xa0, 0x1680, 0x2000, 0x2001, 0x2002, 0x2003, 0x2004, 0x2005, 0x2006, 0x2007, 0x2008,
    0x2009, 0x200a, 0x2028, 0x2029, 0x202f, 0x205f, 0x3000]

/-- `int` first replaces digits and white space outside ASCII. -/
def toAscii (c : Char) : Char :=
  if c.toNat < 127 then c
  else if c.toNat ∈ wideSpaces then ' '
  else match zeros.find? fun z => z ≤ c.toNat ∧ c.toNat < z + 10 with
    | some z => Char.ofNat (48 + (c.toNat - z))
    | none => '?'

/-- Digits after a digit; an underscore stands between two. -/
def digits (value : ℕ) : List Char → Option ℕ
  | [] => some value
  | '_' :: c :: cs => if c.isDigit then digits (10 * value + (c.toNat - 48)) cs else none
  | c :: cs => if c.isDigit then digits (10 * value + (c.toNat - 48)) cs else none

def natural : List Char → Option ℕ
  | c :: cs => if c.isDigit then digits (c.toNat - 48) cs else none
  | [] => none

/-- `int(s)`; none is a `ValueError`. -/
def int (s : String) : Option ℤ :=
  match strip isSpace (s.toList.map toAscii) with
  | '-' :: cs => (natural cs).map fun n => -n
  | '+' :: cs => (natural cs).map Int.ofNat
  | cs => (natural cs).map Int.ofNat

/-! ## JSON values -/

/-- A value that `json.load` returns. -/
inductive Json where
  | null
  | bool (b : Bool)
  | int (z : ℤ)
  /-- A float, by its value when that is an integer. -/
  | float (z : Option ℤ)
  | str (s : String)
  | arr (items : List Json)
  | obj (fields : List (String × Json))

namespace Json

/-- `v == s`, where `s` is a string or `None`. -/
def equals : Json → Option String → Bool
  | str s, some t => s = t
  | null, none => true
  | _, _ => false

/-- The items of a value that slices. -/
def sequence : Json → Option (List Json)
  | arr items => some items
  | str s => some (s.toList.map fun c => str (String.singleton c))
  | _ => none

/-- `iter(v)` -/
def iter : Json → Except Exc (List Json)
  | obj fields => .ok (fields.map fun f => str f.1)
  | v => v.sequence.elim (.error .typeError) .ok

/-- `v[key]` -/
def item (v : Json) (key : String) : Except Exc Json :=
  match v with
  | obj fields => (Table.lookup Prod.fst fields key).elim (.error .keyError) fun f => .ok f.2
  | _ => .error .typeError

/-- The bound of a slice; `None` stands for no bound. -/
def asIndex : Json → Option (Option ℤ)
  | null => some none
  | bool b => some (some (if b then 1 else 0))
  | int z => some (some z)
  | _ => none

end Json

/-- Where `v[i:]` starts; a negative bound counts from the end. -/
def sliceStart (length : ℕ) : Option ℤ → ℕ
  | none => 0
  | some z => if z < 0 then (length + z).toNat else z.toNat

/-- `v[i:]`, each item with its position in `v`. -/
def sliceFrom (v i : Json) : Except Exc (List (Json × ℕ)) :=
  match v.sequence, i.asIndex with
  | some items, some i => .ok (items.zipIdx.drop (sliceStart items.length i))
  | _, _ => .error .typeError

theorem sliceFrom_ok {v i : Json} {rest : List (Json × ℕ)} : sliceFrom v i = .ok rest ↔
    ∃ items j, v.sequence = some items ∧ i.asIndex = some j ∧
      rest = items.zipIdx.drop (sliceStart items.length j) := by
  unfold sliceFrom
  cases v.sequence with
  | none => simp
  | some items =>
    cases i.asIndex with
    | none => simp
    | some j => simp [eq_comm]

section Slice

variable {α β : Type} (items : List α) (xs : List β) (s : ℕ)

/-- The elements `zip` pairs with the items of a slice, and the positions of
these items. -/
theorem zip_slice : ((items.zipIdx.drop s).zip xs).map (fun p => (p.2, p.1.2)) =
    (xs.take (items.length - s)).zipIdx s := by
  apply List.ext_getElem
  · simp
  · simp

/-- The items that are paired. -/
theorem zip_slice_items : ((items.zipIdx.drop s).zip xs).map (fun p => p.1.1) =
    (items.drop s).take xs.length := by
  apply List.ext_getElem
  · simp [Nat.min_comm]
  · simp

end Slice

end PrioProcessor.Python
