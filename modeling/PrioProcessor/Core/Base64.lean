import Mathlib.Data.List.Basic
import Mathlib.Tactic.Common

/-!
# Base 64

The RFC 4648 alphabet, the encoder (`encode`) and the lenient decoder of
Python's `binascii.a2b_base64` (`decode`): bytes outside the alphabet are
skipped, a padding byte counts only behind at least two characters of a
quadruple, a complete padding ends the input, and input that stops inside a
quadruple is an error (`none`; Python raises `binascii.Error`, a
`ValueError`).

* `decode_encode`: decoding undoes encoding.
* `decode_wellFormed`: every string of whole quadruples, the last one padded
  or not, decodes.
* `b64decode_b64encode`: the same on Python strings, where `b64decode` first
  rejects characters that are not ASCII.
-/
namespace PrioProcessor

abbrev Bytes := List UInt8

namespace Base64

/-- The character of a six-bit value. -/
def digit (n : ℕ) : UInt8 :=
  if n < 26 then UInt8.ofNat (n + 65)
  else if n < 52 then UInt8.ofNat (n - 26 + 97)
  else if n < 62 then UInt8.ofNat (n - 52 + 48)
  else if n = 62 then 43 else 47

/-- The six-bit value of a character of the alphabet. -/
def sextet (c : UInt8) : Option ℕ :=
  if 65 ≤ c ∧ c ≤ 90 then some (c.toNat - 65)
  else if 97 ≤ c ∧ c ≤ 122 then some (c.toNat - 97 + 26)
  else if 48 ≤ c ∧ c ≤ 57 then some (c.toNat - 48 + 52)
  else if c = 43 then some 62
  else if c = 47 then some 63
  else none

/-- `=` -/
def pad : UInt8 := 61

def encode : Bytes → Bytes
  | [] => []
  | [a] => [digit (a.toNat / 4), digit (a.toNat % 4 * 16), pad, pad]
  | [a, b] =>
    [digit (a.toNat / 4), digit (a.toNat % 4 * 16 + b.toNat / 16), digit (b.toNat % 16 * 4), pad]
  | a :: b :: c :: rest =>
    digit (a.toNat / 4) :: digit (a.toNat % 4 * 16 + b.toNat / 16) ::
      digit (b.toNat % 16 * 4 + c.toNat / 64) :: digit (c.toNat % 64) :: encode rest

/-- The loop of `a2b_base64`: `pos` characters of the current quadruple were
read, `left` holds the bits not yet written, `pads` the padding seen. -/
def decodeGo : ℕ → ℕ → ℕ → Bytes → Option Bytes
  | pos, _, _, [] => if pos = 0 then some [] else none
  | pos, left, pads, c :: cs =>
    if c = pad then
      if 2 ≤ pos then
        -- a complete padding: the rest of the input is not read
        if 4 ≤ pos + (pads + 1) then some [] else decodeGo pos left (pads + 1) cs
      else decodeGo pos left pads cs
    else
      match sextet c with
      | none => decodeGo pos left pads cs
      | some v =>
        match pos with
        | 0 => decodeGo 1 v 0 cs
        | 1 => (decodeGo 2 (v % 16) 0 cs).map (UInt8.ofNat (left * 4 + v / 16) :: ·)
        | 2 => (decodeGo 3 (v % 4) 0 cs).map (UInt8.ofNat (left * 16 + v / 4) :: ·)
        | _ => (decodeGo 0 0 0 cs).map (UInt8.ofNat (left * 64 + v) :: ·)

def decode (cs : Bytes) : Option Bytes := decodeGo 0 0 0 cs

/-! ## Round trip -/

theorem sextet_digit (n : ℕ) (h : n < 64) : sextet (digit n) = some n := by
  have key : ∀ n : Fin 64, sextet (digit n) = some n.val := by decide
  exact key ⟨n, h⟩

theorem digit_ne_pad (n : ℕ) (h : n < 64) : digit n ≠ pad := by
  have key : ∀ n : Fin 64, digit n ≠ pad := by decide
  exact key ⟨n, h⟩

section Digit
variable (left pads n : ℕ) (cs : Bytes) (h : n < 64)
include h

theorem decodeGo_first : decodeGo 0 left pads (digit n :: cs) = decodeGo 1 n 0 cs := by
  rw [decodeGo, if_neg (digit_ne_pad n h), sextet_digit n h]; rfl

theorem decodeGo_second : decodeGo 1 left pads (digit n :: cs) =
    (decodeGo 2 (n % 16) 0 cs).map (UInt8.ofNat (left * 4 + n / 16) :: ·) := by
  rw [decodeGo, if_neg (digit_ne_pad n h), sextet_digit n h]; rfl

theorem decodeGo_third : decodeGo 2 left pads (digit n :: cs) =
    (decodeGo 3 (n % 4) 0 cs).map (UInt8.ofNat (left * 16 + n / 4) :: ·) := by
  rw [decodeGo, if_neg (digit_ne_pad n h), sextet_digit n h]; rfl

theorem decodeGo_fourth : decodeGo 3 left pads (digit n :: cs) =
    (decodeGo 0 0 0 cs).map (UInt8.ofNat (left * 64 + n) :: ·) := by
  rw [decodeGo, if_neg (digit_ne_pad n h), sextet_digit n h]; rfl

end Digit

/-- Two padding bytes behind two characters end the input. -/
theorem decodeGo_pad_pad (left : ℕ) (cs : Bytes) :
    decodeGo 2 left 0 (pad :: pad :: cs) = some [] := by simp [decodeGo]

theorem decodeGo_pad (left : ℕ) (cs : Bytes) : decodeGo 3 left 0 (pad :: cs) = some [] := by
  simp [decodeGo]

theorem ofNat_toNat_of_eq {b : UInt8} {n : ℕ} (h : n = b.toNat) : UInt8.ofNat n = b := by
  rw [h]; exact UInt8.ofNat_toNat

theorem decodeGo_encode (pads : ℕ) (bs : Bytes) : decodeGo 0 0 pads (encode bs) = some bs := by
  induction bs using encode.induct generalizing pads with
  | case1 => rfl
  | case2 a =>
    have ha := a.toNat_lt
    rw [encode, decodeGo_first _ _ _ _ (by omega), decodeGo_second _ _ _ _ (by omega),
      decodeGo_pad_pad, Option.map_some]
    rw [ofNat_toNat_of_eq (b := a) (by omega)]
  | case3 a b =>
    have ha := a.toNat_lt
    have hb := b.toNat_lt
    rw [encode, decodeGo_first _ _ _ _ (by omega), decodeGo_second _ _ _ _ (by omega),
      decodeGo_third _ _ _ _ (by omega), decodeGo_pad, Option.map_some, Option.map_some]
    rw [ofNat_toNat_of_eq (b := a) (by omega), ofNat_toNat_of_eq (b := b) (by omega)]
  | case4 a b c rest ih =>
    have ha := a.toNat_lt
    have hb := b.toNat_lt
    have hc := c.toNat_lt
    rw [encode, decodeGo_first _ _ _ _ (by omega), decodeGo_second _ _ _ _ (by omega),
      decodeGo_third _ _ _ _ (by omega), decodeGo_fourth _ _ _ _ (by omega), ih]
    rw [Option.map_some, Option.map_some, Option.map_some]
    rw [ofNat_toNat_of_eq (b := a) (by omega), ofNat_toNat_of_eq (b := b) (by omega),
      ofNat_toNat_of_eq (b := c) (by omega)]

theorem decode_encode (bs : Bytes) : decode (encode bs) = some bs := decodeGo_encode 0 bs

/-! ## Well-formed strings decode -/

/-- Whole quadruples of the alphabet, the last one possibly padded. -/
def wellFormed : Bytes → Bool
  | [] => true
  | [a, b, c, d] =>
    (sextet a).isSome && (sextet b).isSome &&
      ((c == pad && d == pad) || ((sextet c).isSome && (d == pad || (sextet d).isSome)))
  | a :: b :: c :: d :: rest =>
    (sextet a).isSome && (sextet b).isSome && (sextet c).isSome && (sextet d).isSome &&
      wellFormed rest
  | _ => false

theorem ne_pad_of_sextet {c : UInt8} (h : (sextet c).isSome = true) : c ≠ pad := by
  rintro rfl; simp [sextet, pad] at h

theorem decodeGo_isSome_digit {c : UInt8} (h : (sextet c).isSome = true) (pos left pads : ℕ)
    (cs : Bytes)
    (hcs : ∀ l, (decodeGo (if pos = 0 then 1 else if pos = 1 then 2 else if pos = 2 then 3 else 0)
      l 0 cs).isSome = true)
    (h3 : 3 ≤ pos → (decodeGo 0 0 0 cs).isSome = true) :
    (decodeGo pos left pads (c :: cs)).isSome = true := by
  obtain ⟨v, hv⟩ := Option.isSome_iff_exists.mp h
  rw [decodeGo, if_neg (ne_pad_of_sextet h), hv]
  match pos with
  | 0 => simpa using hcs v
  | 1 => simpa using hcs (v % 16)
  | 2 => simpa using hcs (v % 4)
  | n + 3 => simpa using h3 (by omega)

theorem decodeGo_wellFormed (pads : ℕ) (cs : Bytes) (h : wellFormed cs = true) :
    (decodeGo 0 0 pads cs).isSome = true := by
  induction cs using wellFormed.induct generalizing pads with
  | case1 => rfl
  | case2 a b c d =>
    simp only [wellFormed, Bool.and_eq_true, Bool.or_eq_true, beq_iff_eq] at h
    obtain ⟨⟨ha, hb⟩, hcd⟩ := h
    refine decodeGo_isSome_digit ha 0 0 pads _ (fun l => ?_) (by omega)
    refine decodeGo_isSome_digit hb 1 l 0 _ (fun l => ?_) (by omega)
    rcases hcd with ⟨rfl, rfl⟩ | ⟨hc, hd⟩
    · simp [decodeGo]
    · refine decodeGo_isSome_digit hc 2 l 0 _ (fun l => ?_) (by omega)
      rcases hd with rfl | hd
      · simp [decodeGo]
      · exact decodeGo_isSome_digit hd 3 l 0 _ (fun l => by simp [decodeGo])
          (fun _ => by simp [decodeGo])
  | case3 a b c d rest _ ih =>
    simp only [wellFormed, Bool.and_eq_true] at h
    obtain ⟨⟨⟨⟨ha, hb⟩, hc⟩, hd⟩, hr⟩ := h
    refine decodeGo_isSome_digit ha 0 0 pads _ (fun l => ?_) (by omega)
    refine decodeGo_isSome_digit hb 1 l 0 _ (fun l => ?_) (by omega)
    refine decodeGo_isSome_digit hc 2 l 0 _ (fun l => ?_) (by omega)
    have hrest := ih 0 hr
    obtain ⟨v, hv⟩ := Option.isSome_iff_exists.mp hd
    rw [show (if 2 = 0 then 1 else if 2 = 1 then 2 else if 2 = 2 then 3 else 0) = 3 from rfl,
      decodeGo, if_neg (ne_pad_of_sextet hd), hv]
    simpa using hrest
  | case4 cs h₁ h₂ h₃ => simp [wellFormed] at h

theorem decode_wellFormed (cs : Bytes) (h : wellFormed cs = true) : (decode cs).isSome = true :=
  decodeGo_wellFormed 0 cs h

end Base64

/-! ## Python strings -/

def ofAscii (s : String) : Bytes := s.toList.map fun c => UInt8.ofNat c.toNat

/-- `b64encode(bs).decode()` -/
def b64encode (bs : Bytes) : String :=
  String.ofList ((Base64.encode bs).map fun c => Char.ofNat c.toNat)

/-- `b64decode(s)`; `none` where Python raises a `ValueError`. -/
def b64decode (s : String) : Option Bytes :=
  if s.toList.all (fun c => decide (c.toNat < 128)) then Base64.decode (ofAscii s) else none

theorem digit_lt (n : ℕ) : (Base64.digit n).toNat < 128 := by
  unfold Base64.digit
  repeat' split
  all_goals simp only [UInt8.toNat_ofNat', UInt8.reduceToNat]; omega

theorem encode_lt (bs : Bytes) : ∀ c ∈ Base64.encode bs, c.toNat < 128 := by
  induction bs using Base64.encode.induct with
  | case1 => simp [Base64.encode]
  | case2 a => simp [Base64.encode, digit_lt, Base64.pad]
  | case3 a b => simp [Base64.encode, digit_lt, Base64.pad]
  | case4 a b c rest ih => simpa [Base64.encode, digit_lt] using ih

theorem char_ofNat_toNat {n : ℕ} (h : n < 128) : (Char.ofNat n).toNat = n := by
  have key : ∀ n : Fin 128, (Char.ofNat n.val).toNat = n.val := by decide
  exact key ⟨n, h⟩

theorem b64decode_b64encode (bs : Bytes) : b64decode (b64encode bs) = some bs := by
  have hlt := encode_lt bs
  have hall : (b64encode bs).toList.all (fun c => decide (c.toNat < 128)) = true := by
    simp only [b64encode, String.toList_ofList, List.all_map, List.all_eq_true, Function.comp,
      decide_eq_true_eq]
    intro c hc
    rw [char_ofNat_toNat (hlt c hc)]; exact hlt c hc
  have hback : ofAscii (b64encode bs) = Base64.encode bs := by
    simp only [ofAscii, b64encode, String.toList_ofList, List.map_map]
    refine (List.map_congr_left fun c hc => ?_).trans (List.map_id _)
    simp only [Function.comp, char_ofNat_toNat (hlt c hc), id]
    exact UInt8.ofNat_toNat
  rw [b64decode, if_pos hall, hback, Base64.decode_encode]

/-- A string of whole quadruples of the alphabet, the last one possibly
padded. -/
def ValidBase64 (s : String) : Prop :=
  s.toList.all (fun c => decide (c.toNat < 128)) = true ∧ Base64.wellFormed (ofAscii s) = true

instance (s : String) : Decidable (ValidBase64 s) := inferInstanceAs (Decidable (_ ∧ _))

theorem ValidBase64.b64decode_isSome {s : String} (h : ValidBase64 s) :
    (b64decode s).isSome = true := by
  unfold b64decode
  rw [if_pos h.1]
  exact Base64.decode_wellFormed _ h.2

end PrioProcessor
