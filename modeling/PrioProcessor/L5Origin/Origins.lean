import PrioProcessor.Core.Python
import PrioProcessor.Core.Base64

/-!
# The origins of Firefox telemetry

`prio_processor/origin/origins.py` (`prio-processor fetch-origins`): the lines
of `TelemetryOriginData.inc` that are neither comments nor blank are
`ORIGIN(name, hash)` calls, which Python evaluates to a named tuple; they are
numbered in their order, and an origin `__UNKNOWN__` follows the last one.

Python's `eval` is an argument of `run`, so its spelling of a call and of a
string literal is not fixed here: a line is an `ORIGIN` line when `eval` gives
the tuple (`Lists`). `evalCall` is `eval` on the spelling of the file.

* `run_eq`: the list that is fetched.
* `evalCall_call`: `evalCall` reads a call back.
-/
namespace PrioProcessor.L5.Origins

open Python

/-- `namedtuple("Origin", ["name", "hash"])`
mirrors prio_processor/origin/origins.py:8 -/
structure Origin where
  name : String
  hash : String
  deriving DecidableEq, Repr

/-- `b"//"` -/
def slashes : Bytes := [47, 47]

/-- White space of `bytes.strip`. -/
def isSpaceByte (b : UInt8) : Bool := b ∈ [9, 10, 11, 12, 13, 32]

/-- The lines that are kept.
mirrors prio_processor/origin/origins.py:11-12 -/
def ignore (line : Bytes) : Bool :=
  !(slashes.isPrefixOf line || (strip isSpaceByte line).isEmpty)

/-- mirrors prio_processor/origin/origins.py:15-16 -/
def transform (index : ℕ) (origin : Origin) : Json :=
  .obj [("name", .str origin.name), ("hash", .str origin.hash), ("index", .int index)]

/-- The origin behind the last one of the file. -/
def unknown : Origin := ⟨"__UNKNOWN__", "__UNKNOWN__"⟩

/-- The list that is dumped; `data[-1]` of an empty list raises.
mirrors prio_processor/origin/origins.py:19-33 -/
def run (eval : Bytes → Except Exc Origin) (resp : Bytes) : Except Exc Json := do
  let parsed ← ((readlines 10 resp).filter ignore).mapM eval
  let data := parsed.zipIdx.map fun p => transform p.2 p.1
  let (_, last) ← parsed.zipIdx.getLast?.elim (.error .indexError) .ok
  pure (.arr (data ++ [transform (last + 1) unknown]))

/-! ## What a file lists -/

/-- The lines of a file, and the origins of its `ORIGIN` lines in their order;
the other lines are comments and blank lines. -/
inductive Lists (eval : Bytes → Except Exc Origin) : List Bytes → List Origin → Prop
  | nil : Lists eval [] []
  | comment {line lines os} : slashes <+: line → Lists eval lines os → Lists eval (line :: lines) os
  | blank {line lines os} : (∀ b ∈ line, isSpaceByte b) → Lists eval lines os →
      Lists eval (line :: lines) os
  | origin {line lines o os} : ¬ slashes <+: line → (∃ b ∈ line, ¬ isSpaceByte b) →
      eval line = .ok o → Lists eval lines os → Lists eval (line :: lines) (o :: os)

theorem ignore_iff {line : Bytes} :
    ignore line = true ↔ ¬ slashes <+: line ∧ ∃ b ∈ line, ¬ isSpaceByte b := by
  have hprefix : slashes.isPrefixOf line = false ↔ ¬ slashes <+: line := by
    rw [← List.isPrefixOf_iff_prefix, Bool.not_eq_true]
  unfold ignore
  simp [strip_eq_nil, hprefix]

theorem Lists.parsed {eval : Bytes → Except Exc Origin} {lines : List Bytes} {os : List Origin}
    (h : Lists eval lines os) : (lines.filter ignore).mapM eval = .ok os := by
  induction h with
  | nil => rfl
  | comment hc _ ih =>
    rw [List.filter_cons_of_neg (fun hi => (ignore_iff.1 hi).1 hc), ih]
  | blank hb _ ih =>
    rw [List.filter_cons_of_neg, ih]
    intro hi
    obtain ⟨b, hmem, hspace⟩ := (ignore_iff.1 hi).2
    exact hspace (hb b hmem)
  | origin hc hb he _ ih =>
    rw [List.filter_cons_of_pos (ignore_iff.2 ⟨hc, hb⟩), List.mapM_cons, he, ok_bind, ih]
    rfl

/-- The fetched list: the origins of the file and the unknown one, numbered. -/
def listed (os : List Origin) : List Json :=
  (os ++ [unknown]).zipIdx.map fun p => transform p.2 p.1

theorem run_eq {eval : Bytes → Except Exc Origin} {file : Bytes} {os : List Origin}
    (h : Lists eval (readlines 10 file) os) (hne : os ≠ []) :
    run eval file = .ok (.arr (listed os)) := by
  obtain ⟨init, o, rfl⟩ := List.eq_nil_or_concat os |>.resolve_left hne
  unfold run
  rw [h.parsed, ok_bind]
  have hlast : (init.concat o).zipIdx.getLast? = some (o, init.length) := by
    simp [List.zipIdx_append]
  rw [hlast]
  show Except.ok _ = _
  unfold listed
  simp [List.zipIdx_append]

/-! ## The spelling of the file -/

/-- `ORIGIN("` -/
def opening : List Char := ['O', 'R', 'I', 'G', 'I', 'N', '(', '"']

/-- `, "` -/
def separator : List Char := [',', ' ', '"']

/-- The line of an origin, as the file spells it. -/
def call (o : Origin) : List Char :=
  opening ++ (o.name.toList ++ '"' :: (separator ++ (o.hash.toList ++ '"' :: [')', '\n'])))

/-- The bytes of this line. -/
def callLine (o : Origin) : Bytes := (String.ofList (call o)).toUTF8.data.toList

/-- A string that stands in a literal as it is. -/
def Plain (s : String) : Prop := ∀ c ∈ s.toList, c ≠ '"' ∧ c ≠ '\\' ∧ c ≠ '\n'

/-- A literal behind its opening quote. -/
def literal : List Char → Option (List Char × List Char)
  | [] => none
  | c :: cs =>
    if c = '"' then some ([], cs)
    else if c = '\\' ∨ c = '\n' then none
    else (literal cs).map fun p => (c :: p.1, p.2)

/-- The text behind `text`. -/
def accept (text cs : List Char) : Option (List Char) :=
  if text.isPrefixOf cs then some (cs.drop text.length) else none

def origin? (cs : List Char) : Option Origin := do
  let cs ← accept opening cs
  let (name, cs) ← literal cs
  let cs ← accept separator cs
  let (hash, cs) ← literal cs
  let cs ← accept [')'] cs
  if cs.all isSpace then some ⟨String.ofList name, String.ofList hash⟩ else none

/-- `eval` on the lines of the file; other expressions are left out. -/
def evalCall (line : Bytes) : Except Exc Origin :=
  ((ByteArray.mk line.toArray).utf8Decode?.bind fun cs => origin? cs.toList).elim
    (.error .syntaxError) .ok

theorem literal_plain {s : String} (h : Plain s) (rest : List Char) :
    literal (s.toList ++ '"' :: rest) = some (s.toList, rest) := by
  unfold Plain at h
  generalize s.toList = cs at h
  induction cs with
  | nil => simp [literal]
  | cons c cs ih =>
    have hc := h c List.mem_cons_self
    rw [List.cons_append, literal, if_neg hc.1, if_neg (by simp [hc.2.1, hc.2.2]),
      ih fun d hd => h d (.tail c hd)]
    rfl

theorem accept_append (text rest : List Char) : accept text (text ++ rest) = some rest := by
  simp [accept]

theorem origin?_call {o : Origin} (hname : Plain o.name) (hhash : Plain o.hash) :
    origin? (call o) = some o := by
  have hclose : accept [')'] [')', '\n'] = some ['\n'] := accept_append [')'] ['\n']
  have hspace : ['\n'].all isSpace = true := by decide
  unfold origin? call
  simp only [accept_append, literal_plain hname, literal_plain hhash, hclose, hspace, bind,
    Option.bind_some, if_true, String.ofList_toList]

theorem evalCall_call {o : Origin} (hname : Plain o.name) (hhash : Plain o.hash) :
    evalCall (callLine o) = .ok o := by
  unfold evalCall callLine
  rw [Array.toArray_toList]
  show ((String.ofList (call o)).toUTF8.utf8Decode?.bind _).elim _ _ = _
  rw [String.toUTF8_eq_toByteArray, String.toByteArray_ofList, List.utf8Decode?_utf8Encode,
    Option.bind_some, List.toList_toArray, origin?_call hname hhash]
  rfl

end PrioProcessor.L5.Origins
