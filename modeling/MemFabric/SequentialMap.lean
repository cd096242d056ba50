/-
The configuration store as a sequential map.

This is what the store is for, without links, waiters, messages or handlers: a
map from keys to byte strings, with one function for each operation, and an
`Outcome` that says what the client learns.  ADD reads numbers from text and
writes them as canonical decimals; CAS takes an absent key as empty; WRITE is
given byte by byte (`written`).

`StoreRefinement.lean` relates the server to it, and the protocols of a group of
ranks run on top of it.
-/
import MemFabric.Message

namespace ConfigStore

open Function

/-- What an operation tells its client. -/
inductive Outcome
  | done
  | found (value : Bytes)
  | notFound
  | number (z : ℤ)
  | rejected
  | missing
  | length (n : ℕ)
  | previous (value : Bytes)
  deriving DecidableEq

abbrev SeqMap := Key → Option Bytes

/-- The number a stored text stands for; a text read as zero has to be `0`. -/
def storedNumber (text : Bytes) : Option ℤ :=
  (Decimal.string2Int text).filter fun z => z ≠ 0 ∨ text = Bytes.ofString "0"

namespace SeqMap

variable (m : SeqMap)

def set (key : Key) (value : Bytes) : SeqMap × Outcome :=
  (update m key (some value), .done)

def get (key : Key) : SeqMap × Outcome :=
  match m key with
  | some value => (m, .found value)
  | none => (m, .notFound)

def add (key : Key) (increment : ℤ) : SeqMap × Outcome :=
  match m key with
  | none => (update m key (some (Decimal.ofInt increment)), .number increment)
  | some text =>
    match storedNumber text with
    | none => (m, .rejected)
    | some z =>
      (update m key (some (Decimal.ofInt (z + increment))), .number (z + increment))

def remove (key : Key) : SeqMap × Outcome :=
  match m key with
  | some _ => (update m key none, .done)
  | none => (m, .missing)

def append (key : Key) (value : Bytes) : SeqMap × Outcome :=
  let whole := (m key).getD [] ++ value
  (update m key (some whole), .length whole.length)

def cas (key : Key) (expect value : Bytes) : SeqMap × Outcome :=
  let current := (m key).getD []
  (if current = expect then update m key (some value) else m, .previous current)

/-- `old` with `data` at `offset`: the data inside the written range, the old
bytes outside it, and zeros in a gap. -/
def written (old : Bytes) (offset : ℕ) (data : Bytes) : Bytes :=
  (List.range (max old.length (offset + data.length))).map fun i =>
    if offset ≤ i ∧ i < offset + data.length then data.getD (i - offset) 0 else old.getD i 0

def write (key : Key) (offset : ℕ) (data : Bytes) : SeqMap × Outcome :=
  (update m key (some (written ((m key).getD []) offset data)), .done)

def apply : StoreOp → SeqMap × Outcome
  | .set key value => m.set key value
  | .get key _ => m.get key
  | .add key increment => m.add key increment
  | .remove key => m.remove key
  | .append key value => m.append key value
  | .cas key expect value => m.cas key expect value
  | .write key offset data => m.write key offset data

/-- A sequence of operations: the final map and all outcomes. -/
def applyAll (m : SeqMap) : List StoreOp → SeqMap × List Outcome
  | [] => (m, [])
  | op :: ops =>
    let r := applyAll (m.apply op).1 ops
    (r.1, (m.apply op).2 :: r.2)

end SeqMap

theorem storedNumber_ofInt {z : ℤ} (h : Decimal.InInt64 z) :
    storedNumber (Decimal.ofInt z) = some z := by
  rw [storedNumber, Decimal.string2Int_ofInt h, Option.filter_some]
  have hz : z ≠ 0 ∨ Decimal.ofInt z = Bytes.ofString "0" := by
    by_cases hz : z = 0
    · exact .inr (by rw [hz]; decide)
    · exact .inl hz
  simp only [hz, decide_true, if_true]

namespace SeqMap

variable {m : SeqMap} {key : Key}

theorem add_of_none (h : m key = none) (z : ℤ) :
    m.add key z = (update m key (some (Decimal.ofInt z)), .number z) := by
  rw [add, h]

theorem add_of_ofInt {c : ℤ} (h : m key = some (Decimal.ofInt c)) (hc : Decimal.InInt64 c) (z : ℤ) :
    m.add key z = (update m key (some (Decimal.ofInt (c + z))), .number (c + z)) := by
  simp only [add, h, storedNumber_ofInt hc]

theorem remove_of_some {value : Bytes} (h : m key = some value) :
    m.remove key = (update m key none, .done) := by
  rw [remove, h]

theorem remove_fst (m : SeqMap) (key : Key) : (m.remove key).1 = update m key none := by
  rw [remove]
  split
  case h_1 => rfl
  case h_2 h => rw [← h, update_eq_self]

theorem set_fst (m : SeqMap) (key : Key) (value : Bytes) :
    (m.set key value).1 = update m key (some value) := rfl

theorem get_of_some {value : Bytes} (h : m key = some value) : m.get key = (m, .found value) := by
  rw [get, h]

end SeqMap

end ConfigStore
