/-
The messages of the configuration store and their wire format.

A request or reply is a `SmemMessage`: a type, a user-defined integer, a list
of keys and a list of values.  `pack` and `unpack` are the two directions of
`SmemMessagePacker`; all lengths and counts are eight little-endian bytes, the
type is two.  `unpack` follows the source check by check, so it distinguishes
a buffer that is refused from one that makes it read past the end.
-/
import MemFabric.Decimal

namespace ConfigStore

/-- A key of the store; `std::string`, so any bytes. -/
abbrev Key := Bytes

/-- `MessageType`, in the order of its values. -/
inductive MessageType
  | set | get | add | remove | append | cas | write | watchRankState | heartbeat | invalidMsg
  deriving DecidableEq, Repr

namespace MessageType

/-- The `int16_t` value of a message type. -/
def code : MessageType → ℕ
  | set => 0 | get => 1 | add => 2 | remove => 3 | append => 4 | cas => 5 | write => 6
  | watchRankState => 7 | heartbeat => 8 | invalidMsg => 9

def ofCode : ℕ → Option MessageType
  | 0 => some set | 1 => some get | 2 => some add | 3 => some remove | 4 => some append
  | 5 => some cas | 6 => some write | 7 => some watchRankState | 8 => some heartbeat
  | 9 => some invalidMsg | _ => none

end MessageType

structure SmemMessage where
  mt : MessageType
  userDef : ℤ := -1
  keys : List Key := []
  values : List Bytes := []
  deriving DecidableEq

/-- The requests that `TcpConfigStore` sends. -/
inductive StoreOp
  | set (key : Key) (value : Bytes)
  | get (key : Key) (timeoutMs : ℤ)
  | add (key : Key) (increment : ℤ)
  | remove (key : Key)
  | append (key : Key) (value : Bytes)
  | cas (key : Key) (expect value : Bytes)
  | write (key : Key) (offset : ℕ) (value : Bytes)
  deriving DecidableEq

def StoreOp.message : StoreOp → SmemMessage
  | set key value => { mt := .set, keys := [key], values := [value] }
  | get key timeoutMs => { mt := .get, userDef := timeoutMs, keys := [key] }
  | add key increment => { mt := .add, keys := [key], values := [Decimal.ofInt increment] }
  | remove key => { mt := .remove, keys := [key] }
  | append key value => { mt := .append, keys := [key], values := [value] }
  | cas key expect value => { mt := .cas, keys := [key], values := [expect, value] }
  | write key offset value => { mt := .write, keys := [key], values := [Bytes.le 4 offset ++ value] }

def maxKeyCount : ℕ := 10
def maxKeySize : ℕ := 2048
def maxValueCount : ℕ := 10
def maxValueSize : ℕ := 64 * 1024 * 1024

def baseSize : ℕ := 4 * 8 + 2

/-- `PackString` and `PackBytes`: the length, then the bytes. -/
def packBytes (bs : Bytes) : Bytes := Bytes.le 8 bs.length ++ bs

/-- The `totalSize` field of a packed message. -/
def packedSize (m : SmemMessage) : ℕ :=
  baseSize + (m.keys.map fun k => 8 + k.length).sum + (m.values.map fun v => 8 + v.length).sum

/-- `SmemMessagePacker::Pack`. -/
def pack (m : SmemMessage) : Bytes :=
  Bytes.le 8 (packedSize m) ++ Bytes.le 8 (m.userDef % 2 ^ 64).toNat ++ Bytes.le 2 m.mt.code
    ++ Bytes.le 8 m.keys.length ++ m.keys.flatMap packBytes
    ++ Bytes.le 8 m.values.length ++ m.values.flatMap packBytes

/-- Why a buffer does not decode: it is refused, or the decoder reads bytes
that the buffer does not have. -/
inductive UnpackError
  | refused | outOfBounds
  deriving DecidableEq, Repr

/-- Read `w` bytes at an offset, as the casts of `Unpack` do: unchecked. -/
def readLe (buffer : Bytes) (w length : ℕ) : Except UnpackError ℕ :=
  if length + w ≤ buffer.length then .ok (Bytes.leValue ((buffer.drop length).take w))
  else .error .outOfBounds

/-- One of the two loops of `Unpack`: `count` strings, each a size and that
many bytes, from `length` on.  Returns the strings and the offset behind them. -/
def unpackStrings (buffer : Bytes) (maxSize : ℕ) :
    ℕ → ℕ → Except UnpackError (List Bytes × ℕ)
  | 0, length => .ok ([], length)
  | count + 1, length => do
    let size ← readLe buffer 8 length
    if size > maxSize ∨ length + 8 + size > buffer.length then .error .refused
    else
      let rest ← unpackStrings buffer maxSize count (length + 8 + size)
      .ok ((buffer.drop (length + 8)).take size :: rest.1, rest.2)

/-- `SmemMessagePacker::Full`. -/
def full (buffer : Bytes) : Bool :=
  baseSize ≤ buffer.length && Bytes.leValue (buffer.take 8) ≤ buffer.length

/-- `SmemMessagePacker::Unpack`: the message and the size it claims. -/
def unpack (buffer : Bytes) : Except UnpackError (SmemMessage × ℕ) := do
  if full buffer = false then .error .refused
  else
    let totalSize ← readLe buffer 8 0
    let userDef ← readLe buffer 8 8
    let mt ← readLe buffer 2 16
    match MessageType.ofCode mt with
    | none => .error .refused
    | some mt =>
      let keyCount ← readLe buffer 8 18
      if keyCount > maxKeyCount then .error .refused
      else
        let keys ← unpackStrings buffer maxKeySize keyCount 26
        let valueCount ← readLe buffer 8 keys.2
        if valueCount > maxValueCount then .error .refused
        else
          let values ← unpackStrings buffer maxValueSize valueCount (keys.2 + 8)
          if totalSize ≠ values.2 then .error .refused
          else .ok (⟨mt, (userDef : ℤ).bmod (2 ^ 64), keys.1, values.1⟩, totalSize)

end ConfigStore
