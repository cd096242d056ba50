/-
The server as the trans clients see it.

`FaultStore` is the backend of the configuration store server with the fault handler
registered at it, and the six requests of the clients are operations on it; `TransServer.lean`
compares them with the handlers of the server.

* `get_rank_cases`, `append_info`, `write_info`, .. — the operations on the keys of a client.
-/
import MemFabric.FaultHandler

namespace Trans

open FaultHandler Function List Option

open ConfigStore

/-- The backend and the fault handler of the server. -/
structure FaultStore where
  backend : Backend
  handler : FaultHandler

/-- The replies to a GET with no time to wait: SUCCESS, RESTORE and NOT_EXIST. -/
inductive GetReply
  | success (value : Bytes)
  | restore (value : Bytes)
  | notExist

namespace FaultStore

def init : FaultStore := ⟨Backend.clear, FaultHandler.init⟩

def get (s : FaultStore) (key : Key) : FaultStore × GetReply :=
  match s.backend key with
  | some value => (s, .success value)
  | none =>
    match s.handler.getFromFaultInfo key with
    | some (id, h) => (⟨s.backend, h⟩, .restore (Bytes.le 2 id))
    | none => (s, .notExist)

def set (s : FaultStore) (linkId : ℕ) (key : Key) (value : Bytes) : FaultStore × Bool :=
  let e := s.handler.buildLinkIdToRankInfoMap linkId key value
  if e.1 ≠ smOk then (⟨s.backend, e.2⟩, false)
  else (⟨(s.backend.put key value).2, e.2⟩, true)

/-- The value that ADD of one stores, if the old one is a number; the sum may overflow. -/
def sumText : Option Bytes → Option (Option Bytes)
  | none => some (some (Decimal.ofInt 1))
  | some oldValue =>
    match Decimal.string2Int oldValue with
    | none => some none
    | some storedValueNum =>
      if storedValueNum = 0 ∧ oldValue ≠ Bytes.ofString "0" then some none
      else if ¬ Decimal.InInt64 (storedValueNum + 1) then none
      else some (some (Decimal.ofInt (storedValueNum + 1)))

def addOne (s : FaultStore) (linkId : ℕ) (key : Key) : Option (FaultStore × Bool) :=
  let e := s.handler.addRankInfoMap linkId key
  if e.1 ≠ smOk then some (⟨s.backend, e.2⟩, false)
  else
    (sumText (s.backend key)).map fun
      | none => (⟨s.backend, e.2⟩, false)
      | some text => (⟨(s.backend.put key text).2, e.2⟩, true)

/-- APPEND, and the size it reports if it is accepted.  The value has grown either way. -/
def append (s : FaultStore) (linkId : ℕ) (key : Key) (value : Bytes) :
    Option (FaultStore × Option ℕ) :=
  let newValue := (s.backend key).getD [] ++ value
  let backend := (s.backend.put key newValue).2
  (s.handler.appendRankInfoMap linkId key value backend).map fun e =>
    (⟨backend, e.2⟩, if e.1 = smOk then some newValue.length else none)

/-- WRITE at a 32-bit offset, and whether it is accepted. -/
def write (s : FaultStore) (linkId : ℕ) (key : Key) (value : Bytes) (offset : ℕ) :
    Option (FaultStore × Bool) :=
  let payload := Bytes.le 4 offset ++ value
  if ¬ writeInRange payload then some (s, false)
  else
    let offset := writeOffset payload
    let backend := (writeCreate s.backend key (offset + value.length)).2
    (s.handler.writeRankInfoMap linkId key payload).map fun e =>
      if e.1 ≠ smOk then (⟨backend, e.2⟩, false)
      else (⟨(backend.put key (overlay ((backend key).getD []) offset value)).2, e.2⟩, true)

def clear (s : FaultStore) (linkId : ℕ) : FaultStore :=
  let p := s.handler.clearFaultInfo linkId s.backend
  ⟨p.2, p.1⟩

/-! ### The operations on the keys of a client -/

variable {s : FaultStore} {linkId : ℕ}

theorem get_backend (key : Key) : (s.get key).1.backend = s.backend := by
  rw [get]
  split
  · rfl
  · split <;> rfl

variable {name value old : Bytes} {slot : ℕ}

theorem get_rank_some (h : s.backend (TransKey.rank name).key = some value) :
    s.get (TransKey.rank name).key = (s, .success value) := by
  rw [get, h]

theorem get_rank_none (hname : 95 ∉ name) (h : s.backend (TransKey.rank name).key = none) :
    s.get (TransKey.rank name).key =
      match s.handler.faultRankIdQueue with
      | [] => (s, .notExist)
      | id :: rest =>
        (⟨s.backend, { s.handler with faultRankIdQueue := rest }⟩, .restore (Bytes.le 2 id)) := by
  rw [get, h, getFromFaultInfo_rank hname]
  cases s.handler.faultRankIdQueue <;> rfl

theorem get_id {k : RecordKind} {r : Role} (h : s.backend (TransKey.id k r).key = none) :
    s.get (TransKey.id k r).key =
      match s.handler.faultIdQueue k r with
      | [] => (s, .notExist)
      | id :: rest => (⟨s.backend, s.handler.setIdQueue k r rest⟩, .restore (Bytes.le 2 id)) := by
  rw [get, h, getFromFaultInfo_id]
  cases s.handler.faultIdQueue k r <;> rfl

theorem get_rank_cases (hname : 95 ∉ name) :
    (∃ reply, s.get (TransKey.rank name).key = (s, reply) ∧ ∀ value, reply ≠ .restore value) ∨
    ∃ id rest, s.handler.faultRankIdQueue = id :: rest ∧ s.get (TransKey.rank name).key =
      (⟨s.backend, { s.handler with faultRankIdQueue := rest }⟩, .restore (Bytes.le 2 id)) := by
  cases hold : s.backend (TransKey.rank name).key with
  | some value => exact .inl ⟨_, get_rank_some hold, nofun⟩
  | none =>
    rw [get_rank_none hname hold]
    cases hqueue : s.handler.faultRankIdQueue with
    | nil => exact .inl ⟨_, rfl, nofun⟩
    | cons id rest => exact .inr ⟨id, rest, rfl, rfl⟩

theorem get_id_cases (k : RecordKind) (r : Role) :
    (∃ reply, s.get (TransKey.id k r).key = (s, reply) ∧ ∀ value, reply ≠ .restore value) ∨
    ∃ id rest, s.handler.faultIdQueue k r = id :: rest ∧ s.get (TransKey.id k r).key =
      (⟨s.backend, s.handler.setIdQueue k r rest⟩, .restore (Bytes.le 2 id)) := by
  cases hold : s.backend (TransKey.id k r).key with
  | some value => exact .inl ⟨.success value, by rw [get, hold], nofun⟩
  | none =>
    rw [get_id hold]
    cases hqueue : s.handler.faultIdQueue k r with
    | nil => exact .inl ⟨_, rfl, nofun⟩
    | cons id rest => exact .inr ⟨id, rest, rfl, rfl⟩

theorem set_rank (name : Bytes) (id : ℕ) :
    s.set linkId (TransKey.rank name).key (Bytes.le 2 id) =
      (⟨update s.backend (TransKey.rank name).key (some (Bytes.le 2 id)),
        s.handler.setLink linkId (some (.new (id % 2 ^ 16) (TransKey.rank name).key))⟩, true) := by
  rw [set, buildLinkIdToRankInfoMap_rank, if_neg (not_not.mpr rfl), Backend.put_snd]

theorem addOne_count (k : RecordKind) (r : Role) :
    s.addOne linkId (TransKey.count k r).key =
      match s.handler.linkIdToRankInfoMap linkId with
      | none => some (s, false)
      | some info =>
        let h := s.handler.setLink linkId (some (info.modify k fun i =>
          { i with countKey := (TransKey.count k r).key }))
        (sumText (s.backend (TransKey.count k r).key)).map fun
          | none => (⟨s.backend, h⟩, false)
          | some text =>
            (⟨update s.backend (TransKey.count k r).key (some text), h⟩, true) := by
  rw [addOne, addRankInfoMap_count, updateLink]
  cases s.handler.linkIdToRankInfoMap linkId with
  | none | some info => rfl

/-- What an APPEND leaves in the backend, accepted or not. -/
def grown (s : FaultStore) (key : Key) (value : Bytes) : Backend :=
  update s.backend key (some ((s.backend key).getD [] ++ value))

theorem append_ranksInfo (hvalue : value ≠ []) :
    s.append linkId TransKey.ranksInfo.key value =
      some (⟨s.grown TransKey.ranksInfo.key value, s.handler⟩,
        some (((s.backend TransKey.ranksInfo.key).getD []).length + value.length)) := by
  have hlength : value.length ≠ 0 := mt length_eq_zero_iff.mp hvalue
  simp only [append, appendRankInfoMap, Backend.put_snd, update_self, if_neg hlength, map_some,
    putRankInfoMap_ranksInfo, if_true, length_append, grown]

def nextSlot (s : FaultStore) (key : Key) (size : ℕ) : ℕ :=
  lastIndex (((s.backend key).getD []).length + size) size

theorem append_info (hvalue : value ≠ []) (k : RecordKind) (r : Role) :
    s.append linkId (TransKey.info k r).key value =
      match s.handler.linkIdToRankInfoMap linkId with
      | none => some (⟨s.grown (TransKey.info k r).key value, s.handler⟩, none)
      | some info => some (⟨s.grown (TransKey.info k r).key value,
          s.handler.setLink linkId (some (info.modify k fun i =>
            i.put k (s.nextSlot (TransKey.info k r).key value.length) value.length
              (TransKey.info k r).key))⟩,
          some (((s.backend (TransKey.info k r).key).getD []).length + value.length)) := by
  have hlength : value.length ≠ 0 := mt length_eq_zero_iff.mp hvalue
  simp only [append, appendRankInfoMap, Backend.put_snd, update_self, if_neg hlength, map_some,
    putRankInfoMap_info, updateLink, length_append, grown, nextSlot]
  cases s.handler.linkIdToRankInfoMap linkId with
  | none | some info => rfl

theorem write_cases {key : Key} {offset : ℕ} {p : FaultStore × Bool}
    (h : s.write linkId key value offset = some p) :
    (p.2 = false ∧ p.1.handler = s.handler ∧
      (p.1.backend = s.backend ∨ ∃ v, p.1.backend = update s.backend key (some v))) ∨
    (p.2 = true ∧ ∃ index v, p.1.backend = update s.backend key (some v) ∧
      s.handler.putRankInfoMap linkId key index value.length = (smOk, p.1.handler)) := by
  have hlen4 : (Bytes.le 4 offset).length = 4 := rfl
  have hlength : (Bytes.le 4 offset ++ value).length - 4 = value.length := by
    rw [length_append, hlen4, Nat.add_sub_cancel_left]
  have hcreate : ∀ size, (writeCreate s.backend key size).2 = s.backend ∨
      ∃ v, (writeCreate s.backend key size).2 = update s.backend key (some v) := by
    intro size
    rw [writeCreate]
    split
    · exact .inr ⟨_, rfl⟩
    · exact .inl rfl
  have hput : ∀ size v, ((writeCreate s.backend key size).2.put key v).2 =
      update s.backend key (some v) := by
    intro size v
    rcases hcreate size with hb | ⟨old, hb⟩
    · rw [hb, Backend.put_snd]
    · rw [hb, Backend.put_snd, update_idem]
  rw [write] at h
  split at h
  · rw [← some.inj h]
    exact .inl ⟨rfl, rfl, .inl rfl⟩
  obtain ⟨e, he, rfl⟩ := map_eq_some_iff.mp h
  rw [writeRankInfoMap, hlength, ite_none_left_eq_some] at he
  obtain ⟨-, he⟩ := he
  obtain rfl := some.inj he
  split
  next href => exact .inl ⟨rfl, putRankInfoMap_refused href, hcreate _⟩
  next hok => exact .inr ⟨rfl, _, _, hput _ _, Prod.ext (not_not.mp hok) rfl⟩

theorem write_nil (key : Key) : s.write linkId key [] 0 = none := by
  have hrange : writeInRange (Bytes.le 4 0 ++ []) := by decide
  rw [write, if_neg (not_not.mpr hrange)]
  rfl

/-- A record of less than 2¹⁶ bytes is written into its slot, in range of the server's check,
and the handler recovers the slot from the offset. -/
theorem write_slot {key : Key} (hold : s.backend key = some old) (hvalue : value ≠ [])
    (hsize : value.length < 2 ^ 16) (hslot : slot < 2 ^ 16) :
    s.write linkId key value (slot * value.length) =
      let e := s.handler.putRankInfoMap linkId key slot value.length
      some (if e.1 ≠ smOk then (⟨s.backend, e.2⟩, false)
        else (⟨update s.backend key
          (some (overlay old (slot * value.length) value)), e.2⟩, true)) := by
  have hpos : 0 < value.length := length_pos_iff.mpr hvalue
  have hle : slot * value.length ≤ 65535 * value.length := Nat.mul_le_mul_right _ (by omega)
  have hlen4 : (Bytes.le 4 (slot * value.length)).length = 4 := rfl
  have hoff : writeOffset (Bytes.le 4 (slot * value.length) ++ value) = slot * value.length := by
    rw [writeOffset, take_left' hlen4, Bytes.leValue_le_of_lt (by norm_num; omega)]
  have hdata : writeData (Bytes.le 4 (slot * value.length) ++ value) = value :=
    drop_left' hlen4
  have hrange : writeInRange (Bytes.le 4 (slot * value.length) ++ value) := by
    rw [writeInRange, hoff, hdata, maxU16Index]
    omega
  have hlength : (Bytes.le 4 (slot * value.length) ++ value).length - 4 = value.length := by
    rw [length_append, hlen4, Nat.add_sub_cancel_left]
  have hindex : slot * value.length / value.length % 2 ^ 16 = slot := by
    rw [Nat.mul_div_cancel _ hpos, Nat.mod_eq_of_lt hslot]
  simp only [write, if_neg (not_not.mpr hrange), hoff, writeCreate, hold, writeRankInfoMap,
    hlength, if_neg hpos.ne', map_some, hindex, getD_some, Backend.put_snd]

theorem write_ranksInfo (hold : s.backend TransKey.ranksInfo.key = some old) (hvalue : value ≠ [])
    (hsize : value.length < 2 ^ 16) (hslot : slot < 2 ^ 16) :
    s.write linkId TransKey.ranksInfo.key value (slot * value.length) =
      some (⟨update s.backend TransKey.ranksInfo.key
        (some (overlay old (slot * value.length) value)), s.handler⟩, true) := by
  rw [write_slot hold hvalue hsize hslot, putRankInfoMap_ranksInfo]
  rfl

theorem write_info {k : RecordKind} {r : Role} (hold : s.backend (TransKey.info k r).key = some old)
    (hvalue : value ≠ []) (hsize : value.length < 2 ^ 16) (hslot : slot < 2 ^ 16) :
    s.write linkId (TransKey.info k r).key value (slot * value.length) =
      match s.handler.linkIdToRankInfoMap linkId with
      | none => some (s, false)
      | some info => some (⟨update s.backend (TransKey.info k r).key
          (some (overlay old (slot * value.length) value)),
          s.handler.setLink linkId (some (info.modify k fun i =>
            i.put k slot value.length (TransKey.info k r).key))⟩, true) := by
  rw [write_slot hold hvalue hsize hslot, putRankInfoMap_info, updateLink]
  cases s.handler.linkIdToRankInfoMap linkId with
  | none | some info => rfl

end FaultStore

end Trans
