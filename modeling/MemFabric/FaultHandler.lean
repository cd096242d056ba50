/-
The fault handler of the trans store: `SmemStoreFaultHandler`.

The handler is registered with the configuration store server for SET, GET, ADD, WRITE and
APPEND and for broken links.  It remembers for every link the rank id and the records registered
over it; when the link breaks it marks the records ABNORMAL, lowers the counts and queues the
slots, and a GET of a client that looks for a slot is answered from the queues.  A step on a
record is one definition with the kind as parameter; where the two kinds differ
(`RecordInfo.put`, `RecordInfo.lost`) it is written out by kind.
-/
import MemFabric.Handlers
import MemFabric.TransKeys

namespace Trans

open ConfigStore

-- Of `SMErrorCode`: no queue has an id for the key.
def smObjectNotExists : ℤ := -2007

/-- The status byte of a record: `DataStatusType`. -/
def abnormal : UInt8 := 0
def normal : UInt8 := 1

/-- `uint16_t index = totalSize / size - 1`. -/
def lastIndex (totalSize size : ℕ) : ℕ := (totalSize / size + (2 ^ 16 - 1)) % 2 ^ 16

/-! ### What is remembered of a link -/

/-- `ConfigServerDeviceInfo` and `ConfigServerSliceInfo`; a device has one slot. -/
structure RecordInfo where
  infoUnit : ℕ
  infoId : List ℕ
  infoKey : Key
  countKey : Key
  deriving DecidableEq

structure RankInfo where
  rankId : ℕ
  rankName : Key
  dInfo : RecordInfo
  sInfo : RecordInfo
  deriving DecidableEq

namespace RecordInfo

/-- The new slot replaces that of a device and joins those of the slices. -/
def put (info : RecordInfo) (k : RecordKind) (index size : ℕ) (key : Key) : RecordInfo :=
  { info with
    infoId := match k with
      | .device => [index]
      | .slice => info.infoId ++ [index]
    infoUnit := size % 2 ^ 16
    infoKey := key }

@[simp] theorem put_frame (info : RecordInfo) (k : RecordKind) (index size : ℕ) (key : Key) :
    (info.put k index size key).infoKey = key ∧
      (info.put k index size key).countKey = info.countKey ∧
      (info.put k index size key).infoUnit = size % 2 ^ 16 := ⟨rfl, rfl, rfl⟩

def lost (info : RecordInfo) : RecordKind → ℕ
  | .device => 1
  | .slice => info.infoId.length

end RecordInfo

namespace RankInfo

/-- `RankInfo(rId, rName)`.  The units are not initialised; no unit is read before a record
has been put. -/
def new (rankId : ℕ) (rankName : Key) : RankInfo where
  rankId := rankId
  rankName := rankName
  dInfo := ⟨0, [0], [], []⟩
  sInfo := ⟨0, [], [], []⟩

def record (info : RankInfo) : RecordKind → RecordInfo
  | .device => info.dInfo
  | .slice => info.sInfo

def modify (info : RankInfo) (k : RecordKind) (f : RecordInfo → RecordInfo) : RankInfo :=
  match k with
  | .device => { info with dInfo := f info.dInfo }
  | .slice => { info with sInfo := f info.sInfo }

theorem new_infoKey (rankId : ℕ) (rankName : Key) (k : RecordKind) :
    ((new rankId rankName).record k).infoKey = [] := by
  cases k <;> rfl

variable (info : RankInfo) (k : RecordKind) (f : RecordInfo → RecordInfo)

@[simp] theorem rankId_modify : (info.modify k f).rankId = info.rankId := by cases k <;> rfl

@[simp] theorem rankName_modify : (info.modify k f).rankName = info.rankName := by
  cases k <;> rfl

theorem record_modify (k' : RecordKind) :
    (info.modify k f).record k' = if k' = k then f (info.record k) else info.record k' := by
  cases k <;> cases k' <;> rfl

@[simp] theorem record_modify_self : (info.modify k f).record k = f (info.record k) := by
  rw [record_modify, if_pos rfl]

variable {info k f} in
theorem record_modify_of_ne {k' : RecordKind} (h : k' ≠ k) :
    (info.modify k f).record k' = info.record k' := by
  rw [record_modify, if_neg h]

end RankInfo

/-- The fields of `SmemStoreFaultHandler`; `faultIdQueue` is `faultDeviceIdQueue_` and
`faultSliceIdQueue_`, whose first component is for senders. -/
structure FaultHandler where
  linkIdToRankInfoMap : ℕ → Option RankInfo
  faultRankIdQueue : List ℕ
  faultIdQueue : RecordKind → Role → List ℕ

namespace FaultHandler

def init : FaultHandler := ⟨fun _ => none, [], fun _ _ => []⟩

/-! ### Requests -/

def setLink (h : FaultHandler) (linkId : ℕ) (info : Option RankInfo) : FaultHandler :=
  { h with linkIdToRankInfoMap := Function.update h.linkIdToRankInfoMap linkId info }

/-- Update what is remembered of a link; refused where nothing is. -/
def updateLink (h : FaultHandler) (linkId : ℕ) (f : RankInfo → RankInfo) : ℤ × FaultHandler :=
  match h.linkIdToRankInfoMap linkId with
  | none => (smInvalidParam, h)
  | some info => (smOk, h.setLink linkId (some (f info)))

def buildLinkIdToRankInfoMap (h : FaultHandler) (linkId : ℕ) (key : Key) (value : Bytes) :
    ℤ × FaultHandler :=
  if find key autoRankKeyPrefix then
    if value.length = 2 then (smOk, h.setLink linkId (some (.new (Bytes.leValue value) key)))
    else (smError, h)
  else (smOk, h)

/-- The kind of record whose text, for one of the roles, is found in the key. -/
def kindOf (text : RecordKind → Role → Bytes) (key : Key) : Option RecordKind :=
  if find key (text .device .sender) || find key (text .device .receiver) then some .device
  else if find key (text .slice .sender) || find key (text .slice .receiver) then some .slice
  else none

def addRankInfoMap (h : FaultHandler) (linkId : ℕ) (key : Key) : ℤ × FaultHandler :=
  match kindOf countText key with
  | some k => h.updateLink linkId fun info => info.modify k fun r => { r with countKey := key }
  | none => (smOk, h)

/-- The tail shared by WRITE and APPEND: the slot is remembered. -/
def putRankInfoMap (h : FaultHandler) (linkId : ℕ) (key : Key) (index size : ℕ) :
    ℤ × FaultHandler :=
  match kindOf infoText key with
  | some k => h.updateLink linkId fun info => info.modify k fun r => r.put k index size key
  | none => (smOk, h)

/-- A value of the offset alone makes it divide by zero. -/
def writeRankInfoMap (h : FaultHandler) (linkId : ℕ) (key : Key) (value : Bytes) :
    Option (ℤ × FaultHandler) :=
  let realValSize := value.length - 4
  if realValSize = 0 then none
  else some (h.putRankInfoMap linkId key (writeOffset value / realValSize % 2 ^ 16) realValSize)

/-- An empty value makes it divide by zero. -/
def appendRankInfoMap (h : FaultHandler) (linkId : ℕ) (key : Key) (value : Bytes)
    (backend : Backend) : Option (ℤ × FaultHandler) :=
  match backend key with
  | none => some (smInvalidParam, h)
  | some oldValue =>
    if value.length = 0 then none
    else some (h.putRankInfoMap linkId key (lastIndex oldValue.length value.length) value.length)

/-- One branch of `GetFromFaultInfo`. -/
def popRank (h : FaultHandler) (key : Key) : Option (ℕ × FaultHandler) :=
  match h.faultRankIdQueue with
  | [] => none
  | id :: rest =>
    if find key autoRankKeyPrefix then some (id, { h with faultRankIdQueue := rest }) else none

def setIdQueue (h : FaultHandler) (k : RecordKind) (r : Role) (queue : List ℕ) : FaultHandler :=
  { h with
    faultIdQueue :=
      Function.update h.faultIdQueue k (Function.update (h.faultIdQueue k) r queue) }

/-- The other branches of `GetFromFaultInfo`. -/
def popRecord (h : FaultHandler) (k : RecordKind) (r : Role) (key : Key) :
    Option (ℕ × FaultHandler) :=
  match h.faultIdQueue k r with
  | [] => none
  | id :: rest => if find key (idText k r) then some (id, h.setIdQueue k r rest) else none

/-- `GetFromFaultInfo`; `none` is `SM_OBJECT_NOT_EXISTS`. -/
def getFromFaultInfo (h : FaultHandler) (key : Key) : Option (ℕ × FaultHandler) :=
  (h.popRank key).or <| (h.popRecord .device .sender key).or <|
    (h.popRecord .device .receiver key).or <| (h.popRecord .slice .sender key).or <|
      h.popRecord .slice .receiver key

/-! ### Broken links -/

/-- Mark the records in the given slots.  The product of the two 16-bit factors is kept in
32 bits. -/
def markAbnormal (infoUnit : ℕ) (ids : List ℕ) (value : Bytes) : Bytes :=
  ids.foldl (fun v id => v.set (infoUnit * id % 2 ^ 32) abnormal) value

/-- The first half of `ClearDeviceInfo` and `ClearSliceInfo`: mark the records and queue their
slots, with the receivers' unless the key is one of senders. -/
def clearSlots (k : RecordKind) (info : RecordInfo) (h : FaultHandler) (b : Backend) :
    FaultHandler × Backend :=
  match b info.infoKey with
  | none => (h, b)
  | some oldValue =>
    let r := if find info.infoKey (infoText k .sender) then Role.sender else Role.receiver
    (h.setIdQueue k r (h.faultIdQueue k r ++ info.infoId),
      (b.put info.infoKey (markAbnormal info.infoUnit info.infoId oldValue)).2)

/-- The second half: lower the count, if it is a number. -/
def clearCount (k : RecordKind) (info : RecordInfo) (b : Backend) : Backend :=
  match b info.countKey with
  | none => b
  | some oldValue =>
    match Decimal.string2Int oldValue with
    | none => b
    | some valueNum =>
      (b.put info.countKey (Decimal.ofInt (Decimal.wrap64 (valueNum - info.lost k)))).2

def clearRecordInfo (k : RecordKind) (info : RecordInfo) (h : FaultHandler) (b : Backend) :
    FaultHandler × Backend :=
  let p := clearSlots k info h b
  (p.1, clearCount k info p.2)

def clearDeviceInfo (info : RankInfo) : FaultHandler → Backend → FaultHandler × Backend :=
  clearRecordInfo .device info.dInfo

def clearSliceInfo (info : RankInfo) : FaultHandler → Backend → FaultHandler × Backend :=
  clearRecordInfo .slice info.sInfo

def clearFaultInfo (h : FaultHandler) (linkId : ℕ) (backend : Backend) : FaultHandler × Backend :=
  match h.linkIdToRankInfoMap linkId with
  | none => (h, backend)
  | some info =>
    let d := clearDeviceInfo info h backend
    let s := clearSliceInfo info d.1 d.2
    ({ s.1 with faultRankIdQueue := s.1.faultRankIdQueue ++ [info.rankId] }.setLink linkId none,
      (s.2.delete info.rankName).2)

/-- `RegisterHandlerToStore`. -/
def handlers : Registered FaultHandler where
  op
    | .set => some fun h linkId key value _ =>
      let e := h.buildLinkIdToRankInfoMap linkId key value
      some (e.1, value, e.2)
    | .get => some fun h _ key value _ =>
      match h.getFromFaultInfo key with
      | none => some (smObjectNotExists, value, h)
      | some (id, h) => some (smGetObject, value ++ Bytes.le 2 id, h)
    | .add => some fun h linkId key value _ =>
      let e := h.addRankInfoMap linkId key
      some (e.1, value, e.2)
    | .write => some fun h linkId key value _ =>
      (h.writeRankInfoMap linkId key value).map fun e => (e.1, value, e.2)
    | .append => some fun h linkId key value backend =>
      (h.appendRankInfoMap linkId key value backend).map fun e => (e.1, value, e.2)
    | _ => none
  broken := some fun h linkId backend => h.clearFaultInfo linkId backend

/-! ### The keys of a client -/

variable {h : FaultHandler} {linkId : ℕ}

theorem buildLinkIdToRankInfoMap_rank (name : Bytes) (id : ℕ) :
    h.buildLinkIdToRankInfoMap linkId (TransKey.rank name).key (Bytes.le 2 id) =
      (smOk, h.setLink linkId (some (.new (id % 2 ^ 16) (TransKey.rank name).key))) := by
  have hlen : (Bytes.le 2 id).length = 2 := rfl
  rw [buildLinkIdToRankInfoMap, if_pos (find_rankKey name), if_pos hlen, Bytes.leValue_le]
  rfl

theorem getFromFaultInfo_rank {name : Bytes} (hname : 95 ∉ name) :
    h.getFromFaultInfo (TransKey.rank name).key =
      match h.faultRankIdQueue with
      | [] => none
      | id :: rest => some (id, { h with faultRankIdQueue := rest }) := by
  have hrec : ∀ k r, h.popRecord k r (TransKey.rank name).key = none := by
    intro k r
    rw [popRecord, find_rankKey_idText hname]
    split <;> rfl
  simp only [getFromFaultInfo, hrec, Option.or_none, popRank, find_rankKey, if_true]

theorem getFromFaultInfo_id (k : RecordKind) (r : Role) :
    h.getFromFaultInfo (TransKey.id k r).key =
      match h.faultIdQueue k r with
      | [] => none
      | id :: rest => some (id, h.setIdQueue k r rest) := by
  have hrank : h.popRank (TransKey.id k r).key = none := by
    rw [popRank, find_autoRankKeyPrefix (.id k r) fun _ => nofun]
    split <;> rfl
  have hother : ∀ k' r', (k, r) ≠ (k', r') → h.popRecord k' r' (TransKey.id k r).key = none := by
    intro k' r' hne
    rw [popRecord, find_id, decide_eq_false fun hkr => hne (Prod.ext hkr.1 hkr.2)]
    split <;> rfl
  have hself : h.popRecord k r (TransKey.id k r).key =
      match h.faultIdQueue k r with
      | [] => none
      | id :: rest => some (id, h.setIdQueue k r rest) := by
    rw [popRecord, find_id, decide_eq_true ⟨rfl, rfl⟩]
    rfl
  rw [getFromFaultInfo, hrank, ← hself]
  cases k <;> cases r <;> simp [hother]

theorem kindOf_info (k : RecordKind) (r : Role) :
    kindOf infoText (TransKey.info k r).key = some k := by
  cases k <;> cases r <;> simp [kindOf, find_info]

theorem kindOf_count (k : RecordKind) (r : Role) :
    kindOf countText (TransKey.count k r).key = some k := by
  cases k <;> cases r <;> simp [kindOf, find_count]

theorem updateLink_refused {f : RankInfo → RankInfo} (hne : (h.updateLink linkId f).1 ≠ smOk) :
    (h.updateLink linkId f).2 = h := by
  rw [updateLink] at hne ⊢
  cases hlink : h.linkIdToRankInfoMap linkId with
  | none => rfl
  | some info =>
    rw [hlink] at hne
    exact absurd rfl hne

theorem putRankInfoMap_refused {key : Key} {index size : ℕ}
    (hne : (h.putRankInfoMap linkId key index size).1 ≠ smOk) :
    (h.putRankInfoMap linkId key index size).2 = h := by
  rw [putRankInfoMap] at hne ⊢
  cases hkind : kindOf infoText key with
  | none => rfl
  | some k =>
    rw [hkind] at hne
    exact updateLink_refused hne

theorem putRankInfoMap_info (k : RecordKind) (r : Role) (index size : ℕ) :
    h.putRankInfoMap linkId (TransKey.info k r).key index size = h.updateLink linkId fun info =>
        info.modify k fun i => i.put k index size (TransKey.info k r).key := by
  rw [putRankInfoMap, kindOf_info]

theorem putRankInfoMap_ranksInfo (index size : ℕ) :
    h.putRankInfoMap linkId TransKey.ranksInfo.key index size = (smOk, h) := by
  have hkind : kindOf infoText TransKey.ranksInfo.key = none := by
    simp [kindOf, find_ranksInfo]
  rw [putRankInfoMap, hkind]

theorem addRankInfoMap_count (k : RecordKind) (r : Role) :
    h.addRankInfoMap linkId (TransKey.count k r).key = h.updateLink linkId fun info =>
        info.modify k fun i => { i with countKey := (TransKey.count k r).key } := by
  rw [addRankInfoMap, kindOf_count]

end FaultHandler

end Trans
