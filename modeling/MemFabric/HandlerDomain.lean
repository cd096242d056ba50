/-
The domains of what the handlers compute.

The handlers of the store server and of the fault handler subtract sizes, divide by them and
index byte strings, with numbers that come from requests.  `accesses` lists these operations for
each step of the server, in the order of the source, and `InDomain` asks each to be defined.
-/
import MemFabric.FaultHandler
import MemFabric.StoreSystem

namespace Trans

open Function Option List

open ConfigStore FaultHandler

/-! ### Operations with a domain -/

inductive Access
  /-- The difference of two unsigned sizes. -/
  | sub (minuend subtrahend : ℕ)
  | div (divisor : ℕ)
  /-- One byte of a string of `size` bytes. -/
  | byte (size offset : ℕ)
  /-- `count` bytes in a row. -/
  | span (size offset count : ℕ)
  deriving DecidableEq

def Access.InDomain : Access → Prop
  | sub minuend subtrahend => subtrahend ≤ minuend
  | div divisor => divisor ≠ 0
  | byte size offset => offset < size
  | span size offset count => offset + count ≤ size

instance : DecidablePred Access.InDomain
  | .sub minuend subtrahend => inferInstanceAs (Decidable (subtrahend ≤ minuend))
  | .div divisor => inferInstanceAs (Decidable (divisor ≠ 0))
  | .byte size offset => inferInstanceAs (Decidable (offset < size))
  | .span size offset count => inferInstanceAs (Decidable (offset + count ≤ size))

/-! ### Requests -/

/-- `BuildLinkIdToRankInfoMap` takes a rank apart that it knows to have two bytes. -/
def buildAccesses (key : Key) (value : Bytes) : List Access :=
  if find key autoRankKeyPrefix ∧ value.length = 2 then
    [.byte value.length 0, .byte value.length 1]
  else []

/-- `WriteRankInfoMap`, for whatever key. -/
def writeRankInfoAccesses (value : Bytes) : List Access :=
  [.span value.length 0 4, .sub value.length 4, .div (value.length - 4)]

/-- `WriteHandler` behind the check of its key: the offset is read, the copy is from the
data to the old value, which has been made long enough. -/
def writeAccesses (b : Backend) (key : Key) (value : Bytes) : List Access :=
  [.span value.length 0 4, .sub value.length 4] ++
    if ¬ writeInRange value then []
    else
      let stop := writeOffset value + (writeData value).length
      let curValue := ((writeCreate b key stop).2 key).getD []
      [.span value.length 4 (writeData value).length,
        .span (max curValue.length stop) (writeOffset value) (writeData value).length] ++
      writeRankInfoAccesses value

/-- `AppendRankInfoMap`, for whatever key; the backend has the appended value. -/
def appendRankInfoAccesses (b : Backend) (key : Key) (value : Bytes) : List Access :=
  match b key with
  | none => []
  | some oldValue => [.div value.length, .sub (oldValue.length / value.length) 1]

def appendAccesses (b : Backend) (key : Key) (value : Bytes) : List Access :=
  appendRankInfoAccesses (b.put key ((b key).getD [] ++ value)).2 key value

variable (s : Server FaultHandler)

/-- `FindOrInsertRank` reduces the index of its search modulo the world size. -/
def rankAccesses (linkId : ℕ) (key : Key) : List Access :=
  match s.backend (rankingKey key linkId) with
  | some _ => []
  | none => if s.aliveRankSet.card ≥ s.worldSize then [] else [.div s.worldSize]

def requestAccesses (ctx : ReqCtx) (m : SmemMessage) : List Access :=
  match m.mt, m.keys, m.values with
  | .set, [key], [value] =>
    if key.length > maxKeyLenServer then [] else buildAccesses key value
  | .get, [key], [] =>
    if key.length > maxKeyLenServer then []
    else if autoRankingStr.isPrefixOf key then rankAccesses s ctx.linkId key else []
  | .append, [key], [value] =>
    if key.length > maxKeyLenServer then [] else appendAccesses s.backend key value
  | .write, [key], [value] =>
    if key.length > maxKeyLenServer then [] else writeAccesses s.backend key value
  | _, _, _ => []

/-! ### Broken links -/

/-- The bytes that `ClearDeviceInfo` and `ClearSliceInfo` mark. -/
def slotAccesses (info : RecordInfo) (b : Backend) : List Access :=
  match b info.infoKey with
  | none => []
  | some oldValue =>
    info.infoId.map fun id => .byte oldValue.length (info.infoUnit * id % 2 ^ 32)

/-- `ClearFaultInfo`; the slices are cleared in what the devices have left. -/
def clearAccesses (h : FaultHandler) (linkId : ℕ) (b : Backend) : List Access :=
  match h.linkIdToRankInfoMap linkId with
  | none => []
  | some info => slotAccesses info.dInfo b ++ slotAccesses info.sInfo (clearDeviceInfo info h b).2

/-- `LinkBrokenHandler`: the record of the rank is copied into four bytes. -/
def brokenAccesses (linkId : ℕ) : List Access :=
  match s.backend (rankingKey autoRankingStr linkId) with
  | none => clearAccesses s.handler linkId s.backend
  | some outValue => .span 4 0 outValue.length ::
      clearAccesses s.handler linkId (s.backend.delete (rankingKey autoRankingStr linkId)).2

/-- The links that a pass of the checker finds, one after the other. -/
def lateAccesses : List ℕ → Server FaultHandler → List Access
  | [], _ => []
  | linkId :: links, s => clearAccesses s.handler linkId s.backend ++
      lateAccesses links (linkBrokenInner handlers s linkId)

/-- The operations of one step; a body that does not decode reaches no handler. -/
def accesses : Event → List Access
  | .request ctx body _ =>
    match decoded body with
    | none => []
    | some m => requestAccesses s ctx m
  | .broken linkId => brokenAccesses s linkId
  | .checker now =>
    let late := fun p : ℕ × ℤ => (now - p.2).tdiv heartbeatInterval > heartbeatTimeout
    lateAccesses ((s.heartBeatMap.filter fun p => late p).map Prod.fst) s
  | .connect _ _ | .timer _ _ | .rankState => []

def InDomain (s : Server FaultHandler) (e : Event) : Prop :=
  ∀ a ∈ accesses s e, a.InDomain

/-! ### Orderly requests -/

def PlainKey (key : Key) : Prop :=
  key ≠ [] ∧ autoRankingStr.isPrefixOf key = false ∧ kindOf infoText key = none
  deriving Decidable

def RecordKey (key : Key) : Prop := key ≠ [] ∧ autoRankingStr.isPrefixOf key = false
  deriving Decidable

/-- The slices of a link are all of one key and one size. -/
def SameSlices (h : FaultHandler) (linkId : ℕ) (key : Key) (size : ℕ) : Prop :=
  match h.linkIdToRankInfoMap linkId with
  | none => True
  | some info => kindOf infoText key = some .slice → info.sInfo.infoId ≠ [] →
      info.sInfo.infoKey = key ∧ info.sInfo.infoUnit = size % 2 ^ 16

/-- Requests as the trans clients make them: records are appended and written, never empty, and
nothing else is done to their keys; the rank records and the empty key are left alone. -/
def OrderlyRequest (ctx : ReqCtx) (m : SmemMessage) : Prop :=
  match m.mt, m.keys, m.values with
  | .set, [key], [_] => PlainKey key
  | .add, [key], [_] => PlainKey key
  | .cas, [key], [_, _] => PlainKey key
  | .remove, [key], [] => kindOf infoText key = none
  | .append, [key], [value] =>
    value ≠ [] ∧ RecordKey key ∧ SameSlices s.handler ctx.linkId key value.length
  | .write, [key], [value] =>
    4 < value.length ∧ RecordKey key ∧ SameSlices s.handler ctx.linkId key (value.length - 4)
  | _, _, _ => True

/-- Steps whose requests are orderly; links connect and break as they like. -/
def Orderly : Event → Prop
  | .request ctx body _ => ∀ m, decoded body = some m → OrderlyRequest s ctx m
  | _ => True

/-! ### The backend -/

def IsInfoKey (key : Key) : Prop :=
  kindOf infoText key ≠ none ∧ autoRankingStr.isPrefixOf key = false

variable {key : Key}

theorem PlainKey.not_isInfoKey (h : PlainKey key) : ¬ IsInfoKey key :=
  fun hinfo => hinfo.1 h.2.2

theorem PlainKey.recordKey (h : PlainKey key) : RecordKey key := ⟨h.1, h.2.1⟩

/-- Rank records fit their buffer, and the empty key, which stands for "no records yet"
in the fault handler, is absent. -/
structure TidyBackend (b : Backend) : Prop where
  rank : ∀ {key value}, autoRankingStr.isPrefixOf key = true → b key = some value → value.length ≤ 4
  empty : b [] = none

def Kept (b b' : Backend) : Prop :=
  ∀ key, IsInfoKey key → ∀ value, b key = some value →
    ∃ value', b' key = some value' ∧ value.length ≤ value'.length

variable {value : Bytes}

namespace TidyBackend

variable {b : Backend}

variable {key : Key}

theorem ne_nil (hb : TidyBackend b) (h : b key = some value) : key ≠ [] := by
  rintro rfl
  rw [hb.empty] at h
  cases h

theorem put (hb : TidyBackend b) (hkey : key ≠ [])
    (hrank : autoRankingStr.isPrefixOf key = true → value.length ≤ 4) :
    TidyBackend (update b key (some value)) where
  rank {key' value'} hkey' h := by
    by_cases hne : key' = key
    · rw [hne, update_self, some_inj] at h
      rw [← h]
      exact hrank (hne ▸ hkey')
    · rw [update_of_ne hne] at h
      exact hb.rank hkey' h
  empty := by
    rw [update_of_ne hkey.symm]
    exact hb.empty

theorem putRecord (hb : TidyBackend b) (value : Bytes) (hkey : RecordKey key) :
    TidyBackend (update b key (some value)) :=
  hb.put hkey.1 fun hrank => absurd hrank (by rw [hkey.2]; decide)

theorem delete (hb : TidyBackend b) (key : Key) : TidyBackend (update b key none) where
  rank {key' value'} hkey' h := by
    by_cases hne : key' = key
    · rw [hne, update_self] at h
      cases h
    · rw [update_of_ne hne] at h
      exact hb.rank hkey' h
  empty := by
    by_cases hne : [] = key
    · rw [← hne, update_self]
    · rw [update_of_ne hne]
      exact hb.empty

end TidyBackend

namespace Kept

variable {b b' b'' : Backend}

theorem refl (b : Backend) : Kept b b := fun _ _ value h => ⟨value, h, le_rfl⟩

theorem trans (h : Kept b b') (h' : Kept b' b'') : Kept b b'' := by
  intro key hkey value hvalue
  obtain ⟨value', hvalue', hle⟩ := h key hkey value hvalue
  obtain ⟨value'', hvalue'', hle'⟩ := h' key hkey value' hvalue'
  exact ⟨value'', hvalue'', hle.trans hle'⟩

theorem update (hkey : ¬ IsInfoKey key) (value : Option Bytes) : Kept b (update b key value) := by
  intro key' hkey' value' h
  have hne : key' ≠ key := fun heq => hkey (heq ▸ hkey')
  exact ⟨value', by rw [update_of_ne hne, h], le_rfl⟩

theorem grow (h : ∀ old, b key = some old → old.length ≤ value.length) :
    Kept b (Function.update b key (some value)) := by
  intro key' _ value' h'
  by_cases hne : key' = key
  · rw [hne] at h'
    exact ⟨value, by rw [hne, update_self], h value' h'⟩
  · exact ⟨value', by rw [update_of_ne hne, h'], le_rfl⟩

end Kept

/-! ### What is remembered of a link -/

/-- The slots of a record lie in the value they are slots of, and lowering the count
touches no records. -/
structure TidyRecord (b : Backend) (r : RecordInfo) : Prop where
  info : r.infoKey ≠ [] → IsInfoKey r.infoKey ∧
    ∃ value, b r.infoKey = some value ∧ ∀ id ∈ r.infoId, r.infoUnit * id < value.length
  count : r.countKey ≠ [] → RecordKey r.countKey ∧ ¬ IsInfoKey r.countKey

structure TidyRank (b : Backend) (info : RankInfo) : Prop where
  record : ∀ k, TidyRecord b (info.record k)
  rankName : ¬ IsInfoKey info.rankName

variable {b : Backend} {info : RankInfo}

theorem TidyRecord.mono {b' : Backend} {r : RecordInfo} (h : TidyRecord b r) (hk : Kept b b') :
    TidyRecord b' r where
  info hne := by
    obtain ⟨hkey, value, hvalue, hslots⟩ := h.info hne
    obtain ⟨value', hvalue', hle⟩ := hk _ hkey value hvalue
    exact ⟨hkey, value', hvalue', fun id hid => lt_of_lt_of_le (hslots id hid) hle⟩
  count := h.count

theorem TidyRank.mono {b' : Backend} (h : TidyRank b info) (hk : Kept b b') : TidyRank b' info :=
  ⟨fun k => (h.record k).mono hk, h.rankName⟩

theorem TidyRank.new (b : Backend) (rankId : ℕ) {rankName : Key} (h : ¬ IsInfoKey rankName) :
    TidyRank b (.new rankId rankName) where
  record k := by
    cases k with
    | device | slice => exact ⟨fun hne => absurd rfl hne, fun hne => absurd rfl hne⟩
  rankName := h

theorem TidyRank.modify (hinfo : TidyRank b info) {k : RecordKind} {f : RecordInfo → RecordInfo}
    (hf : TidyRecord b (f (info.record k))) :
    TidyRank b (info.modify k f) where
  record k' := by
    rw [RankInfo.record_modify]
    split
    · exact hf
    · exact hinfo.record k'
  rankName := by
    rw [RankInfo.rankName_modify]
    exact hinfo.rankName

/-- The fault handler remembers what the backend has. -/
structure Tidy (b : Backend) (h : FaultHandler) : Prop where
  backend : TidyBackend b
  links : ∀ {linkId info}, h.linkIdToRankInfoMap linkId = some info → TidyRank b info

namespace Tidy

variable {b b' : Backend} {h h' : FaultHandler} {linkId : ℕ} {key : Key}

theorem frame (hi : Tidy b h) (hb : TidyBackend b') (hk : Kept b b')
    (hlinks : h'.linkIdToRankInfoMap = h.linkIdToRankInfoMap) : Tidy b' h' where
  backend := hb
  links hinfo := (hi.links (hlinks ▸ hinfo)).mono hk

theorem init : Tidy Backend.clear FaultHandler.init where
  backend :=
    { rank := fun _ => nofun
      empty := rfl }
  links := nofun

theorem setLink (hi : Tidy b h) {info : Option RankInfo}
    (hinfo : ∀ i, info = some i → TidyRank b i) : Tidy b (h.setLink linkId info) where
  backend := hi.backend
  links {linkId' info'} hlink := by
    change update h.linkIdToRankInfoMap linkId info linkId' = some info' at hlink
    by_cases hne : linkId' = linkId
    · rw [hne, update_self] at hlink
      exact hinfo info' hlink
    · rw [update_of_ne hne] at hlink
      exact hi.links hlink

theorem updateLink (hi : Tidy b h) {f : RankInfo → RankInfo}
    (hf : ∀ info, h.linkIdToRankInfoMap linkId = some info → TidyRank b info →
      TidyRank b (f info)) : Tidy b (h.updateLink linkId f).2 := by
  rw [FaultHandler.updateLink]
  cases hlink : h.linkIdToRankInfoMap linkId with
  | none => exact hi
  | some info =>
    refine hi.setLink fun i hinfo => ?_
    rw [← some_inj.mp hinfo]
    exact hf info hlink (hi.links hlink)

/-! ### The fault handler -/

theorem build (hi : Tidy b h) (hkey : ¬ IsInfoKey key) (value : Bytes) :
    Tidy b (h.buildLinkIdToRankInfoMap linkId key value).2 := by
  rw [buildLinkIdToRankInfoMap]
  split
  · split
    · refine hi.setLink fun i hinfo => ?_
      rw [← some_inj.mp hinfo]
      exact .new b _ hkey
    · exact hi
  · exact hi

theorem add (hi : Tidy b h) (hkey : PlainKey key) : Tidy b (h.addRankInfoMap linkId key).2 := by
  rw [addRankInfoMap]
  split
  · exact hi.updateLink fun info _ hinfo =>
      hinfo.modify ⟨(hinfo.record _).info, fun _ => ⟨hkey.recordKey, hkey.not_isInfoKey⟩⟩
  · exact hi

theorem putRecord (hi : Tidy b h) (hkey : RecordKey key) {index size : ℕ}
    (hvalue : b key = some value) (hslot : size % 2 ^ 16 * index < value.length)
    (hsame : SameSlices h linkId key size) : Tidy b (h.putRankInfoMap linkId key index size).2 := by
  rw [putRankInfoMap]
  split
  on_goal 2 => exact hi
  rename_i k hkind
  have hinfoKey : IsInfoKey key := ⟨by rw [hkind]; simp, hkey.2⟩
  refine hi.updateLink fun info hlink hinfo => hinfo.modify ⟨fun _ => ?_, ?_⟩
  on_goal 2 => exact (hinfo.record k).count
  refine ⟨hinfoKey, value, hvalue, ?_⟩
  -- A device has the new slot only; the old slots of slices are slots of this value.
  cases k with
  | device =>
    intro id hid
    rw [mem_singleton.mp hid]
    exact hslot
  | slice =>
    intro id hid
    rcases mem_append.mp hid with hid | hid
    · rw [SameSlices, hlink] at hsame
      obtain ⟨hsameKey, hunit⟩ := hsame hkind (ne_nil_of_mem hid)
      have hne : info.sInfo.infoKey ≠ [] := hsameKey ▸ hkey.1
      obtain ⟨-, value', hvalue', hold⟩ := (hinfo.record .slice).info hne
      have heq : b info.sInfo.infoKey = some value' := hvalue'
      rw [hsameKey, hvalue, some_inj] at heq
      rw [heq]
      show size % 2 ^ 16 * id < value'.length
      rw [← hunit]
      exact hold id hid
    · rw [mem_singleton.mp hid]
      exact hslot

theorem slot_lt_of_write (hlen : 4 < value.length) :
    (value.length - 4) % 2 ^ 16 * (writeOffset value / (value.length - 4) % 2 ^ 16) <
      writeOffset value + (writeData value).length := by
  have hdata : (writeData value).length = value.length - 4 := length_drop
  have hle : (value.length - 4) % 2 ^ 16 * (writeOffset value / (value.length - 4) % 2 ^ 16) ≤
      (value.length - 4) * (writeOffset value / (value.length - 4)) :=
    Nat.mul_le_mul (Nat.mod_le _ _) (Nat.mod_le _ _)
  have hdiv := Nat.mul_div_le (writeOffset value) (value.length - 4)
  omega

theorem slot_lt_of_append {total size : ℕ} (hpos : 0 < size) (hle : size ≤ total) :
    size % 2 ^ 16 * lastIndex total size < total := by
  obtain ⟨q, hq⟩ : ∃ q, total / size = q + 1 :=
    ⟨total / size - 1, by have := Nat.div_pos hle hpos; omega⟩
  have hindex : lastIndex total size ≤ q := by
    rw [lastIndex, hq]
    omega
  have hmul : size % 2 ^ 16 * lastIndex total size ≤ size * q :=
    Nat.mul_le_mul (Nat.mod_le _ _) hindex
  have hdiv := Nat.mul_div_le total size
  rw [hq, Nat.mul_succ] at hdiv
  omega

end Tidy

/-! ### The break of a link -/

theorem length_markAbnormal (infoUnit : ℕ) (ids : List ℕ) :
    ∀ value : Bytes, (markAbnormal infoUnit ids value).length = value.length := by
  induction ids with
  | nil => exact fun value => rfl
  | cons id ids ih =>
    intro value
    rw [markAbnormal, foldl_cons, ← markAbnormal, ih, length_set]

section Clear

variable {b : Backend} {h : FaultHandler} {k : RecordKind} {r : RecordInfo}

section

variable (hb : TidyBackend b) (hr : TidyRecord b r)
include hb hr

theorem clearSlots_tidy :
    TidyBackend (clearSlots k r h b).2 ∧ Kept b (clearSlots k r h b).2 := by
  rw [clearSlots]
  cases hvalue : b r.infoKey with
  | none => exact ⟨hb, .refl b⟩
  | some oldValue =>
    have hne := hb.ne_nil hvalue
    refine ⟨hb.putRecord _ ⟨hne, (hr.info hne).1.2⟩, .grow fun old hold => ?_⟩
    rw [hvalue, some_inj] at hold
    rw [length_markAbnormal, hold]

theorem clearCount_tidy :
    TidyBackend (clearCount k r b) ∧ Kept b (clearCount k r b) := by
  rw [clearCount]
  cases hvalue : b r.countKey with
  | none => exact ⟨hb, .refl b⟩
  | some oldValue =>
    have hne := hb.ne_nil hvalue
    obtain ⟨hkey, hinfo⟩ := hr.count hne
    dsimp only
    split
    · exact ⟨hb, .refl b⟩
    · exact ⟨hb.putRecord _ hkey, .update hinfo _⟩

theorem clearRecordInfo_tidy :
    TidyBackend (clearRecordInfo k r h b).2 ∧ Kept b (clearRecordInfo k r h b).2 := by
  obtain ⟨hb₁, hk₁⟩ := clearSlots_tidy (k := k) (h := h) hb hr
  obtain ⟨hb₂, hk₂⟩ := clearCount_tidy (k := k) hb₁ (hr.mono hk₁)
  exact ⟨hb₂, hk₁.trans hk₂⟩

end

theorem clearRecordInfo_links :
    (clearRecordInfo k r h b).1.linkIdToRankInfoMap = h.linkIdToRankInfoMap := by
  rw [clearRecordInfo, clearSlots]
  split <;> rfl

theorem slotAccesses_inDomain (hb : TidyBackend b) (hr : TidyRecord b r) :
    ∀ a ∈ slotAccesses r b, a.InDomain := by
  intro a ha
  rw [slotAccesses] at ha
  cases hvalue : b r.infoKey with
  | none =>
    rw [hvalue] at ha
    cases ha
  | some oldValue =>
    rw [hvalue] at ha
    obtain ⟨id, hid, rfl⟩ := mem_map.mp ha
    have hne := hb.ne_nil hvalue
    obtain ⟨-, value, hvalue', hslots⟩ := hr.info hne
    rw [hvalue, some_inj] at hvalue'
    rw [hvalue']
    exact lt_of_le_of_lt (Nat.mod_le _ _) (hslots id hid)

theorem Tidy.clear (hi : Tidy b h) (linkId : ℕ) :
    Tidy (h.clearFaultInfo linkId b).2 (h.clearFaultInfo linkId b).1 := by
  rw [clearFaultInfo]
  cases hlink : h.linkIdToRankInfoMap linkId with
  | none => exact hi
  | some info =>
    have hinfo := hi.links hlink
    obtain ⟨hb₁, hk₁⟩ := clearRecordInfo_tidy (k := .device) (h := h) hi.backend
      (hinfo.record .device)
    obtain ⟨hb₂, hk₂⟩ := clearRecordInfo_tidy (k := .slice)
      (h := (clearDeviceInfo info h b).1) hb₁ ((hinfo.record .slice).mono hk₁)
    refine Tidy.setLink ?_ nofun
    refine hi.frame (hb₂.delete _) ((hk₁.trans hk₂).trans (.update hinfo.rankName none)) ?_
    exact clearRecordInfo_links.trans clearRecordInfo_links

theorem clearAccesses_inDomain (hi : Tidy b h) (linkId : ℕ) :
    ∀ a ∈ clearAccesses h linkId b, a.InDomain := by
  intro a ha
  rw [clearAccesses] at ha
  cases hlink : h.linkIdToRankInfoMap linkId with
  | none =>
    rw [hlink] at ha
    cases ha
  | some info =>
    rw [hlink] at ha
    have hinfo := hi.links hlink
    obtain ⟨hb₁, hk₁⟩ := clearRecordInfo_tidy (k := .device) (h := h) hi.backend
      (hinfo.record .device)
    rcases mem_append.mp ha with ha | ha
    · exact slotAccesses_inDomain hi.backend (hinfo.record .device) a ha
    · exact slotAccesses_inDomain hb₁ ((hinfo.record .slice).mono hk₁) a ha

end Clear

/-! ### Requests -/

variable {now : ℤ}

section Requests

variable {s : Server FaultHandler} {ctx : ReqCtx} {m : SmemMessage} {key : Key} {value : Bytes}

/-- The state of the server keeps what `Tidy` says. -/
def TidyServer (s : Server FaultHandler) : Prop := Tidy s.backend s.handler

theorem setKey_tidy {a : Answer FaultHandler} (hi : TidyServer s) (hkey : PlainKey key)
    (ha : setKey handlers s ctx key value = some a) : TidyServer a.server := by
  have hbuild : Tidy s.backend (s.handler.buildLinkIdToRankInfoMap ctx.linkId key value).2 :=
    Tidy.build hi hkey.not_isInfoKey value
  obtain ⟨e, he, rfl⟩ := map_eq_some_iff.mp ha
  obtain rfl := some.inj he
  split
  · exact hbuild
  · exact hbuild.frame (hi.backend.putRecord _ hkey.recordKey) (.update hkey.not_isInfoKey _) rfl

theorem rankingKey_facts (hkey : autoRankingStr.isPrefixOf key = true) (linkId : ℕ) :
    rankingKey key linkId ≠ [] ∧ ¬ IsInfoKey (rankingKey key linkId) := by
  have hstarts := isPrefixOf_append hkey (Decimal.ofNat linkId)
  rw [rankingKey]
  refine ⟨fun hnil => ?_, ?_⟩
  · rw [hnil] at hstarts
    cases hstarts
  rintro ⟨-, hnot⟩
  rw [hstarts] at hnot
  cases hnot

variable {h : FaultHandler} {a : Answer FaultHandler}

theorem Tidy.deleteRecord {b : Backend} (hi : Tidy b h) (linkId : ℕ) :
    Tidy (b.delete (rankingKey autoRankingStr linkId)).2 h := by
  have hstarts : autoRankingStr.isPrefixOf autoRankingStr = true := by decide
  exact hi.frame (hi.backend.delete _) (.update (rankingKey_facts hstarts linkId).2 none) rfl

theorem findOrInsertRank_tidy (hi : TidyServer s) {mt : MessageType}
    (hkey : autoRankingStr.isPrefixOf key = true) (h : findOrInsertRank s ctx mt key = some a) :
    TidyServer a.server := by
  obtain ⟨hne, hinfo⟩ := rankingKey_facts hkey ctx.linkId
  rw [findOrInsertRank] at h
  split at h
  · rw [← some_inj.mp h]
    exact hi
  split at h
  · rw [← some_inj.mp h]
    exact hi
  · obtain ⟨rank, -, rfl⟩ := map_eq_some_iff.mp h
    exact hi.frame (hi.backend.put hne fun _ => le_rfl) (.update hinfo _) rfl

theorem getFromFaultInfo_links {h' : FaultHandler} {id : ℕ}
    (hget : h.getFromFaultInfo key = some (id, h')) :
    h'.linkIdToRankInfoMap = h.linkIdToRankInfoMap := by
  have hrec : ∀ {k r}, h.popRecord k r key = some (id, h') →
      h'.linkIdToRankInfoMap = h.linkIdToRankInfoMap := by
    intro k r hpop
    rw [popRecord] at hpop
    split at hpop
    · cases hpop
    obtain ⟨-, hpop⟩ := ite_none_right_eq_some.mp hpop
    rw [← (Prod.mk.inj (some.inj hpop)).2]
    rfl
  simp only [getFromFaultInfo, or_eq_some_iff] at hget
  rcases hget with hpop | ⟨-, hpop | ⟨-, hpop | ⟨-, hpop | ⟨-, hpop⟩⟩⟩⟩
  · rw [popRank] at hpop
    split at hpop
    · cases hpop
    · obtain ⟨-, hpop⟩ := ite_none_right_eq_some.mp hpop
      rw [← (Prod.mk.inj (some.inj hpop)).2]
  all_goals exact hrec hpop

theorem executeHandle_get_links {linkId : ℕ} {e : ℤ × Bytes × FaultHandler}
    (he : executeHandle handlers s .get linkId key value = some e) :
    e.2.2.linkIdToRankInfoMap = s.handler.linkIdToRankInfoMap := by
  rw [executeHandle, handlers] at he
  cases hget : s.handler.getFromFaultInfo key with
  | none =>
    simp only [hget, some.injEq] at he
    rw [← he]
  | some p =>
    simp only [hget, some.injEq] at he
    rw [← he]
    exact getFromFaultInfo_links hget

section

variable (hi : TidyServer s)
include hi

theorem getKey_tidy (ha : getKey handlers s ctx m key now = some a) : TidyServer a.server := by
  rw [getKey] at ha
  split at ha
  · exact some.inj ha ▸ hi
  obtain ⟨e, he, ha⟩ := bind_eq_some_iff.mp ha
  have hframe : Tidy s.backend e.2.2 :=
    Tidy.frame hi hi.backend (.refl _) (executeHandle_get_links he)
  dsimp only at ha
  split at ha
  · exact some.inj ha ▸ hframe
  split at ha
  · exact some.inj ha ▸ hframe
  · exact some.inj (ite_none_left_eq_some.mp ha).2 ▸ hframe

theorem addKey_tidy {valueNum : ℤ} (hkey : PlainKey key)
    (ha : addKey handlers s ctx key value valueNum = some a) : TidyServer a.server := by
  obtain ⟨e, he, ha⟩ := bind_eq_some_iff.mp ha
  have hadd : Tidy s.backend e.2.2 := by
    rw [executeAdd] at he
    split at he
    · exact some.inj he ▸ Tidy.add hi hkey
    · exact some.inj he ▸ hi
  have hput : ∀ text : Bytes, Tidy (update s.backend key (some text)) e.2.2 := fun text =>
    hadd.frame (hi.backend.putRecord _ hkey.recordKey) (.update hkey.not_isInfoKey _) rfl
  dsimp only at ha
  split at ha
  · exact some.inj ha ▸ hadd
  split at ha
  · exact some.inj ha ▸ hput _
  split at ha
  · exact some.inj ha ▸ hadd
  split at ha
  · exact some.inj ha ▸ hadd
  · exact some.inj (ite_none_left_eq_some.mp ha).2 ▸ hput _

theorem appendKey_tidy (hkey : RecordKey key)
    (hsame : SameSlices s.handler ctx.linkId key value.length)
    (ha : appendKey handlers s ctx key value = some a) : TidyServer a.server := by
  -- Both branches of the source put the same value.
  have hput : ∀ newValue : Bytes, newValue = (s.backend key).getD [] ++ value →
      ∀ e, s.handler.appendRankInfoMap ctx.linkId key value
        (update s.backend key (some newValue)) = some e →
      Tidy (update s.backend key (some newValue)) e.2 := by
    intro newValue hnew e he
    have hgrown : Tidy (update s.backend key (some newValue)) s.handler := by
      refine Tidy.frame hi (hi.backend.putRecord _ hkey) (.grow fun old hold => ?_) rfl
      rw [hnew, hold, getD_some, length_append]
      omega
    have hstored := update_self key (some newValue) s.backend
    rw [appendRankInfoMap, hstored] at he
    obtain ⟨hpos, he⟩ := ite_none_left_eq_some.mp he
    rw [← some.inj he]
    refine hgrown.putRecord hkey hstored
      (Tidy.slot_lt_of_append (Nat.pos_of_ne_zero hpos) ?_) hsame
    rw [hnew, length_append]
    omega
  rw [appendKey] at ha
  obtain ⟨e, he, rfl⟩ := map_eq_some_iff.mp ha
  obtain ⟨e, he', rfl⟩ := map_eq_some_iff.mp he
  cases hold : s.backend key with
  | none =>
    rw [hold] at he'
    have hnone := hput value (by rw [hold, getD_none, nil_append]) e he'
    dsimp only
    split
    · exact hnone
    · exact hnone
  | some oldValue =>
    rw [hold] at he'
    have hsome := hput (oldValue ++ value) (by rw [hold, getD_some]) e he'
    dsimp only
    split
    · exact hsome
    · exact hsome

theorem casKey_tidy (hkey : PlainKey key) (mt : MessageType)
    (expected exchange : Bytes) : TidyServer (casKey s ctx mt key expected exchange).server := by
  have hput : Tidy (update s.backend key (some exchange)) s.handler :=
    Tidy.frame hi (hi.backend.putRecord _ hkey.recordKey) (.update hkey.not_isInfoKey _) rfl
  rw [casKey]
  split
  · rename_i oldValue _
    by_cases heq : expected = oldValue
    · simp only [if_pos heq]
      exact hput
    · simp only [if_neg heq]
      exact hi
  · split
    · exact hput
    · exact hi

theorem writeKey_tidy (hlen : 4 < value.length) (hkey : RecordKey key)
    (hsame : SameSlices s.handler ctx.linkId key (value.length - 4))
    (ha : writeKey handlers s ctx key value = some a) : TidyServer a.server := by
  have hcreate : ∀ size, (writeCreate s.backend key size).1 = .success ∧
      Tidy (writeCreate s.backend key size).2 s.handler := by
    intro size
    rw [writeCreate]
    split
    · rename_i hnone
      refine ⟨rfl, Tidy.frame hi (hi.backend.putRecord _ hkey) (.grow fun old hold => ?_) rfl⟩
      rw [hnone] at hold
      cases hold
    · exact ⟨rfl, hi⟩
  rw [writeKey] at ha
  obtain ⟨hsuccess, hmade⟩ := hcreate (writeOffset value + (writeData value).length)
  generalize (writeCreate s.backend key (writeOffset value + (writeData value).length)) = created
    at hsuccess hmade ha
  simp only [hsuccess, ne_eq, not_true_eq_false, if_false, Backend.put_fst] at ha
  obtain ⟨e, he, rfl⟩ := map_eq_some_iff.mp ha
  obtain ⟨e, he', rfl⟩ := map_eq_some_iff.mp he
  obtain rfl := some.inj (ite_none_left_eq_some.mp he').2
  split
  · rename_i href
    show Tidy created.2 (s.handler.putRankInfoMap ctx.linkId key _ _).2
    rw [putRankInfoMap_refused href]
    exact hmade
  have hstored := update_self key (some (overlay ((created.2 key).getD [])
    (writeOffset value) (writeData value))) created.2
  have hgrown : Tidy (update created.2 key (some (overlay ((created.2 key).getD [])
      (writeOffset value) (writeData value)))) s.handler := by
    refine hmade.frame (hmade.backend.putRecord _ hkey) (.grow fun old hold => ?_) rfl
    rw [length_overlay, hold, getD_some]
    exact le_max_left _ _
  refine hgrown.putRecord hkey hstored ?_ hsame
  rw [length_overlay]
  exact lt_of_lt_of_le (Tidy.slot_lt_of_write hlen) (le_max_right _ _)

theorem requestHandler_tidy (hm : OrderlyRequest s ctx m)
    (h : requestHandler handlers s ctx m now = some a) : TidyServer a.server := by
  cases requestHandler_cases h with
  | refused | silent => exact hi
  | set hq ha =>
    simp only [OrderlyRequest, hq.mt, hq.keys, hq.values] at hm
    exact setKey_tidy hi hm ha
  | rank _ hkey ha => exact findOrInsertRank_tidy hi hkey ha
  | get _ _ ha => exact getKey_tidy hi ha
  | add hq ha =>
    simp only [OrderlyRequest, hq.mt, hq.keys, hq.values] at hm
    exact addKey_tidy hi hm ha
  | remove hq =>
    simp only [OrderlyRequest, hq.mt, hq.keys, hq.values] at hm
    exact hi.frame (hi.backend.delete _) (.update (fun hinfo => hinfo.1 hm) none) rfl
  | append hq ha =>
    simp only [OrderlyRequest, hq.mt, hq.keys, hq.values] at hm
    exact appendKey_tidy hi hm.2.1 hm.2.2 ha
  | cas hq =>
    simp only [OrderlyRequest, hq.mt, hq.keys, hq.values] at hm
    exact casKey_tidy hi hm _ _ _
  | write hq _ _ ha =>
    simp only [OrderlyRequest, hq.mt, hq.keys, hq.values] at hm
    exact writeKey_tidy hi hm.1 hm.2.1 hm.2.2 ha
  | watch =>
    rw [watchRankStateHandler]
    split
    · split
      · exact hi
      simp only
      split
      · exact hi
      · exact hi
    · exact hi
  | heartbeat =>
    rw [heartbeatHandler]
    split
    · exact hi
    · exact hi

end

theorem requestAccesses_inDomain (hm : OrderlyRequest s ctx m) :
    ∀ a ∈ requestAccesses s ctx m, a.InDomain := by
  intro a ha
  rw [requestAccesses] at ha
  split at ha
  · split at ha
    · cases ha
    rw [buildAccesses] at ha
    split at ha
    · rename_i hrank
      simp only [mem_cons, not_mem_nil, or_false, hrank.2] at ha
      rcases ha with rfl | rfl
      · exact Nat.two_pos
      · exact Nat.one_lt_two
    · cases ha
  · split at ha
    · cases ha
    split at ha
    · rw [rankAccesses] at ha
      split at ha
      · cases ha
      split at ha
      · cases ha
      rename_i hroom
      rw [mem_singleton.mp ha]
      exact Nat.ne_of_gt (Nat.zero_lt_of_lt (Nat.lt_of_not_le hroom))
    · cases ha
  · rename_i key value hmt hkeys hvalues
    simp only [OrderlyRequest, hmt, hkeys, hvalues] at hm
    split at ha
    · cases ha
    have hpos : 0 < value.length := length_pos_iff.mpr hm.1
    rw [appendAccesses, appendRankInfoAccesses, Backend.put_snd, update_self] at ha
    simp only [mem_cons, not_mem_nil, or_false, length_append] at ha
    rcases ha with rfl | rfl
    · exact Nat.ne_of_gt hpos
    · exact Nat.div_pos (Nat.le_add_left _ _) hpos
  · rename_i key value hmt hkeys hvalues
    simp only [OrderlyRequest, hmt, hkeys, hvalues] at hm
    split at ha
    · cases ha
    have hlen := hm.1
    have hread : (Access.span value.length 0 4).InDomain := by
      show 0 + 4 ≤ value.length
      omega
    have hsize : (Access.sub value.length 4).InDomain := hlen.le
    rcases mem_append.mp ha with ha | ha
    · simp only [mem_cons, not_mem_nil, or_false] at ha
      rcases ha with rfl | rfl
      · exact hread
      · exact hsize
    split at ha
    · cases ha
    simp only [writeRankInfoAccesses, cons_append, nil_append, mem_cons,
      not_mem_nil, or_false] at ha
    rcases ha with rfl | rfl | rfl | rfl | rfl
    · show 4 + (value.drop 4).length ≤ value.length
      rw [length_drop]
      omega
    · exact le_max_right _ _
    · exact hread
    · exact hsize
    · show value.length - 4 ≠ 0
      omega
  · cases ha

end Requests

/-! ### Whole runs -/

namespace TidyServer

variable {s : Server FaultHandler}

section

variable (hi : TidyServer s)
include hi

theorem cleanup (linkId rankId : ℕ) : TidyServer (linkBrokenCleanup handlers s linkId rankId) := by
  rw [linkBrokenCleanup]
  split
  · exact Tidy.clear hi linkId
  · exact Tidy.clear hi linkId

theorem broken {linkId : ℕ} {s' : Server FaultHandler}
    (h : linkBrokenHandler handlers s linkId = some s') : TidyServer s' := by
  rw [linkBrokenHandler] at h
  split at h
  · exact some_inj.mp h ▸ hi.cleanup _ _
  obtain ⟨-, h⟩ := ite_none_left_eq_some.mp h
  rw [← some_inj.mp h]
  refine cleanup ?_ _ _
  exact hi.deleteRecord linkId

theorem inner (linkId : ℕ) : TidyServer (linkBrokenInner handlers s linkId) :=
  Tidy.clear hi linkId

theorem checker (links : List ℕ) : TidyServer (links.foldl (linkBrokenInner handlers) s) := by
  induction links generalizing s with
  | nil => exact hi
  | cons linkId links ih => exact ih (hi.inner linkId)

theorem connect (linkId rankReq : ℕ) : TidyServer (linkConnectedHandler s linkId rankReq) := by
  have hstarts : autoRankingStr.isPrefixOf autoRankingStr = true := by decide
  obtain ⟨hne, hinfo⟩ := rankingKey_facts hstarts linkId
  rw [linkConnectedHandler]
  split
  · exact hi
  · exact hi.frame (hi.backend.put hne fun _ => le_rfl) (.update hinfo _) rfl

theorem handle {e : Event} {a : Answer FaultHandler} (he : Orderly s e)
    (h : s.handle handlers e = some a) : TidyServer a.server := by
  cases handle_cases h with
  | connect linkId rankReq _ =>
    exact connect (s := { s with established := insert linkId s.established }) hi linkId rankReq
  | broken linkId s' hs' =>
    exact broken (s := { s with established := s.established.erase linkId }) hi hs'
  | undecoded => exact hi
  | request ctx body now m _ hm hreq =>
    exact requestHandler_tidy hi (he m hm) hreq
  | timer now order => exact hi
  | rankState =>
    rw [rankStateTask_server]
    exact hi
  | checker now =>
    show TidyServer (checkerTask handlers s now)
    refine checker ?_ _
    exact hi

end

theorem of_orderly {worldSize : ℕ}
    (hs : (storeSystem handlers worldSize FaultHandler.init).ReachableBy Orderly s) :
    TidyServer s := by
  refine TransitionSystem.ReachableBy.invariant (I := TidyServer) ?_ ?_ hs
  · exact Tidy.init
  intro s s' e hi he hn
  obtain ⟨a, ha, rfl⟩ := map_eq_some_iff.mp hn
  exact hi.handle he ha

theorem late (hi : TidyServer s) (links : List ℕ) : ∀ a ∈ lateAccesses links s, a.InDomain := by
  induction links generalizing s with
  | nil => nofun
  | cons linkId links ih =>
    intro a ha
    rcases mem_append.mp ha with ha | ha
    · exact clearAccesses_inDomain hi linkId a ha
    · exact ih (hi.inner linkId) a ha

theorem brokenInDomain (hi : TidyServer s) (linkId : ℕ) :
    ∀ a ∈ brokenAccesses s linkId, a.InDomain := by
  have hstarts : autoRankingStr.isPrefixOf autoRankingStr = true := by decide
  intro a ha
  rw [brokenAccesses] at ha
  split at ha
  · exact clearAccesses_inDomain hi linkId a ha
  rename_i outValue hrec
  rcases mem_cons.mp ha with rfl | ha
  · show 0 + outValue.length ≤ 4
    rw [Nat.zero_add]
    exact hi.backend.rank (isPrefixOf_append hstarts _) hrec
  · exact clearAccesses_inDomain (hi.deleteRecord linkId) linkId a ha

end TidyServer

/-- In every run of requests that keep to what the clients of the store send, every step is in its
domain, the break of any link included. -/
theorem inDomain_of_orderly {worldSize : ℕ} {s : Server FaultHandler}
    (hs : (storeSystem handlers worldSize FaultHandler.init).ReachableBy Orderly s) (e : Event)
    (he : Orderly s e) : InDomain s e := by
  have hi := TidyServer.of_orderly hs
  cases e with
  | connect linkId rankReq => nofun
  | broken linkId => exact hi.brokenInDomain linkId
  | request ctx body now =>
    intro a ha
    rw [accesses] at ha
    cases hm : decoded body with
    | none =>
      rw [hm] at ha
      cases ha
    | some m =>
      rw [hm] at ha
      exact requestAccesses_inDomain (he m hm) a ha
  | timer now order | rankState => nofun
  | checker now => exact hi.late _

section Packed

variable {s : Server FaultHandler} {uid linkId : ℕ} {key : Key} {value : Bytes} {now : ℤ}

theorem orderly_set (hdecoded : decoded (some (pack (StoreOp.set key value).message)) =
    some (StoreOp.set key value).message) (hkey : PlainKey key) :
    Orderly s (requestOf uid linkId (.set key value) now) := by
  intro m hm
  rw [← some_inj.mp (hdecoded.symm.trans hm)]
  exact hkey

theorem orderly_append_device (hdecoded : decoded (some (pack (StoreOp.append key value).message)) =
      some (StoreOp.append key value).message) (hvalue : value ≠ []) (hkey : RecordKey key)
    (hkind : kindOf infoText key = some .device) :
    Orderly s (requestOf uid linkId (.append key value) now) := by
  intro m hm
  rw [← some_inj.mp (hdecoded.symm.trans hm)]
  refine ⟨hvalue, hkey, ?_⟩
  rw [SameSlices]
  split
  · trivial
  intro hslice
  rw [hkind] at hslice
  cases hslice

end Packed

/-- A link that has registered a rank and appended the eight bytes of a device breaks:
the first of them is marked. -/
theorem inDomain_broken_device :
    ∃ s, (storeSystem handlers 2 FaultHandler.init).run
        (Server.init 2 FaultHandler.init) [.connect 1 4294967295,
          requestOf 0 1 (.set (TransKey.key (.rank [97])) [7, 0]) 0,
          requestOf 1 1 (.append (TransKey.key (.info .device .sender))
            [1, 0, 0, 0, 0, 0, 0, 0]) 0] = some s ∧
      accesses s (.broken 1) = [.byte 8 0] ∧ InDomain s (.broken 1) := by
  refine TransitionSystem.exists_run (fun s => accesses s (.broken 1)) [.byte 8 0] ?_
    fun s hs hval => ?_
  · decide +kernel
  -- The steps are orderly in whatever state they are taken.
  have hset : ∀ s, Orderly s (requestOf 0 1 (.set (TransKey.key (.rank [97])) [7, 0]) 0) :=
    fun s => orderly_set (by decide +kernel) (by decide +kernel)
  have happend : ∀ s, Orderly s (requestOf 1 1 (.append (TransKey.key (.info .device .sender))
      [1, 0, 0, 0, 0, 0, 0, 0]) 0) := fun s =>
    orderly_append_device (by decide +kernel) (cons_ne_nil _ _) (by decide +kernel)
      (kindOf_info .device .sender)
  have hreach := TransitionSystem.ReachableBy.start.run (forall_mem_cons.mpr
    ⟨fun _ => trivial, forall_mem_cons.mpr ⟨hset, forall_mem_singleton.mpr happend⟩⟩) hs
  exact ⟨hval, inDomain_of_orderly hreach (.broken 1) trivial⟩

/-- An APPEND of no bytes is outside its domain, and so is the break of a link after a user has set
its rank record. -/
theorem append_nothing_divides_by_zero :
    (∃ s, (storeSystem handlers 2 FaultHandler.init).run
        (Server.init 2 FaultHandler.init) [.connect 1 4294967295] = some s ∧
      ¬ InDomain s (requestOf 0 1 (.append (Bytes.ofString "k") []) 0)) ∧
    ∃ s, (storeSystem handlers 2 FaultHandler.init).run
        (Server.init 2 FaultHandler.init) [.connect 1 4294967295,
          requestOf 0 1 (.set (Bytes.ofString "AutoRanking#1") [1, 2, 3, 4, 5]) 0] = some s ∧
      ¬ InDomain s (.broken 1) := by
  constructor
  · refine TransitionSystem.exists_run
      (fun s => accesses s (requestOf 0 1 (.append (Bytes.ofString "k") []) 0))
      [.div 0, .sub 0 1] ?_ fun s _ hval h => ?_
    · decide +kernel
    exact h (.div 0) mem_cons_self rfl
  refine TransitionSystem.exists_run (fun s => accesses s (.broken 1)) [.span 4 0 5] ?_
    fun s _ hval h => ?_
  · decide +kernel
  rw [InDomain, hval] at h
  exact absurd (h _ (mem_singleton_self _)) (by decide)

end Trans
