/-
The state of the configuration store server and the helpers of its handlers.

`Server` holds the fields of `AccStoreServer` that its handlers use, with the three tables of
waiting GETs grouped in `Waiters`.  Operation handlers and the broken link handler are registered
from outside (`Registered`) and keep a state of their own, of any type `H`.  A handler yields an
`Answer`: its return value, the new state and the replies it sends.

Hash maps that are only looked up are functions into `Option`.  The table of timed waiters is
also walked, in an order the container is free to choose, so it is a list of buckets and
`timerPass` takes the order as an argument.  Waiter ids are counted without wrap-around.
-/
import MemFabric.Message

namespace ConfigStore

open Function List

/-- `StoreErrorCode`, the result code in the header of a reply. -/
inductive StoreErrorCode
  | success | error | invalidMessage | invalidKey | notExist | restore | timeout | ioError
  deriving DecidableEq, Repr

def StoreErrorCode.toInt : StoreErrorCode → ℤ
  | success => 0 | error => -1 | invalidMessage => -400 | invalidKey => -401
  | notExist => -404 | restore => -405 | timeout => -601 | ioError => -602

-- The values of `SMErrorCode` that the handlers return or test.
def smOk : ℤ := 0
def smError : ℤ := -1
def smInvalidParam : ℤ := -2000
def smRepeatCall : ℤ := -2005
def smGetObject : ℤ := -2011

/-! ### The local memory backend -/

/-- `SmemLocalMemoryBackend`: the map `kvStore_`. -/
abbrev Backend := Key → Option Bytes

namespace Backend

def put (b : Backend) (key : Key) (value : Bytes) : StoreErrorCode × Backend :=
  (.success, update b key (some value))

def delete (b : Backend) (key : Key) : StoreErrorCode × Backend :=
  (if (b key).isSome then .success else .notExist, update b key none)

def exist (b : Backend) (key : Key) : StoreErrorCode :=
  if (b key).isSome then .success else .notExist

def clear : Backend := fun _ => none

@[simp] theorem put_fst (b : Backend) (key : Key) (value : Bytes) :
    (b.put key value).1 = .success := by rw [put]

@[simp] theorem put_snd (b : Backend) (key : Key) (value : Bytes) :
    (b.put key value).2 = update b key (some value) := rfl

@[simp] theorem delete_snd (b : Backend) (key : Key) :
    (b.delete key).2 = update b key none := rfl

end Backend

/-! ### The server state -/

/-- `AccTcpRequestContext`: the link and sequence number a reply goes to.
`uid` tells the contexts of different messages apart, as their addresses do. -/
structure ReqCtx where
  uid : ℕ
  linkId : ℕ
  seqNo : ℕ
  deriving DecidableEq, Repr

structure StoreWaitContext where
  id : ℕ
  timeoutMs : ℤ
  key : Key
  reqCtx : ReqCtx
  deriving DecidableEq

structure Reply where
  ctx : ReqCtx
  code : StoreErrorCode
  message : Bytes
  deriving DecidableEq

/-- The tables of waiting GETs: `waitCtx_`, `keyWaiters_`, `timedWaiters_` and the
counter that ids are drawn from. -/
structure Waiters where
  waitCtx : ℕ → Option StoreWaitContext
  keyWaiters : Key → Option (List ℕ)
  timedWaiters : List (ℤ × List ℕ)
  idGen : ℕ

/-- `AccStoreServer`, with the set of links that are `Established()`. -/
structure Server (H : Type) where
  backend : Backend
  waiters : Waiters
  rankStateWaiters : List (ℕ × StoreWaitContext)
  rankStateTaskQueue : List ℕ
  worldSize : ℕ
  rankIndex : ℕ
  aliveRankSet : Finset ℕ
  heartBeatMap : List (ℕ × ℤ)
  established : Finset ℕ
  handler : H

/-- `ConfigStoreServerOpHandler`: from link, key, value and backend to a result
code and the value as it left it.  It reads the backend and does not write it; `none` is a
call that leaves the defined behaviour. -/
abbrev OpHandler (H : Type) := H → ℕ → Key → Bytes → Backend → Option (ℤ × Bytes × H)

/-- `externalOpHandlerMap_` and `externalBrokenHandler_`. -/
structure Registered (H : Type) where
  op : MessageType → Option (OpHandler H)
  broken : Option (H → ℕ → Backend → H × Backend)

def noHandlers (H : Type) : Registered H := ⟨fun _ => none, none⟩

/-- A server whose only registered handler is for `opCode` and refuses every
request, as `SmemStoreFaultHandler` refuses those of links it has no rank of. -/
def refusing (opCode : MessageType) : Registered Unit where
  op mt := if mt = opCode then some fun h _ _ value _ => some (smInvalidParam, value, h)
    else none
  broken := none

structure Answer (H : Type) where
  ret : ℤ
  server : Server H
  replies : List Reply

def maxKeyLenServer : ℕ := 2048
def autoRankingStr : Key := Bytes.ofString "AutoRanking#"
def watchRankDownKey : Key := Bytes.ofString "WATCH_RANK_DOWN_KEY"
def uint32Max : ℕ := 2 ^ 32 - 1

/-- No waiter registered; the counter goes on. -/
def Waiters.clear (idGen : ℕ) : Waiters := ⟨fun _ => none, fun _ => none, [], idGen⟩

variable {H : Type}

def Server.init (worldSize : ℕ) (h : H) : Server H where
  backend := Backend.clear
  waiters := Waiters.clear 1
  rankStateWaiters := []
  rankStateTaskQueue := []
  worldSize := worldSize
  rankIndex := 0
  aliveRankSet := ∅
  heartBeatMap := []
  established := ∅
  handler := h

/-- `ExecuteHandle`: result code, value and handler state afterwards. -/
def executeHandle (reg : Registered H) (s : Server H) (opCode : MessageType) (linkId : ℕ)
    (key : Key) (value : Bytes) : Option (ℤ × Bytes × H) :=
  match reg.op opCode with
  | none => some (smOk, value, s.handler)
  | some f => f s.handler linkId key value s.backend

/-! ### Replies -/

/-- `ReplyWithMessage`; a link that is not established takes no reply. -/
def replyWithMessage (s : Server H) (ctx : ReqCtx) (code : StoreErrorCode) (message : Bytes) :
    List Reply :=
  if ctx.linkId ∈ s.established then [⟨ctx, code, message⟩] else []

def wakeupMessage (value : Bytes) : Bytes := pack { mt := .get, values := [value] }

def wakeupWaiters (s : Server H) (waiters : List ReqCtx) (value : Bytes) : List Reply :=
  waiters.flatMap fun ctx => replyWithMessage s ctx .success (wakeupMessage value)

/-! ### Waiters -/

/-- Erase an id from the bucket of a deadline, and the bucket once it is empty. -/
def eraseTimed (timed : List (ℤ × List ℕ)) (timeoutMs : ℤ) (id : ℕ) : List (ℤ × List ℕ) :=
  timed.filterMap fun b =>
    if b.1 = timeoutMs then
      if b.2.erase id = [] then none else some (b.1, b.2.erase id)
    else some b

def insertTimed (timed : List (ℤ × List ℕ)) (timeoutMs : ℤ) (id : ℕ) : List (ℤ × List ℕ) :=
  if timed.any fun b => b.1 = timeoutMs then
    timed.map fun b => if b.1 = timeoutMs then (b.1, b.2 ++ [id]) else b
  else timed ++ [(timeoutMs, [id])]

namespace Waiters

/-- `GetOutWaitersInLock`: take the waiters with these ids out of `waitCtx_` and
`timedWaiters_`, skipping ids that are no longer registered. -/
def getOutWaitersInLock : Waiters → List ℕ → Waiters × List ReqCtx
  | t, [] => (t, [])
  | t, id :: ids =>
    match t.waitCtx id with
    | none => getOutWaitersInLock t ids
    | some w =>
      let r := getOutWaitersInLock
        { t with
          waitCtx := update t.waitCtx id none
          timedWaiters := eraseTimed t.timedWaiters w.timeoutMs w.id } ids
      (r.1, w.reqCtx :: r.2)

/-- The waiters of a key that is being created: taken out, and the key's entry
in `keyWaiters_` erased. -/
def takeKeyWaiters (t : Waiters) (key : Key) : Waiters × List ReqCtx :=
  match t.keyWaiters key with
  | none => (t, [])
  | some ids =>
    let r := t.getOutWaitersInLock ids
    ({ r.1 with keyWaiters := update r.1.keyWaiters key none }, r.2)

/-- Register a waiter for a key, timed if `userDef` is positive. -/
def addWaiter (t : Waiters) (ctx : ReqCtx) (key : Key) (userDef now : ℤ) : Waiters :=
  let id := t.idGen
  { idGen := t.idGen + 1
    waitCtx := update t.waitCtx id (some ⟨id, now + userDef, key, ctx⟩)
    keyWaiters := update t.keyWaiters key (some ((t.keyWaiters key).getD [] ++ [id]))
    timedWaiters :=
      if userDef > 0 then insertTimed t.timedWaiters (now + userDef) id else t.timedWaiters }

theorem addWaiter_waitCtx (t : Waiters) (ctx : ReqCtx) (key : Key) (userDef now : ℤ) (i : ℕ) :
    (t.addWaiter ctx key userDef now).waitCtx i =
      if i = t.idGen then some ⟨t.idGen, now + userDef, key, ctx⟩ else t.waitCtx i := by
  simp only [addWaiter, update_apply]

theorem addWaiter_keyWaiters (t : Waiters) (ctx : ReqCtx) (key : Key) (userDef now : ℤ) (k : Key) :
    (t.addWaiter ctx key userDef now).keyWaiters k =
      if k = key then some ((t.keyWaiters key).getD [] ++ [t.idGen]) else t.keyWaiters k := by
  simp only [addWaiter, update_apply]

variable {t : Waiters} {key : Key}

theorem mem_getD_keyWaiters {id : ℕ} :
    id ∈ (t.keyWaiters key).getD [] ↔ ∃ ids, t.keyWaiters key = some ids ∧ id ∈ ids := by
  cases t.keyWaiters key with
  | none | some ids => simp

section AddWaiter

variable {t : Waiters} {ctx : ReqCtx} {key : Key} {userDef now : ℤ}

theorem waitCtx_of_addWaiter {i : ℕ} {w : StoreWaitContext}
    (h : (t.addWaiter ctx key userDef now).waitCtx i = some w) :
    (i = t.idGen ∧ w.key = key ∧ w.reqCtx = ctx) ∨ (i ≠ t.idGen ∧ t.waitCtx i = some w) := by
  rw [addWaiter_waitCtx] at h
  split at h
  case isTrue hi =>
    rw [← Option.some_inj.mp h]
    exact .inl ⟨hi, rfl, rfl⟩
  case isFalse hi => exact .inr ⟨hi, h⟩

theorem mem_keyWaiters_of_addWaiter {k : Key} {ids : List ℕ} {id : ℕ}
    (h : (t.addWaiter ctx key userDef now).keyWaiters k = some ids) (hid : id ∈ ids) :
    (k = key ∧ id = t.idGen) ∨ ∃ old, t.keyWaiters k = some old ∧ id ∈ old := by
  rw [addWaiter_keyWaiters] at h
  split at h
  case isTrue hk =>
    rw [← Option.some_inj.mp h, mem_append, mem_singleton] at hid
    rcases hid with hid | hid
    · exact .inr (hk ▸ mem_getD_keyWaiters.mp hid)
    · exact .inl ⟨hk, hid⟩
  case isFalse => exact .inr ⟨ids, h, hid⟩

end AddWaiter

/-- The ids of `keyWaiters_[key]` that are in `waitCtx_`. -/
def registered (t : Waiters) (key : Key) : List ℕ :=
  ((t.keyWaiters key).getD []).filter fun id => (t.waitCtx id).isSome

@[simp] theorem getOutWaitersInLock_frame (t : Waiters) (ids : List ℕ) :
    (t.getOutWaitersInLock ids).1.keyWaiters = t.keyWaiters ∧
      (t.getOutWaitersInLock ids).1.idGen = t.idGen := by
  induction ids generalizing t with
  | nil => exact ⟨rfl, rfl⟩
  | cons id ids ih =>
    rw [getOutWaitersInLock]
    split
    · exact ih t
    · exact ih _

theorem getOutWaitersInLock_waitCtx (t : Waiters) (ids : List ℕ) (i : ℕ) :
    (t.getOutWaitersInLock ids).1.waitCtx i = if i ∈ ids then none else t.waitCtx i := by
  induction ids generalizing t with
  | nil => rfl
  | cons id ids ih =>
    rw [getOutWaitersInLock]
    split
    · rename_i hid
      rw [ih]
      by_cases hi : i = id
      · rw [hi, hid, if_pos mem_cons_self, ite_self]
      · simp only [mem_cons, hi, false_or]
    show (getOutWaitersInLock _ ids).1.waitCtx i = _
    rw [ih]
    by_cases hi : i = id
    · simp [hi]
    · simp [hi]

theorem mem_getOutWaitersInLock (t : Waiters) (ids : List ℕ) (ctx : ReqCtx) :
    ctx ∈ (t.getOutWaitersInLock ids).2 ↔
      ∃ id ∈ ids, ∃ w, t.waitCtx id = some w ∧ w.reqCtx = ctx := by
  induction ids generalizing t with
  | nil => simp [getOutWaitersInLock]
  | cons id ids ih =>
    rw [getOutWaitersInLock]
    split
    · rename_i hid
      rw [ih]
      constructor
      · rintro ⟨i, hi, w, hw⟩
        exact ⟨i, mem_cons_of_mem _ hi, w, hw⟩
      rintro ⟨i, hi, w, hw, hc⟩
      rcases mem_cons.mp hi with rfl | hi
      · rw [hid] at hw
        cases hw
      · exact ⟨i, hi, w, hw, hc⟩
    rename_i w₀ hid
    simp only [mem_cons, ih]
    constructor
    · rintro (rfl | ⟨i, hi, w, hw, hc⟩)
      · exact ⟨id, .inl rfl, w₀, hid, rfl⟩
      by_cases hne : i = id
      · rw [hne] at hw
        exact absurd hw (by simp)
      · rw [update_of_ne hne] at hw
        exact ⟨i, .inr hi, w, hw, hc⟩
    rintro ⟨i, hi, w, hw, hc⟩
    by_cases hne : i = id
    · rw [hne, hid, Option.some_inj] at hw
      exact .inl (by rw [← hc, hw])
    refine .inr ⟨i, hi.resolve_left hne, w, ?_, hc⟩
    rw [update_of_ne hne]
    exact hw

def CtxInjective (t : Waiters) : Prop :=
  ∀ {i j : ℕ} {w v : StoreWaitContext}, t.waitCtx i = some w → t.waitCtx j = some v →
    w.reqCtx = v.reqCtx → i = j

theorem nodup_getOutWaitersInLock (ht : t.CtxInjective) (ids : List ℕ) :
    (t.getOutWaitersInLock ids).2.Nodup := by
  induction ids generalizing t with
  | nil => exact nodup_nil
  | cons id ids ih =>
    rw [getOutWaitersInLock]
    split
    · exact ih ht
    rename_i w₀ hid
    -- The id is erased before the rest is taken, so it is not taken twice.
    have hsub : ∀ {i w}, update t.waitCtx id none i = some w → i ≠ id ∧ t.waitCtx i = some w := by
      intro i w hw
      by_cases hne : i = id
      · rw [hne, update_self] at hw
        cases hw
      · rw [update_of_ne hne] at hw
        exact ⟨hne, hw⟩
    refine nodup_cons.mpr ⟨?_, ih fun hi hj hc => ht (hsub hi).2 (hsub hj).2 hc⟩
    rw [mem_getOutWaitersInLock]
    rintro ⟨i, -, w, hw, hc⟩
    exact (hsub hw).1 (ht (hsub hw).2 hid hc)

theorem takeKeyWaiters_keyWaiters (t : Waiters) (key : Key) :
    (t.takeKeyWaiters key).1.keyWaiters = update t.keyWaiters key none := by
  rw [takeKeyWaiters]
  split
  · rename_i h
    rw [← h, update_eq_self]
  · show update (getOutWaitersInLock _ _).1.keyWaiters key none = _
    rw [(getOutWaitersInLock_frame ..).1]

@[simp] theorem takeKeyWaiters_idGen (t : Waiters) (key : Key) :
    (t.takeKeyWaiters key).1.idGen = t.idGen := by
  rw [takeKeyWaiters]
  split
  · rfl
  · exact (getOutWaitersInLock_frame ..).2

theorem takeKeyWaiters_waitCtx (t : Waiters) (key : Key) (i : ℕ) :
    (t.takeKeyWaiters key).1.waitCtx i =
      if i ∈ (t.keyWaiters key).getD [] then none else t.waitCtx i := by
  rw [takeKeyWaiters]
  split
  · rename_i h
    rw [h]
    rfl
  · rename_i ids h
    rw [h]
    exact getOutWaitersInLock_waitCtx t ids i

theorem waitCtx_of_takeKeyWaiters {i : ℕ} {w : StoreWaitContext}
    (h : (t.takeKeyWaiters key).1.waitCtx i = some w) : t.waitCtx i = some w := by
  rw [takeKeyWaiters_waitCtx] at h
  split at h
  case isTrue => cases h
  case isFalse => exact h

theorem keyWaiters_of_takeKeyWaiters {k : Key} {l : List ℕ}
    (h : (t.takeKeyWaiters key).1.keyWaiters k = some l) : t.keyWaiters k = some l := by
  rw [takeKeyWaiters_keyWaiters, update_apply] at h
  split at h
  case isTrue => cases h
  case isFalse => exact h

theorem mem_takeKeyWaiters (t : Waiters) (key : Key) (ctx : ReqCtx) :
    ctx ∈ (t.takeKeyWaiters key).2 ↔
      ∃ id ∈ (t.keyWaiters key).getD [], ∃ w, t.waitCtx id = some w ∧ w.reqCtx = ctx := by
  rw [takeKeyWaiters]
  split
  · rename_i h
    rw [h]
    simp
  · rename_i ids h
    rw [h]
    exact mem_getOutWaitersInLock t ids ctx

theorem nodup_takeKeyWaiters (ht : t.CtxInjective) (key : Key) :
    (t.takeKeyWaiters key).2.Nodup := by
  rw [takeKeyWaiters]
  split
  · exact nodup_nil
  · exact nodup_getOutWaitersInLock ht _

end Waiters

/-- One pass of `TimerThreadTask` at time `now`.  The loop erases buckets from
the front of the container's order and stops at the first that is not due. -/
def timerPass (s : Server H) (now : ℤ) (order : List (ℤ × List ℕ)) : Answer H :=
  let due := order.takeWhile fun b => b.1 ≤ now
  let r := Waiters.getOutWaitersInLock
    { s.waiters with timedWaiters := order.dropWhile fun b => b.1 ≤ now } (due.flatMap Prod.snd)
  { ret := smOk
    server := { s with waiters := r.1 }
    replies := r.2.flatMap fun ctx =>
      replyWithMessage s ctx .timeout (Bytes.ofString "<timeout>") }

/-! ### Ranks -/

/-- The search loop of `FindOrInsertRank`, with a bound on its iterations. -/
def findRank (worldSize : ℕ) (alive : Finset ℕ) : ℕ → ℕ → Option ℕ
  | 0, _ => none
  | fuel + 1, rankIndex =>
    let i := rankIndex % worldSize
    if i ∈ alive then findRank worldSize alive fuel (i + 1) else some i

variable {worldSize : ℕ} {alive : Finset ℕ}

theorem findRank_spec (hpos : 0 < worldSize) :
    ∀ {fuel rankIndex rank : ℕ}, findRank worldSize alive fuel rankIndex = some rank →
      rank < worldSize ∧ rank ∉ alive := by
  intro fuel
  induction fuel with
  | zero => exact fun h => absurd h (by simp [findRank])
  | succ fuel ih =>
    intro rankIndex rank h
    rw [findRank] at h
    split at h
    · exact ih h
    rename_i hfree
    rw [← Option.some_inj.mp h]
    exact ⟨Nat.mod_lt _ hpos, hfree⟩

theorem findRank_isSome :
    ∀ {fuel rankIndex k : ℕ}, k < fuel → (rankIndex + k) % worldSize ∉ alive →
      (findRank worldSize alive fuel rankIndex).isSome = true := by
  intro fuel
  induction fuel with
  | zero => exact fun h => absurd h (Nat.not_lt_zero _)
  | succ fuel ih =>
    intro rankIndex k hk hfree
    rw [findRank]
    split
    · rename_i hused
      cases k with
      | zero => exact absurd hused hfree
      | succ k =>
        refine ih (k := k) (by omega) ?_
        rwa [Nat.add_assoc, Nat.mod_add_mod, Nat.add_comm 1 k]
    · rfl

theorem findRank_mono :
    ∀ {fuel fuel' rankIndex rank : ℕ}, fuel ≤ fuel' →
      findRank worldSize alive fuel rankIndex = some rank →
      findRank worldSize alive fuel' rankIndex = some rank := by
  intro fuel
  induction fuel with
  | zero => exact fun _ h => absurd h (by simp [findRank])
  | succ fuel ih =>
    intro fuel' rankIndex rank hle h
    obtain ⟨fuel', rfl⟩ : ∃ n, fuel' = n + 1 := ⟨fuel' - 1, by omega⟩
    rw [findRank] at h ⊢
    split at h
    · rename_i hused
      rw [if_pos hused]
      exact ih (by omega) h
    · rename_i hfree
      rw [if_neg hfree]
      exact h

theorem findRank_isSome_of_card_lt (rankIndex : ℕ) (hcard : alive.card < worldSize) :
    (findRank worldSize alive worldSize rankIndex).isSome = true := by
  have hpos : 0 < worldSize := by omega
  -- Some rank below the world size is free; the search meets it within one round.
  obtain ⟨j, hj, hfree⟩ : ∃ j, j < worldSize ∧ j ∉ alive := by
    by_contra hall
    push Not at hall
    have hsub : Finset.range worldSize ⊆ alive := fun j hj => hall j (Finset.mem_range.mp hj)
    have := Finset.card_le_card hsub
    rw [Finset.card_range] at this
    omega
  refine findRank_isSome (k := (j + (worldSize - rankIndex % worldSize)) % worldSize)
    (Nat.mod_lt _ hpos) ?_
  have hmod : rankIndex % worldSize < worldSize := Nat.mod_lt _ hpos
  rw [Nat.add_mod_mod, ← Nat.mod_add_mod,
    show rankIndex % worldSize + (j + (worldSize - rankIndex % worldSize)) = j + worldSize by omega,
    Nat.add_mod_right, Nat.mod_eq_of_lt hj]
  exact hfree

/-- The key under which the rank of a link is recorded. -/
def rankingKey (key : Key) (linkId : ℕ) : Key := key ++ Decimal.ofNat linkId

end ConfigStore
