/-
The request and link handlers of the configuration store server.

Each handler follows its namesake in `AccStoreServer`, exit by exit, with the
texts of its replies.  The value `none` stands for an execution that leaves
the language's defined behaviour (a read or copy outside a buffer, a division
by zero, a signed overflow, on which a release build aborts), from which there
is no next state; `ReceiveMessageHandler` is `receiveMessage`, and
`requestHandler` is the table `requestHandlers_` behind it.
-/
import MemFabric.Server

namespace ConfigStore

variable {H : Type}

variable (reg : Registered H) (s : Server H) (ctx : ReqCtx)

/-- An exit that answers the requester and nobody else. -/
def answer (ret : ℤ) (code : StoreErrorCode) (message : Bytes) : Answer H :=
  ⟨ret, s, replyWithMessage s ctx code message⟩

/-- An exit through a validation macro: nothing is sent. -/
def silent (ret : ℤ) : Answer H := ⟨ret, s, []⟩

def answerInvalid (text : String) : Answer H :=
  answer s ctx smInvalidParam .invalidMessage (Bytes.ofString text)

def answerFailed : Answer H :=
  answer s ctx StoreErrorCode.error.toInt .error (Bytes.ofString "failed")

/-- The tail shared by the handlers that may create a key: answer the
requester, then the waiters that were taken out. -/
def answerAndWakeup (code : StoreErrorCode) (message : Bytes)
    (waiters : List ReqCtx) (value : Bytes) : Answer H :=
  ⟨smOk, s, replyWithMessage s ctx code message ++ wakeupWaiters s waiters value⟩

theorem answerAndWakeup_nil (s : Server H) (ctx : ReqCtx) (code : StoreErrorCode)
    (message value : Bytes) :
    answerAndWakeup s ctx code message [] value = answer s ctx smOk code message := by
  rw [answerAndWakeup, wakeupWaiters, List.flatMap_nil, List.append_nil, answer]

/-! ### SET and GET -/

/-- `SetHandler` behind its checks. -/
def setKey (key : Key) (value : Bytes) : Option (Answer H) :=
  (executeHandle reg s .set ctx.linkId key value).map fun e =>
  let s := { s with handler := e.2.2 }
  if e.1 ≠ smOk then answerFailed s ctx
  else
    let taken := if s.backend.exist key ≠ .success then s.waiters.takeKeyWaiters key
      else (s.waiters, [])
    let p := s.backend.put key e.2.1
    answerAndWakeup { s with waiters := taken.1, backend := p.2 } ctx p.1
      (Bytes.ofString (if p.1 = .success then "success" else "error")) taken.2 e.2.1

def setHandler (request : SmemMessage) : Option (Answer H) :=
  match request.keys, request.values with
  | [key], [value] =>
    if key.length > maxKeyLenServer then some (silent s StoreErrorCode.invalidKey.toInt)
    else setKey reg s ctx key value
  | _, _ => some (answerInvalid s ctx "invalid request: key value should be one")

/-- `FindOrInsertRank`; `none` if the search for a rank does not end. -/
def findOrInsertRank (mt : MessageType) (key : Key) : Option (Answer H) :=
  let rKey := rankingKey key ctx.linkId
  match s.backend rKey with
  | some oldValue =>
    some (answer s ctx smOk .success (pack { mt := mt, values := [oldValue] }))
  | none =>
    if s.aliveRankSet.card ≥ s.worldSize then
      some (answer s ctx smError .error
        (Bytes.ofString "error: worldSize rankSize bigger than worldSize."))
    else
      (findRank s.worldSize s.aliveRankSet s.worldSize s.rankIndex).map fun rank =>
        let p := s.backend.put rKey (Bytes.le 4 rank)
        answer { s with
          rankIndex := rank
          aliveRankSet := insert rank s.aliveRankSet
          backend := p.2 } ctx smOk p.1 (pack { mt := mt, values := [Bytes.le 4 rank] })

/-- `steady_clock::now() + milliseconds(userDef)`: the clock counts nanoseconds in 64 bits. -/
def deadlineFits (userDef now : ℤ) : Prop :=
  Decimal.InInt64 (userDef * 1000000) ∧ Decimal.InInt64 ((now + userDef) * 1000000)
  deriving Decidable

/-- `GetHandler` behind its checks, for a key outside the ranking keys. -/
def getKey (request : SmemMessage) (key : Key) (now : ℤ) : Option (Answer H) :=
  match s.backend key with
  | some oldValue =>
    some (answer s ctx smOk .success (pack { mt := request.mt, values := [oldValue] }))
  | none =>
    (executeHandle reg s .get ctx.linkId key []).bind fun e =>
    let s := { s with handler := e.2.2 }
    if e.1 = smGetObject then
      some (answer s ctx smOk .restore (pack { mt := request.mt, values := [e.2.1] }))
    else if request.userDef = 0 then
      some (answer s ctx smError .notExist (Bytes.ofString "<not exist>"))
    else if ¬ deadlineFits request.userDef now then none
    else
      some ⟨smOk, { s with waiters := s.waiters.addWaiter ctx key request.userDef now }, []⟩

def getHandler (request : SmemMessage) (now : ℤ) : Option (Answer H) :=
  match request.keys, request.values with
  | [key], [] =>
    if key.length > maxKeyLenServer then some (silent s StoreErrorCode.invalidKey.toInt)
    else if autoRankingStr.isPrefixOf key then findOrInsertRank s ctx request.mt key
    else getKey reg s ctx request key now
  | _, _ => some (answerInvalid s ctx "invalid request: key should be one and no values.")

/-! ### ADD, REMOVE and APPEND -/

/-- The registered handler of ADD is consulted for positive operands only. -/
def executeAdd (linkId : ℕ) (key : Key) (value : Bytes) (valueNum : ℤ) :
    Option (ℤ × Bytes × H) :=
  if valueNum > 0 then executeHandle reg s .add linkId key value
  else some (smOk, value, s.handler)

/-- `AddHandler` once the operand is known to be the canonical text of `valueNum`. -/
def addKey (key : Key) (value : Bytes) (valueNum : ℤ) : Option (Answer H) :=
  (executeAdd reg s ctx.linkId key value valueNum).bind fun e =>
  let s := { s with handler := e.2.2 }
  if e.1 ≠ smOk then some (answerFailed s ctx)
  else
    match s.backend key with
    | none =>
      let taken := s.waiters.takeKeyWaiters key
      let p := s.backend.put key e.2.1
      some (answerAndWakeup { s with waiters := taken.1, backend := p.2 } ctx p.1
        (Decimal.ofInt valueNum) taken.2 e.2.1)
    | some oldValue =>
      match Decimal.string2Int oldValue with
      | none => some (answer s ctx smError .invalidMessage
          (Bytes.ofString "oldValueStr should be a number."))
      | some storedValueNum =>
        let sum := storedValueNum + valueNum
        if storedValueNum = 0 ∧ oldValue ≠ Bytes.ofString "0" then
          some (answer s ctx smError .invalidMessage
            (Bytes.ofString "oldValueStr should be a number."))
        else if ¬ Decimal.InInt64 sum then none
        else
          -- The inner `ret` shadows the outer one, which keeps the code of `Get`.
          let p := s.backend.put key (Decimal.ofInt sum)
          some (answerAndWakeup { s with backend := p.2 } ctx .success (Decimal.ofInt sum) [] [])

def addHandler (request : SmemMessage) : Option (Answer H) :=
  match request.keys, request.values with
  | [key], [value] =>
    if key.length > maxKeyLenServer then some (silent s StoreErrorCode.invalidKey.toInt)
    else
      match Decimal.string2Int value with
      | none => some (silent s smError)
      | some valueNum =>
        if value ≠ Decimal.ofInt valueNum then
          some (answer s ctx smError .invalidMessage
            (Bytes.ofString "invalid request: value should be a number."))
        else addKey reg s ctx key value valueNum
  | _, _ => some (answerInvalid s ctx "invalid request: key value should be one.")

def removeHandler (request : SmemMessage) : Answer H :=
  match request.keys, request.values with
  | [key], [] =>
    if key.length > maxKeyLenServer then silent s StoreErrorCode.invalidKey.toInt
    else if s.backend.exist key = .success then
      answer { s with backend := (s.backend.delete key).2 } ctx smOk .success
        (Bytes.ofString "success")
    else answer s ctx smOk .notExist (Bytes.ofString "not exist")
  | _, _ => answerInvalid s ctx "invalid request: key should be one and no values."

/-- `AppendHandler` behind its checks: the backend is written, and the waiters
are taken out, before the registered handler is asked. -/
def appendKey (key : Key) (value : Bytes) : Option (Answer H) :=
  let r : StoreErrorCode × Server H × ℕ × List ReqCtx :=
    match s.backend key with
    | some oldValue =>
      let p := s.backend.put key (oldValue ++ value)
      (p.1, { s with backend := p.2 }, (oldValue ++ value).length, [])
    | none =>
      let taken := s.waiters.takeKeyWaiters key
      let p := s.backend.put key value
      (p.1, { s with waiters := taken.1, backend := p.2 }, value.length, taken.2)
  (executeHandle reg r.2.1 .append ctx.linkId key value).map fun e =>
  let s := { r.2.1 with handler := e.2.2 }
  if e.1 ≠ smOk then answerFailed s ctx
  else answerAndWakeup s ctx r.1 (Decimal.ofNat r.2.2.1) r.2.2.2 value

def appendHandler (request : SmemMessage) : Option (Answer H) :=
  match request.keys, request.values with
  | [key], [value] =>
    if key.length > maxKeyLenServer then some (silent s StoreErrorCode.invalidKey.toInt)
    else appendKey reg s ctx key value
  | _, _ => some (answerInvalid s ctx "invalid request: key & value should be one.")

/-! ### WRITE and CAS -/

def maxU16Index : ℕ := 65535

def writeOffset (value : Bytes) : ℕ := Bytes.leValue (value.take 4)
def writeData (value : Bytes) : Bytes := value.drop 4

/-- `STORE_VALIDATE_RETURN(offset <= MAX_U16_INDEX * realValSize, ..)`. -/
def writeInRange (value : Bytes) : Prop :=
  writeOffset value ≤ maxU16Index * (writeData value).length % 2 ^ 64
  deriving Decidable

/-- Grow a value to the end of the written range, then copy the data in. -/
def overlay (old : Bytes) (offset : ℕ) (data : Bytes) : Bytes :=
  let cur := old ++ List.replicate (offset + data.length - old.length) 0
  cur.take offset ++ data ++ cur.drop (offset + data.length)

theorem length_overlay (old : Bytes) (offset : ℕ) (data : Bytes) :
    (overlay old offset data).length = max old.length (offset + data.length) := by
  simp only [overlay, List.length_append, List.length_take, List.length_drop, List.length_replicate]
  omega

def writeCreate (b : Backend) (key : Key) (size : ℕ) : StoreErrorCode × Backend :=
  match b key with
  | none => b.put key (List.replicate size 0)
  | some _ => (.success, b)

/-- `WriteHandler` behind its checks; no waiter is looked up. -/
def writeKey (key : Key) (value : Bytes) : Option (Answer H) :=
  let offset := writeOffset value
  let data := writeData value
  let created := writeCreate s.backend key (offset + data.length)
  let s := { s with backend := created.2 }
  if created.1 ≠ .success then some (answerFailed s ctx)
  else
    let curValue := overlay ((s.backend key).getD []) offset data
    (executeHandle reg s .write ctx.linkId key value).map fun e =>
    let s := { s with handler := e.2.2 }
    if e.1 ≠ smOk then answerFailed s ctx
    else
      let p := s.backend.put key curValue
      let s := { s with backend := p.2 }
      if p.1 ≠ .success then answerFailed s ctx
      else answer s ctx smOk .success (Bytes.ofString "success")

/-- `WriteHandler`.  A payload of less than four bytes is read past its end. -/
def writeHandler (request : SmemMessage) : Option (Answer H) :=
  match request.keys, request.values with
  | [key], [value] =>
    if key.length > maxKeyLenServer then some (silent s StoreErrorCode.invalidKey.toInt)
    else if value.length < 4 then none
    else if ¬ writeInRange value then some (silent s StoreErrorCode.invalidKey.toInt)
    else writeKey reg s ctx key value
  | _, _ => some (answerInvalid s ctx "invalid request: key & value should be one.")

/-- `CasHandler` behind its checks. -/
def casKey (mt : MessageType) (key : Key) (expected exchange : Bytes) : Answer H :=
  match s.backend key with
  | some oldValue =>
    let p := if expected = oldValue then s.backend.put key exchange else (.success, s.backend)
    answerAndWakeup { s with backend := p.2 } ctx p.1 (pack { mt := mt, values := [oldValue] })
      [] []
  | none =>
    if expected = [] then
      let p := s.backend.put key exchange
      let taken := s.waiters.takeKeyWaiters key
      answerAndWakeup { s with waiters := taken.1, backend := p.2 } ctx p.1
        (pack { mt := mt, values := [[]] }) taken.2 exchange
    else answerAndWakeup s ctx .success (pack { mt := mt, values := [[]] }) [] []

def casHandler (request : SmemMessage) : Answer H :=
  match request.keys, request.values with
  | [key], [expected, exchange] =>
    if key.length > maxKeyLenServer then silent s StoreErrorCode.invalidKey.toInt
    else casKey s ctx request.mt key expected exchange
  | _, _ => answerInvalid s ctx "invalid request: count(key)=1 & count(value)=2"

/-! ### Rank state watches and heartbeats -/

def watchRankStateHandler (request : SmemMessage) : Answer H :=
  match request.keys with
  | [key] =>
    if key ≠ watchRankDownKey then answerInvalid s ctx "invalid request: key should be"
    else
      let w : StoreWaitContext := ⟨s.waiters.idGen, -1, watchRankDownKey, ctx⟩
      let s := { s with waiters := { s.waiters with idGen := s.waiters.idGen + 1 } }
      if s.rankStateWaiters.any fun p => p.1 = ctx.linkId then silent s smRepeatCall
      else silent { s with rankStateWaiters := s.rankStateWaiters ++ [(ctx.linkId, w)] } smOk
  | _ => answerInvalid s ctx "invalid request: key should be"

def heartbeatHandler (request : SmemMessage) (now : ℤ) : Answer H :=
  if request.keys.length ≠ 0 ∨ request.values.length ≠ 0 then silent s smInvalidParam
  else silent { s with heartBeatMap :=
    s.heartBeatMap.filter (fun p => p.1 ≠ ctx.linkId) ++ [(ctx.linkId, now)] } smOk

/-! ### Dispatch -/

/-- `requestHandlers_`, with the answer to a type it has no handler for. -/
def requestHandler (request : SmemMessage) (now : ℤ) : Option (Answer H) :=
  match request.mt with
  | .set => setHandler reg s ctx request
  | .get => getHandler reg s ctx request now
  | .add => addHandler reg s ctx request
  | .remove => some (removeHandler s ctx request)
  | .append => appendHandler reg s ctx request
  | .cas => some (casHandler s ctx request)
  | .write => writeHandler reg s ctx request
  | .watchRankState => some (watchRankStateHandler s ctx request)
  | .heartbeat => some (heartbeatHandler s ctx request now)
  | .invalidMsg => some (answer s ctx smError .invalidMessage
      (Bytes.ofString "invalid request message type"))

/-- `ReceiveMessageHandler`; the body is `none` where `DataPtr()` is null. -/
def receiveMessage (body : Option Bytes) (now : ℤ) : Option (Answer H) :=
  match body with
  | none => some (answer s ctx smInvalidParam .invalidMessage (Bytes.ofString "request no body"))
  | some data =>
    match unpack data with
    | .error .outOfBounds => none
    | .error .refused =>
      some (answer s ctx smError .invalidMessage (Bytes.ofString "invalid request"))
    | .ok (request, _) => requestHandler reg s ctx request now

/-! ### Links -/

/-- `LinkConnectedHandler`; `rankReq` is `req.rankId`, the world size in the
high and the requested rank in the low 32 bits. -/
def linkConnectedHandler (linkId rankReq : ℕ) : Server H :=
  let worldSize := rankReq / 2 ^ 32 % 2 ^ 32
  let rankId := rankReq % 2 ^ 32
  let s := { s with worldSize := if s.worldSize = uint32Max then worldSize else s.worldSize }
  if rankId ≥ uint32Max then s
  else { s with
    backend := (s.backend.put (rankingKey autoRankingStr linkId) (Bytes.le 4 rankId)).2
    aliveRankSet := insert rankId s.aliveRankSet }

/-- The tail of `LinkBrokenHandler`, after the rank record has been removed. -/
def linkBrokenCleanup (linkId rankId : ℕ) : Server H :=
  let s := { s with heartBeatMap := s.heartBeatMap.filter fun p => p.1 ≠ linkId }
  let s := match reg.broken with
    | some f => { s with handler := (f s.handler linkId s.backend).1
                         backend := (f s.handler linkId s.backend).2 }
    | none =>
      if s.aliveRankSet = ∅ then
        { s with rankIndex := 0, backend := Backend.clear
                 waiters := Waiters.clear s.waiters.idGen
                 rankStateWaiters := [], rankStateTaskQueue := [] }
      else s
  let s := { s with rankStateWaiters := s.rankStateWaiters.filter fun p => p.1 ≠ linkId }
  if rankId = uint32Max then s
  else { s with rankStateTaskQueue := s.rankStateTaskQueue ++ [rankId] }

/-- `LinkBrokenHandler`.  The record is copied into a four-byte buffer, so a
longer one is written past its end. -/
def linkBrokenHandler (linkId : ℕ) : Option (Server H) :=
  let rKey := rankingKey autoRankingStr linkId
  match s.backend rKey with
  | none => some (linkBrokenCleanup reg s linkId uint32Max)
  | some outValue =>
    if outValue.length > 4 then none
    else
      let rankId := Bytes.leValue outValue
      some (linkBrokenCleanup reg { s with
        aliveRankSet := s.aliveRankSet.erase rankId
        backend := (s.backend.delete rKey).2 } linkId rankId)

/-- One round of `RankStateTask`: tell every watcher about the first rank in
the queue. -/
def rankStateTask : Answer H :=
  match s.rankStateTaskQueue with
  | [] => silent s smOk
  | rankId :: rest =>
    { ret := smOk
      server := { s with rankStateTaskQueue := rest }
      replies := s.rankStateWaiters.flatMap fun p => replyWithMessage s p.2.reqCtx .success
        (pack { mt := .watchRankState, values := [Bytes.le 4 rankId] }) }

def heartbeatInterval : ℤ := 2000
def heartbeatTimeout : ℤ := 3

/-- `LinkBrokenHandler(linkId)`, for a link found late by the checker. -/
def linkBrokenInner (linkId : ℕ) : Server H :=
  let s := match reg.broken with
    | some f => { s with handler := (f s.handler linkId s.backend).1
                         backend := (f s.handler linkId s.backend).2 }
    | none => s
  { s with heartBeatMap := s.heartBeatMap.filter fun p => p.1 ≠ linkId }

/-- One pass of `CheckerThreadTask`: links without a heartbeat for too long are
forgotten and reported. -/
def checkerTask (curTime : ℤ) : Server H :=
  let late := fun p : ℕ × ℤ => (curTime - p.2).tdiv heartbeatInterval > heartbeatTimeout
  let brokenLinks := (s.heartBeatMap.filter fun p => late p).map Prod.fst
  brokenLinks.foldl (linkBrokenInner reg)
    { s with heartBeatMap := s.heartBeatMap.filter fun p => ¬ late p }

end ConfigStore
