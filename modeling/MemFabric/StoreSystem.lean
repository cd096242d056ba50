/-
The configuration store server as a transition system.

A step is one critical section under `storeMutex_`: a link that connects or breaks, a request, a
pass of the timer thread, a round of the rank state task or a pass of the heartbeat checker.
Its label carries what the environment chooses (the bytes of a request, the clock, the order in
which a hash table is walked).

`handle_cases` says once what a step is, `requestHandler_cases` where the checks of the handlers
lead, and `requestHandler_exit` what a request can do: `Handled`, `Checked` and `RequestEffect`
have one constructor for each way, and the proofs about whole runs only look at these.
-/
import MemFabric.Handlers
import MemFabric.Transition

namespace ConfigStore

open Option List Function Backend

variable {H : Type}

inductive Event
  | connect (linkId rankReq : ℕ)
  | broken (linkId : ℕ)
  | request (ctx : ReqCtx) (body : Option Bytes) (now : ℤ)
  | timer (now : ℤ) (order : List (ℤ × List ℕ))
  | rankState
  | checker (now : ℤ)

/-- A request as `TcpConfigStore` packs it. -/
def requestOf (uid linkId : ℕ) (op : StoreOp) (now : ℤ) : Event :=
  .request ⟨uid, linkId, 0⟩ (some (pack op.message)) now

/-- One step of the server.  A connecting link has an id no live link has, and a
timer pass walks the table of timed waiters in some order. -/
def Server.handle (reg : Registered H) (s : Server H) : Event → Option (Answer H)
  | .connect linkId rankReq =>
    if linkId ∈ s.established then none
    else some ⟨smOk, linkConnectedHandler
      { s with established := insert linkId s.established } linkId rankReq, []⟩
  | .broken linkId =>
    -- `HandleLinkBroken` closes the link before it calls the handler.
    if linkId ∈ s.established then
      (linkBrokenHandler reg { s with established := s.established.erase linkId } linkId).map
        fun s' => ⟨smOk, s', []⟩
    else none
  | .request ctx body now => receiveMessage reg s ctx body now
  | .timer now order =>
    if order.Perm s.waiters.timedWaiters then some (timerPass s now order) else none
  | .rankState => some (rankStateTask s)
  | .checker now => some ⟨smOk, checkerTask reg s now, []⟩

def storeSystem (reg : Registered H) (worldSize : ℕ) (h : H) :
    TransitionSystem (Server H) Event where
  start := Server.init worldSize h
  next s e := (s.handle reg e).map Answer.server

/-- The message in the body of a request, if it decodes. -/
def decoded (body : Option Bytes) : Option SmemMessage :=
  match body.map unpack with
  | some (.ok (m, _)) => some m
  | _ => none

variable {reg : Registered H} {s : Server H}

variable {a : Answer H}

theorem receiveMessage_cases {ctx : ReqCtx} {body : Option Bytes} {now : ℤ}
    (h : receiveMessage reg s ctx body now = some a) :
    (∃ ret code text, a = answer s ctx ret code text) ∨
      ∃ m, decoded body = some m ∧ requestHandler reg s ctx m now = some a := by
  cases body with
  | none => exact .inl ⟨_, _, _, (some_inj.mp h).symm⟩
  | some data =>
    simp only [receiveMessage] at h
    split at h
    · cases h
    · exact .inl ⟨_, _, _, (some_inj.mp h).symm⟩
    rename_i m n hm
    refine .inr ⟨m, ?_, h⟩
    rw [decoded, map_some, hm]

/-- The steps of the server. -/
inductive Server.Handled (reg : Registered H) (s : Server H) : Event → Answer H → Prop
  | connect (linkId rankReq : ℕ) (hnew : linkId ∉ s.established) :
      s.Handled reg (.connect linkId rankReq) ⟨smOk, linkConnectedHandler
        { s with established := insert linkId s.established } linkId rankReq, []⟩
  | broken (linkId : ℕ) (s' : Server H)
      (hs' : linkBrokenHandler reg { s with established := s.established.erase linkId } linkId =
        some s') :
      s.Handled reg (.broken linkId) ⟨smOk, s', []⟩
  /-- A body that does not decode is answered by `ReceiveMessageHandler` itself. -/
  | undecoded (ctx : ReqCtx) (body : Option Bytes) (now ret : ℤ) (code : StoreErrorCode)
      (text : Bytes) : s.Handled reg (.request ctx body now) (answer s ctx ret code text)
  | request (ctx : ReqCtx) (body : Option Bytes) (now : ℤ) (m : SmemMessage) (a : Answer H)
      (hm : decoded body = some m) (hreq : requestHandler reg s ctx m now = some a) :
      s.Handled reg (.request ctx body now) a
  | timer (now : ℤ) (order : List (ℤ × List ℕ)) :
      s.Handled reg (.timer now order) (timerPass s now order)
  | rankState : s.Handled reg .rankState (rankStateTask s)
  | checker (now : ℤ) : s.Handled reg (.checker now) ⟨smOk, checkerTask reg s now, []⟩

theorem handle_cases {e : Event} (h : s.handle reg e = some a) : s.Handled reg e a := by
  cases e with
  | connect linkId rankReq =>
    obtain ⟨hnew, h⟩ := ite_none_left_eq_some.mp h
    exact some_inj.mp h ▸ .connect linkId rankReq hnew
  | broken linkId =>
    obtain ⟨-, h⟩ := ite_none_right_eq_some.mp h
    obtain ⟨s', hs', rfl⟩ := map_eq_some_iff.mp h
    exact .broken linkId s' hs'
  | request ctx body now =>
    rcases receiveMessage_cases h with ⟨ret, code, text, rfl⟩ | ⟨m, hm, hreq⟩
    · exact .undecoded ctx body now ret code text
    · exact .request ctx body now m a hm hreq
  | timer now order =>
    obtain ⟨-, rfl⟩ := of_guard h
    exact .timer now order
  | rankState => exact some_inj.mp h ▸ .rankState
  | checker now => exact some_inj.mp h ▸ .checker now

theorem rankStateTask_server (s : Server H) :
    (rankStateTask s).server = { s with rankStateTaskQueue := s.rankStateTaskQueue.tail } := by
  obtain ⟨_, _, _, queue, _⟩ := s
  cases queue <;> rfl

variable {code : StoreErrorCode} {message : Bytes}

theorem mem_replyWithMessage {ctx : ReqCtx} {r : Reply}
    (h : r ∈ replyWithMessage s ctx code message) : r = ⟨ctx, code, message⟩ := by
  rw [replyWithMessage] at h
  split at h
  · exact mem_singleton.mp h
  · cases h

/-! ### What a request can do -/

/-- The ways a request changes the server.  `direct` are the replies to the
requester itself; all constructors leave the fields they do not name. -/
inductive RequestEffect (reg : Registered H) (s : Server H) (ctx : ReqCtx) (m : SmemMessage) :
    Answer H → Prop
  /-- No key appears and no table of waiters changes. -/
  | kept (ret : ℤ) (b : Backend) (h : H) (beats : List (ℕ × ℤ)) (direct : List Reply)
      (hb : ∀ k, s.backend k = none → b k = none) (hd : ∀ r ∈ direct, r.ctx = ctx) :
      RequestEffect reg s ctx m
        ⟨ret, { s with backend := b, handler := h, heartBeatMap := beats }, direct⟩
  /-- A rank is assigned and recorded under a ranking key. -/
  | ranked (ret : ℤ) (key : Key) (rank : ℕ) (value : Bytes) (direct : List Reply)
      (hk : autoRankingStr.isPrefixOf key = true) (hd : ∀ r ∈ direct, r.ctx = ctx) :
      RequestEffect reg s ctx m
        ⟨ret, { s with rankIndex := rank, aliveRankSet := insert rank s.aliveRankSet
                       backend := update s.backend key (some value) }, direct⟩
  /-- A WRITE creates its key. -/
  | written (ret : ℤ) (key : Key) (value payload : Bytes) (h : H) (direct : List Reply)
      (hm : m.mt = .write) (hkeys : m.keys = [key]) (hvalues : m.values = [payload])
      (hlen : key.length ≤ maxKeyLenServer) (hsize : 4 ≤ payload.length)
      (hrange : writeInRange payload) (hnone : s.backend key = none)
      (hd : ∀ r ∈ direct, r.ctx = ctx) :
      RequestEffect reg s ctx m
        ⟨ret, { s with backend := update s.backend key (some value), handler := h }, direct⟩
  /-- A key is created and its waiters are taken out and answered. -/
  | woken (ret : ℤ) (key : Key) (value : Bytes) (h : H) (direct : List Reply)
      (hnone : s.backend key = none) (hd : ∀ r ∈ direct, r.ctx = ctx) :
      RequestEffect reg s ctx m
        ⟨ret, { s with backend := update s.backend key (some value), handler := h
                       waiters := (s.waiters.takeKeyWaiters key).1 },
          direct ++ wakeupWaiters s (s.waiters.takeKeyWaiters key).2 value⟩
  /-- An APPEND creates its key and takes the waiters out, but its registered
  handler fails and they are not answered. -/
  | dropped (ret : ℤ) (key : Key) (value : Bytes) (h : H) (direct : List Reply)
      (hm : m.mt = .append) (hkeys : m.keys = [key]) (hvalues : m.values = [value])
      (hlen : key.length ≤ maxKeyLenServer) (hnone : s.backend key = none)
      (hfail : ∃ e, executeHandle reg { s with backend := update s.backend key (some value) }
        .append ctx.linkId key value = some e ∧ e.1 ≠ smOk) (hd : ∀ r ∈ direct, r.ctx = ctx) :
      RequestEffect reg s ctx m
        ⟨ret, { s with backend := update s.backend key (some value), handler := h
                       waiters := (s.waiters.takeKeyWaiters key).1 }, direct⟩
  /-- A GET of an absent key is registered. -/
  | registered (key : Key) (userDef now : ℤ) (h : H)
      (hk : autoRankingStr.isPrefixOf key = false) (hnone : s.backend key = none) :
      RequestEffect reg s ctx m
        ⟨smOk, { s with handler := h, waiters := s.waiters.addWaiter ctx key userDef now }, []⟩
  /-- A rank state watch draws an id and may be entered. -/
  | watched (ret : ℤ) (watchers : List (ℕ × StoreWaitContext))
      (hw : ∀ p ∈ watchers, p ∈ s.rankStateWaiters ∨ p.2.reqCtx = ctx) :
      RequestEffect reg s ctx m
        ⟨ret, { s with waiters := { s.waiters with idGen := s.waiters.idGen + 1 }
                       rankStateWaiters := watchers }, []⟩

/-- Nothing but the values of these keys is different, as far as ranks are concerned. -/
structure Server.SameRecords (s : Server H) (keys : List Key) (s' : Server H) : Prop where
  alive : s'.aliveRankSet = s.aliveRankSet
  world : s'.worldSize = s.worldSize
  backend : ∀ k ∉ keys, s'.backend k = s.backend k

/-- The request of this context is in `waitCtx_`. -/
def Waiters.Waits (t : Waiters) (ctx : ReqCtx) : Prop :=
  ∃ id w, t.waitCtx id = some w ∧ w.reqCtx = ctx

/-- A reply to the requester, then replies to waiters that were taken out. -/
def RepliesOnce (s : Server H) (ctx : ReqCtx) (a : Answer H) : Prop :=
  ∃ code message woken, a.replies = replyWithMessage s ctx code message ++ woken ∧
    (∀ r ∈ woken, s.waiters.Waits r.ctx) ∧
    ∀ id w, a.server.waiters.waitCtx id = some w → s.waiters.waitCtx id = some w

def IsStoreRequest (mt : MessageType) : Prop :=
  mt = .set ∨ mt = .get ∨ mt = .add ∨ mt = .remove ∨ mt = .append ∨ mt = .cas ∨ mt = .write

/-- An ADD whose operand does not parse as a number, or a WRITE without an offset
or with one that is out of range. -/
def Unanswerable (m : SmemMessage) : Prop :=
  ∃ key value, m.keys = [key] ∧ m.values = [value] ∧
    ((m.mt = .add ∧ Decimal.string2Int value = none) ∨
      (m.mt = .write ∧ (value.length < 4 ∨ ¬ writeInRange value)))

/-- What the handler of an APPEND is shown: the value is there already. -/
def Server.extended (s : Server H) (key : Key) (value : Bytes) : Server H :=
  { s with backend := update s.backend key (some ((s.backend key).getD [] ++ value)) }

/-- What the handler of a WRITE is shown: the key is there already. -/
def Server.created (s : Server H) (key : Key) (value : Bytes) : Server H :=
  { s with backend :=
      (writeCreate s.backend key (writeOffset value + (writeData value).length)).2 }

/-- The handler of an ADD does not return, or the sum is no 64-bit integer. -/
def AddUndefined (reg : Registered H) (s : Server H) (ctx : ReqCtx) (key : Key) (value : Bytes)
    (valueNum : ℤ) : Prop :=
  executeAdd reg s ctx.linkId key value valueNum = none ∨
    ∃ e, executeAdd reg s ctx.linkId key value valueNum = some e ∧ e.1 = smOk ∧
      ∃ old, s.backend key = some old ∧ ∃ stored, Decimal.string2Int old = some stored ∧
        ¬ (stored = 0 ∧ old ≠ Bytes.ofString "0") ∧ ¬ Decimal.InInt64 (stored + valueNum)

/-- The handler of a GET does not return, or the deadline of one that waits does not fit. -/
def GetUndefined (reg : Registered H) (s : Server H) (ctx : ReqCtx) (key : Key)
    (userDef now : ℤ) : Prop :=
  executeHandle reg s .get ctx.linkId key [] = none ∨
    ∃ e, executeHandle reg s .get ctx.linkId key [] = some e ∧ e.1 ≠ smGetObject ∧
      userDef ≠ 0 ∧ ¬ deadlineFits userDef now

/-- The handler that the request makes the server call does not return, or what an ADD or a GET
computes overflows. -/
def Undefined (reg : Registered H) (s : Server H) (ctx : ReqCtx) (m : SmemMessage) (now : ℤ) :
    Prop :=
  match m.mt, m.keys, m.values with
  | .set, [key], [value] => executeHandle reg s .set ctx.linkId key value = none
  | .get, [key], [] => autoRankingStr.isPrefixOf key = false ∧ s.backend key = none ∧
      GetUndefined reg s ctx key m.userDef now
  | .add, [key], [value] => ∃ valueNum, Decimal.string2Int value = some valueNum ∧
      value = Decimal.ofInt valueNum ∧ AddUndefined reg s ctx key value valueNum
  | .append, [key], [value] =>
    executeHandle reg (s.extended key value) .append ctx.linkId key value = none
  | .write, [key], [value] => 4 ≤ value.length ∧ writeInRange value ∧
      executeHandle reg (s.created key value) .write ctx.linkId key value = none
  | _, _, _ => False

/-- A request with one key that is not too long. -/
structure SmemMessage.Asks (m : SmemMessage) (mt : MessageType) (key : Key) (values : List Bytes) :
    Prop where
  mt : m.mt = mt
  keys : m.keys = [key]
  values : m.values = values
  length : key.length ≤ maxKeyLenServer

/-- Where the checks of the handlers lead. -/
inductive Checked (reg : Registered H) (s : Server H) (ctx : ReqCtx) (m : SmemMessage) (now : ℤ) :
    Answer H → Prop
  | refused (ret : ℤ) (code : StoreErrorCode) (message : Bytes) :
      Checked reg s ctx m now (answer s ctx ret code message)
  | silent (ret : ℤ) (h : IsStoreRequest m.mt →
      (∀ key ∈ m.keys, key.length ≤ maxKeyLenServer) → Unanswerable m) :
      Checked reg s ctx m now (silent s ret)
  | set {key value a} (h : m.Asks .set key [value]) (ha : setKey reg s ctx key value = some a) :
      Checked reg s ctx m now a
  | rank {key a} (h : m.Asks .get key []) (hk : autoRankingStr.isPrefixOf key = true)
      (ha : findOrInsertRank s ctx m.mt key = some a) : Checked reg s ctx m now a
  | get {key a} (h : m.Asks .get key []) (hk : ¬ autoRankingStr.isPrefixOf key = true)
      (ha : getKey reg s ctx m key now = some a) : Checked reg s ctx m now a
  | add {key value valueNum a} (h : m.Asks .add key [value])
      (ha : addKey reg s ctx key value valueNum = some a) : Checked reg s ctx m now a
  | remove {key} (h : m.Asks .remove key []) : Checked reg s ctx m now
      (answer { s with backend := (s.backend.delete key).2 } ctx smOk .success
        (Bytes.ofString "success"))
  | append {key value a} (h : m.Asks .append key [value])
      (ha : appendKey reg s ctx key value = some a) : Checked reg s ctx m now a
  | cas {key expected exchange} (h : m.Asks .cas key [expected, exchange]) :
      Checked reg s ctx m now (casKey s ctx m.mt key expected exchange)
  | write {key value a} (h : m.Asks .write key [value]) (hsize : 4 ≤ value.length)
      (hrange : writeInRange value) (ha : writeKey reg s ctx key value = some a) :
      Checked reg s ctx m now a
  | watch (hm : m.mt = .watchRankState) : Checked reg s ctx m now (watchRankStateHandler s ctx m)
  | heartbeat (hm : m.mt = .heartbeat) : Checked reg s ctx m now (heartbeatHandler s ctx m now)

theorem Checked.long {ctx : ReqCtx} {m : SmemMessage} {now : ℤ} {key : Key} (ret : ℤ)
    (hkeys : m.keys = [key]) (hlong : key.length > maxKeyLenServer) :
    Checked reg s ctx m now (ConfigStore.silent s ret) :=
  .silent ret fun _ h => absurd (h key (hkeys ▸ mem_singleton_self key)) (not_le.mpr hlong)

theorem requestHandler_cases {ctx : ReqCtx} {m : SmemMessage} {now : ℤ}
    (h : requestHandler reg s ctx m now = some a) : Checked reg s ctx m now a := by
  rw [requestHandler] at h
  cases hm : m.mt with
  | set =>
    rw [hm] at h
    change setHandler reg s ctx m = some a at h
    rw [setHandler] at h
    split at h
    on_goal 2 => exact some_inj.mp h ▸ .refused ..
    split at h
    · exact some_inj.mp h ▸ .long _ ‹_› ‹_›
    · exact .set ⟨hm, ‹_›, ‹_›, not_lt.mp ‹_›⟩ h
  | get =>
    rw [hm] at h
    change getHandler reg s ctx m now = some a at h
    rw [getHandler] at h
    split at h
    on_goal 2 => exact some_inj.mp h ▸ .refused ..
    split at h
    · exact some_inj.mp h ▸ .long _ ‹_› ‹_›
    split at h
    · exact .rank ⟨hm, ‹_›, ‹_›, not_lt.mp ‹_›⟩ ‹_› h
    · exact .get ⟨hm, ‹_›, ‹_›, not_lt.mp ‹_›⟩ ‹_› h
  | add =>
    rw [hm] at h
    change addHandler reg s ctx m = some a at h
    rw [addHandler] at h
    split at h
    on_goal 2 => exact some_inj.mp h ▸ .refused ..
    rename_i key value hkeys hvalues
    split at h
    · exact some_inj.mp h ▸ .long _ hkeys ‹_›
    split at h
    · exact some_inj.mp h ▸ .silent _ fun _ _ => ⟨key, value, hkeys, hvalues, .inl ⟨hm, ‹_›⟩⟩
    split at h
    · exact some_inj.mp h ▸ .refused ..
    · exact .add ⟨hm, hkeys, hvalues, not_lt.mp ‹_›⟩ h
  | remove =>
    rw [hm, some_inj, removeHandler] at h
    split at h
    on_goal 2 => exact h ▸ .refused ..
    split at h
    · exact h ▸ .long _ ‹_› ‹_›
    split at h
    · exact h ▸ .remove ⟨hm, ‹_›, ‹_›, not_lt.mp ‹_›⟩
    · exact h ▸ .refused ..
  | append =>
    rw [hm] at h
    change appendHandler reg s ctx m = some a at h
    rw [appendHandler] at h
    split at h
    on_goal 2 => exact some_inj.mp h ▸ .refused ..
    split at h
    · exact some_inj.mp h ▸ .long _ ‹_› ‹_›
    · exact .append ⟨hm, ‹_›, ‹_›, not_lt.mp ‹_›⟩ h
  | cas =>
    rw [hm, some_inj, casHandler] at h
    split at h
    on_goal 2 => exact h ▸ .refused ..
    split at h
    · exact h ▸ .long _ ‹_› ‹_›
    · exact h ▸ .cas ⟨hm, ‹_›, ‹_›, not_lt.mp ‹_›⟩
  | write =>
    rw [hm] at h
    change writeHandler reg s ctx m = some a at h
    rw [writeHandler] at h
    split at h
    on_goal 2 => exact some_inj.mp h ▸ .refused ..
    rename_i key value hkeys hvalues
    split at h
    · exact some_inj.mp h ▸ .long _ hkeys ‹_›
    obtain ⟨hsize, h⟩ := ite_none_left_eq_some.mp h
    split at h
    · exact some_inj.mp h ▸ .silent _ fun _ _ =>
        ⟨key, value, hkeys, hvalues, .inr ⟨hm, .inr ‹_›⟩⟩
    · exact .write ⟨hm, hkeys, hvalues, not_lt.mp ‹_›⟩ (not_lt.mp hsize) (not_not.mp ‹_›) h
  | watchRankState =>
    rw [hm, some_inj] at h
    exact h ▸ .watch hm
  | heartbeat =>
    rw [hm, some_inj] at h
    exact h ▸ .heartbeat hm
  | invalidMsg =>
    rw [hm, some_inj] at h
    exact h ▸ .refused ..

/-- An exit of a handler: what it does to the server, to the record of ranks, unless a key
is a ranking key, and for a requester whose message could be packed. -/
structure Exit (reg : Registered H) (s : Server H) (ctx : ReqCtx) (m : SmemMessage) (now : ℤ)
    (a : Answer H) : Prop where
  effect : RequestEffect reg s ctx m a
  records : (∀ key ∈ m.keys, autoRankingStr.isPrefixOf key = false) → s.SameRecords m.keys a.server
  replies : IsStoreRequest m.mt → (∀ key ∈ m.keys, key.length ≤ maxKeyLenServer) →
    ¬ Unanswerable m → RepliesOnce s ctx a ∨ (m.mt = .get ∧ a.replies = [] ∧
      ∃ key userDef, a.server.waiters = s.waiters.addWaiter ctx key userDef now)

section Exits

variable {reg : Registered H} {s : Server H} {ctx : ReqCtx} {m : SmemMessage} {now : ℤ}

theorem Server.SameRecords.refl (s : Server H) (keys : List Key) : s.SameRecords keys s :=
  ⟨rfl, rfl, fun _ _ => rfl⟩

theorem Server.SameRecords.write {s' : Server H} {key : Key} {value : Option Bytes}
    (hkeys : m.keys = [key]) (halive : s'.aliveRankSet = s.aliveRankSet)
    (hworld : s'.worldSize = s.worldSize)
    (hback : s'.backend = update s.backend key value) : s.SameRecords m.keys s' := by
  refine ⟨halive, hworld, fun k hk => ?_⟩
  rw [hkeys] at hk
  rw [hback, update_of_ne (by simpa using hk)]

theorem ctx_of_mem_replyWithMessage : ∀ r ∈ replyWithMessage s ctx code message, r.ctx = ctx := by
  intro r hr
  rw [mem_replyWithMessage hr]

theorem repliesOnce_direct (hreply : a.replies = replyWithMessage s ctx code message)
    (hwait : ∀ id w, a.server.waiters.waitCtx id = some w → s.waiters.waitCtx id = some w) :
    RepliesOnce s ctx a :=
  ⟨code, message, [], by rw [hreply, append_nil], nofun, hwait⟩

variable {ret : ℤ} {h : H} {code : StoreErrorCode} {message value : Bytes}

theorem exit_answer :
    Exit reg s ctx m now (answer { s with handler := h } ctx ret code message) where
  effect := .kept ret s.backend h s.heartBeatMap _ (fun _ hk => hk) ctx_of_mem_replyWithMessage
  records _ := ⟨rfl, rfl, fun _ _ => rfl⟩
  replies _ _ _ := .inl (repliesOnce_direct rfl fun _ _ hw => hw)

theorem exit_silent (ret : ℤ) (h : IsStoreRequest m.mt →
    (∀ key ∈ m.keys, key.length ≤ maxKeyLenServer) → Unanswerable m) :
    Exit reg s ctx m now (silent s ret) where
  effect := .kept ret s.backend s.handler s.heartBeatMap [] (fun _ hk => hk) nofun
  records _ := .refl s _
  replies hmt hkeys hok := absurd (h hmt hkeys) hok

variable {key : Key} {a : Answer H}

theorem update_eq_none_of_present {b : Backend} {old value : Bytes} (h : b key = some old) (k : Key)
    (hk : b k = none) : update b key (some value) k = none := by
  have hne : k ≠ key := by
    rintro rfl
    rw [h] at hk
    cases hk
  rw [update_of_ne hne]
  exact hk

theorem exit_replaced {old : Bytes} (hkeys : m.keys = [key]) (hk : s.backend key = some old) :
    Exit reg s ctx m now
      ⟨ret, { s with backend := update s.backend key (some value), handler := h },
        replyWithMessage s ctx code message⟩ where
  effect := .kept ret _ h s.heartBeatMap _ (update_eq_none_of_present hk)
    ctx_of_mem_replyWithMessage
  records _ := .write hkeys rfl rfl rfl
  replies _ _ _ := .inl (repliesOnce_direct rfl fun _ _ hw => hw)

theorem exit_woken (hkeys : m.keys = [key]) (hnone : s.backend key = none) :
    Exit reg s ctx m now
      ⟨ret, { s with backend := update s.backend key (some value), handler := h
                     waiters := (s.waiters.takeKeyWaiters key).1 },
        replyWithMessage s ctx code message ++
          wakeupWaiters s (s.waiters.takeKeyWaiters key).2 value⟩ where
  effect := .woken ret key value h _ hnone ctx_of_mem_replyWithMessage
  records _ := .write hkeys rfl rfl rfl
  replies _ _ _ := by
    refine .inl ⟨code, message, _, rfl, fun r hr => ?_,
      fun _ _ => Waiters.waitCtx_of_takeKeyWaiters⟩
    obtain ⟨ctx', hctx', hr⟩ := mem_flatMap.mp hr
    obtain ⟨id, -, w, hw, hc⟩ := (Waiters.mem_takeKeyWaiters _ _ _).mp hctx'
    rw [mem_replyWithMessage hr]
    exact ⟨id, w, hw, hc⟩

theorem setKey_exit (hkeys : m.keys = [key]) {value : Bytes}
    (h : setKey reg s ctx key value = some a) : Exit reg s ctx m now a := by
  obtain ⟨e, -, rfl⟩ := map_eq_some_iff.mp h
  dsimp only
  split
  · exact exit_answer
  by_cases hkey : s.backend key = none
  · have hexist : s.backend.exist key ≠ .success := by simp [exist, hkey]
    simp only [if_pos hexist]
    exact exit_woken hkeys hkey
  obtain ⟨old, hold⟩ := ne_none_iff_exists'.mp hkey
  have hexist : ¬ s.backend.exist key ≠ .success := by simp [exist, hold]
  simp only [if_neg hexist, answerAndWakeup_nil]
  exact exit_replaced hkeys hold

theorem isPrefixOf_append {p : Key} (h : p.isPrefixOf key = true) (rest : Bytes) :
    p.isPrefixOf (key ++ rest) = true := by
  rw [List.isPrefixOf_iff_prefix] at h ⊢
  exact h.trans (prefix_append key rest)

theorem findOrInsertRank_exit {mt : MessageType} (hkeys : m.keys = [key])
    (hk : autoRankingStr.isPrefixOf key = true) (h : findOrInsertRank s ctx mt key = some a) :
    Exit reg s ctx m now a := by
  rw [findOrInsertRank] at h
  split at h
  · rw [← some_inj.mp h]
    exact exit_answer
  split at h
  · rw [← some_inj.mp h]
    exact exit_answer
  obtain ⟨rank, -, rfl⟩ := map_eq_some_iff.mp h
  refine ⟨.ranked _ _ rank _ _ (isPrefixOf_append hk _) ctx_of_mem_replyWithMessage,
    fun hrank => ?_, fun _ _ _ => .inl (repliesOnce_direct rfl fun _ _ hw => hw)⟩
  rw [hrank key (hkeys ▸ mem_singleton_self key)] at hk
  cases hk

theorem getKey_exit (hm : m.mt = .get) (hk : ¬ autoRankingStr.isPrefixOf key = true)
    (h : getKey reg s ctx m key now = some a) : Exit reg s ctx m now a := by
  rw [getKey] at h
  split at h
  · rw [← some_inj.mp h]
    exact exit_answer
  rename_i hnone
  obtain ⟨e, -, h⟩ := bind_eq_some_iff.mp h
  dsimp only at h
  split at h
  · rw [← some_inj.mp h]
    exact exit_answer
  split at h
  · rw [← some_inj.mp h]
    exact exit_answer
  · rw [← some_inj.mp (ite_none_left_eq_some.mp h).2]
    exact ⟨.registered key _ now _ (Bool.eq_false_iff.mpr hk) hnone,
      fun _ => ⟨rfl, rfl, fun _ _ => rfl⟩, fun _ _ _ => .inr ⟨hm, rfl, key, _, rfl⟩⟩

theorem addKey_exit (hkeys : m.keys = [key]) {value : Bytes} {valueNum : ℤ}
    (h : addKey reg s ctx key value valueNum = some a) : Exit reg s ctx m now a := by
  obtain ⟨e, -, h⟩ := bind_eq_some_iff.mp h
  dsimp only at h
  split at h
  · rw [← some_inj.mp h]
    exact exit_answer
  split at h
  · rename_i hnone
    rw [← some_inj.mp h]
    exact exit_woken hkeys hnone
  rename_i old hold
  split at h
  · rw [← some_inj.mp h]
    exact exit_answer
  split at h
  · rw [← some_inj.mp h]
    exact exit_answer
  · obtain ⟨-, h⟩ := ite_none_left_eq_some.mp h
    rw [← some_inj.mp h, answerAndWakeup_nil]
    exact exit_replaced hkeys hold

theorem delete_exit (hkeys : m.keys = [key]) (ret : ℤ) (code : StoreErrorCode)
    (message : Bytes) : Exit reg s ctx m now
      (answer { s with backend := (s.backend.delete key).2 } ctx ret code message) := by
  refine ⟨.kept _ _ s.handler s.heartBeatMap _ (fun k hk => ?_) ctx_of_mem_replyWithMessage,
    fun _ => .write hkeys rfl rfl rfl,
    fun _ _ _ => .inl (repliesOnce_direct rfl fun _ _ hw => hw)⟩
  by_cases hne : k = key
  · rw [hne, delete_snd, update_self]
  · rw [delete_snd, update_of_ne hne]
    exact hk

theorem appendKey_exit {value : Bytes} (h : m.Asks .append key [value])
    (ha : appendKey reg s ctx key value = some a) : Exit reg s ctx m now a := by
  rw [appendKey] at ha
  obtain ⟨e, he, rfl⟩ := map_eq_some_iff.mp ha
  cases hkey : s.backend key with
  | some old =>
    dsimp only
    split
    · exact exit_replaced h.keys hkey
    · rw [answerAndWakeup_nil]
      exact exit_replaced h.keys hkey
  | none =>
    rw [hkey] at he
    dsimp only
    split
    · -- The waiters are gone and get nothing, but the requester does.
      rename_i hfail
      exact ⟨.dropped _ key value _ _ h.mt h.keys h.values h.length hkey ⟨e, he, hfail⟩
        ctx_of_mem_replyWithMessage, fun _ => .write h.keys rfl rfl rfl, fun _ _ _ =>
        .inl (repliesOnce_direct rfl fun _ _ => Waiters.waitCtx_of_takeKeyWaiters)⟩
    · exact exit_woken h.keys hkey

theorem writeKey_exit {value : Bytes} (h : m.Asks .write key [value]) (hsize : 4 ≤ value.length)
    (hrange : writeInRange value) (ha : writeKey reg s ctx key value = some a) :
    Exit reg s ctx m now a := by
  rw [writeKey] at ha
  cases hkey : s.backend key with
  | some old =>
    simp only [writeCreate, hkey, ne_eq, not_true_eq_false, if_false, put_fst] at ha
    obtain ⟨e, -, rfl⟩ := map_eq_some_iff.mp ha
    split
    · exact exit_answer
    · exact exit_replaced h.keys hkey
  | none =>
    simp only [writeCreate, hkey, ne_eq, not_true_eq_false, if_false, put_fst, put_snd,
      update_idem] at ha
    obtain ⟨e, -, rfl⟩ := map_eq_some_iff.mp ha
    split
    all_goals exact ⟨.written _ key _ value _ _ h.mt h.keys h.values h.length hsize hrange hkey
      ctx_of_mem_replyWithMessage, fun _ => .write h.keys rfl rfl rfl,
      fun _ _ _ => .inl (repliesOnce_direct rfl fun _ _ hw => hw)⟩

theorem casKey_exit (hkeys : m.keys = [key]) (mt : MessageType) (expected exchange : Bytes) :
    Exit reg s ctx m now (casKey s ctx mt key expected exchange) := by
  rw [casKey]
  split
  · rename_i old hold
    simp only [answerAndWakeup_nil]
    by_cases heq : expected = old
    · simp only [if_pos heq]
      exact exit_replaced hkeys hold
    · simp only [if_neg heq]
      exact exit_answer
  rename_i hnone
  split
  · exact exit_woken hkeys hnone
  · rw [answerAndWakeup_nil]
    exact exit_answer

theorem not_isStoreRequest {mt : MessageType} (h : mt = .watchRankState ∨ mt = .heartbeat) :
    ¬ IsStoreRequest mt := by
  rcases h with rfl | rfl
  · simp [IsStoreRequest]
  · simp [IsStoreRequest]

theorem watchRankStateHandler_exit (hm : m.mt = .watchRankState) :
    Exit reg s ctx m now (watchRankStateHandler s ctx m) := by
  have hreply := not_isStoreRequest (.inl hm)
  rw [watchRankStateHandler]
  split
  · split
    · exact exit_answer
    simp only
    split
    · exact ⟨.watched _ _ fun p hp => .inl hp, fun _ => ⟨rfl, rfl, fun _ _ => rfl⟩,
        fun h => absurd h hreply⟩
    refine ⟨.watched _ _ fun p hp => ?_, fun _ => ⟨rfl, rfl, fun _ _ => rfl⟩,
      fun h => absurd h hreply⟩
    rcases mem_append.mp hp with hp | hp
    · exact .inl hp
    · rw [mem_singleton.mp hp]
      exact .inr rfl
  · exact exit_answer

theorem heartbeatHandler_exit (hm : m.mt = .heartbeat) :
    Exit reg s ctx m now (heartbeatHandler s ctx m now) := by
  have hreply := not_isStoreRequest (.inr hm)
  rw [heartbeatHandler]
  split
  · exact exit_silent _ fun h => absurd h hreply
  · exact ⟨.kept _ _ _ _ [] (fun _ hk => hk) nofun, fun _ => ⟨rfl, rfl, fun _ _ => rfl⟩,
      fun h => absurd h hreply⟩

theorem requestHandler_exit (h : requestHandler reg s ctx m now = some a) :
    Exit reg s ctx m now a := by
  cases requestHandler_cases h with
  | refused => exact exit_answer
  | silent ret hbad => exact exit_silent ret hbad
  | set hq ha => exact setKey_exit hq.keys ha
  | rank hq hk ha => exact findOrInsertRank_exit hq.keys hk ha
  | get hq hk ha => exact getKey_exit hq.mt hk ha
  | add hq ha => exact addKey_exit hq.keys ha
  | remove hq => exact delete_exit hq.keys _ _ _
  | append hq ha => exact appendKey_exit hq ha
  | cas hq => exact casKey_exit hq.keys _ _ _
  | write hq hsize hrange ha => exact writeKey_exit hq hsize hrange ha
  | watch hm => exact watchRankStateHandler_exit hm
  | heartbeat hm => exact heartbeatHandler_exit hm

theorem findOrInsertRank_ne_none (s : Server H) (ctx : ReqCtx) (mt : MessageType) (key : Key) :
    findOrInsertRank s ctx mt key ≠ none := by
  rw [findOrInsertRank]
  split
  · nofun
  split
  · nofun
  rename_i hcard
  rw [ne_eq, map_eq_none_iff, ← not_isSome_iff_eq_none, not_not]
  exact findRank_isSome_of_card_lt s.rankIndex (not_le.mp hcard)

theorem getKey_eq_none_iff : getKey reg s ctx m key now = none ↔
    s.backend key = none ∧ GetUndefined reg s ctx key m.userDef now := by
  constructor
  · intro h
    rw [getKey] at h
    split at h
    · cases h
    rename_i hnone
    refine ⟨hnone, ?_⟩
    cases he : executeHandle reg s .get ctx.linkId key [] with
    | none => exact .inl he
    | some e =>
    have h := bind_eq_none_iff.mp h e he
    dsimp only at h
    split at h
    · cases h
    rename_i hobject
    split at h
    · cases h
    rename_i hwait
    split at h
    · rename_i hfits
      exact .inr ⟨e, he, hobject, hwait, hfits⟩
    · cases h
  · rintro ⟨hnone, hexec | ⟨e, he, hobject, hwait, hfits⟩⟩
    · rw [getKey, hnone, hexec]
      rfl
    · simp only [getKey, hnone, he, bind_some, if_neg hobject, if_neg hwait, if_pos hfits]

theorem addKey_eq_none_iff {value : Bytes} {valueNum : ℤ} :
    addKey reg s ctx key value valueNum = none ↔ AddUndefined reg s ctx key value valueNum := by
  constructor
  · intro h
    rw [addKey, bind_eq_none_iff] at h
    cases he : executeAdd reg s ctx.linkId key value valueNum with
    | none => exact .inl he
    | some e =>
    have h := h e he
    dsimp only at h
    split at h
    · cases h
    rename_i hok
    split at h
    · cases h
    rename_i old hold
    split at h
    · cases h
    rename_i stored hread
    split at h
    · cases h
    rename_i hnum
    split at h
    · rename_i hover
      exact .inr ⟨e, he, not_not.mp hok, old, hold, stored, hread, hnum, hover⟩
    · cases h
  · rintro (hnone | ⟨e, he, hok, old, hold, stored, hread, hnum, hover⟩)
    · rw [addKey, hnone, bind_none]
    · simp only [addKey, he, bind_some, hok, ne_eq, not_true_eq_false, if_false, hold, hread,
        if_neg hnum, if_pos hover]

theorem appendKey_eq_none_iff {value : Bytes} : appendKey reg s ctx key value = none ↔
    executeHandle reg (s.extended key value) .append ctx.linkId key value = none := by
  rw [appendKey, Server.extended]
  cases s.backend key with
  | none | some old => rw [map_eq_none_iff]; rfl

theorem writeKey_eq_none_iff {value : Bytes} : writeKey reg s ctx key value = none ↔
    executeHandle reg (s.created key value) .write ctx.linkId key value = none := by
  have hcreate : (writeCreate s.backend key (writeOffset value + (writeData value).length)).1 =
      .success := by
    rw [writeCreate]
    split
    · rfl
    · rfl
  rw [writeKey, if_neg (not_not.mpr hcreate), map_eq_none_iff]
  rfl

/-- A request whose execution is not defined: a WRITE that is read past its end, or what
`Undefined` says. -/
theorem requestHandler_eq_none (h : requestHandler reg s ctx m now = none) :
    (∃ key value, m.Asks .write key [value] ∧ value.length < 4) ∨ Undefined reg s ctx m now := by
  rw [requestHandler] at h
  split at h
  case h_1 hmt =>
    rw [setHandler] at h
    split at h
    · rename_i hkeys hvalues
      split at h
      · cases h
      right
      simp only [Undefined, hmt, hkeys, hvalues]
      exact map_eq_none_iff.mp h
    · cases h
  case h_2 hmt =>
    rw [getHandler] at h
    split at h
    · rename_i hkeys hvalues
      split at h
      · cases h
      split at h
      · exact absurd h (findOrInsertRank_ne_none s ctx m.mt _)
      rename_i hrank
      right
      simp only [Undefined, hmt, hkeys, hvalues]
      exact ⟨eq_false_of_ne_true hrank, getKey_eq_none_iff.mp h⟩
    · cases h
  case h_3 hmt =>
    rw [addHandler] at h
    split at h
    · rename_i hkeys hvalues
      split at h
      · cases h
      split at h
      · cases h
      rename_i valueNum hread
      split at h
      · cases h
      rename_i htext
      right
      simp only [Undefined, hmt, hkeys, hvalues]
      exact ⟨valueNum, hread, not_not.mp htext, addKey_eq_none_iff.mp h⟩
    · cases h
  case h_5 hmt =>
    rw [appendHandler] at h
    split at h
    · rename_i hkeys hvalues
      split at h
      · cases h
      right
      simp only [Undefined, hmt, hkeys, hvalues]
      exact appendKey_eq_none_iff.mp h
    · cases h
  case h_7 hmt =>
    rw [writeHandler] at h
    split at h
    · rename_i key value hkeys hvalues
      split at h
      · cases h
      rename_i hlen
      split at h
      · exact .inl ⟨key, value, ⟨hmt, hkeys, hvalues, not_lt.mp hlen⟩, ‹_›⟩
      rename_i hsize
      split at h
      · cases h
      rename_i hrange
      right
      simp only [Undefined, hmt, hkeys, hvalues]
      exact ⟨not_lt.mp hsize, not_not.mp hrange, writeKey_eq_none_iff.mp h⟩
    · cases h
  all_goals exact nomatch h

end Exits

/-! ### What a broken link can do -/

section Broken

variable {reg : Registered H} {s : Server H} {linkId rankId : ℕ}

theorem linkBrokenCleanup_waiters :
    (linkBrokenCleanup reg s linkId rankId).waiters =
      if reg.broken = none ∧ s.aliveRankSet = ∅ then Waiters.clear s.waiters.idGen
      else s.waiters := by
  rw [linkBrokenCleanup]
  cases reg.broken with
  | some f => simp only [reduceCtorEq, false_and, if_false]; split <;> rfl
  | none =>
    by_cases hempty : s.aliveRankSet = ∅
    · simp only [hempty, and_self, if_true]; split <;> rfl
    · simp only [hempty, and_false, if_false]; split <;> rfl

theorem linkBrokenCleanup_backend (hreg : reg.broken = none) :
    (linkBrokenCleanup reg s linkId rankId).backend =
      if s.aliveRankSet = ∅ then Backend.clear else s.backend := by
  rw [linkBrokenCleanup]
  simp only [hreg]
  split <;> split <;> rfl

@[simp] theorem linkBrokenCleanup_frame :
    (linkBrokenCleanup reg s linkId rankId).established = s.established ∧
      (linkBrokenCleanup reg s linkId rankId).aliveRankSet = s.aliveRankSet ∧
      (linkBrokenCleanup reg s linkId rankId).worldSize = s.worldSize := by
  rw [linkBrokenCleanup]
  cases reg.broken with
  | some f => simp only; split <;> exact ⟨rfl, rfl, rfl⟩
  | none => simp only; split <;> split <;> exact ⟨rfl, rfl, rfl⟩

theorem linkBrokenCleanup_rankStateWaiters {p : ℕ × StoreWaitContext}
    (h : p ∈ (linkBrokenCleanup reg s linkId rankId).rankStateWaiters) :
    p ∈ s.rankStateWaiters := by
  have hsub : ∀ {s₁ : Server H}, (∀ q ∈ s₁.rankStateWaiters, q ∈ s.rankStateWaiters) →
      p ∈ s₁.rankStateWaiters.filter (fun q => q.1 ≠ linkId) → p ∈ s.rankStateWaiters :=
    fun hs₁ hp => hs₁ p (mem_filter.mp hp).1
  rw [linkBrokenCleanup] at h
  cases hreg : reg.broken with
  | some f =>
    simp only [hreg] at h
    split at h
    · exact hsub (fun _ hq => hq) h
    · exact hsub (fun _ hq => hq) h
  | none =>
    simp only [hreg] at h
    by_cases hempty : s.aliveRankSet = ∅
    · simp only [hempty, if_true, filter_nil] at h
      split at h
      · cases h
      · cases h
    split at h
    · exact hsub (fun _ hq => hq) h
    · exact hsub (fun _ hq => hq) h

end Broken

/-- The checker touches the heartbeats, and through a registered handler the
backend, and nothing else. -/
theorem checkerTask_frame (reg : Registered H) (s : Server H) (now : ℤ) :
    ∃ b h beats, checkerTask reg s now = { s with backend := b, handler := h, heartBeatMap := beats } ∧
      (reg.broken = none → b = s.backend) := by
  have hfold : ∀ (links : List ℕ) (s : Server H), ∃ b h beats, links.foldl (linkBrokenInner reg) s =
          { s with backend := b, handler := h, heartBeatMap := beats } ∧
        (reg.broken = none → b = s.backend) := by
    intro links
    induction links with
    | nil => exact fun s => ⟨s.backend, s.handler, s.heartBeatMap, rfl, fun _ => rfl⟩
    | cons linkId links ih =>
      intro s
      obtain ⟨b, h, beats, heq, hb⟩ := ih (linkBrokenInner reg s linkId)
      refine ⟨b, h, beats, ?_, fun hreg => ?_⟩
      · rw [foldl_cons, heq, linkBrokenInner]
        split <;> rfl
      · rw [hb hreg, linkBrokenInner]
        simp only [hreg]
  exact hfold _ _

end ConfigStore
