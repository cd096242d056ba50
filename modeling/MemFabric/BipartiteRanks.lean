/-
The connection pipeline of `BipartiteRanksQpManager`.

A rank that is set goes through tasks of a background thread: the white list of a receiver or
the socket connection of a sender, the query for the connected sockets, the connection of the
queue pair and the query for its state.  A step puts the ranks of a task into the next one, or
into the same one again if a call of the device library fails.

The thread and the calls hold `mutex_`, but `SetRemoteRankInfo` puts ranks into the first task
without it (`GenTaskFromChangeRanks`), also between the two times at which a step locks it.
-/
import MemFabric.QpChannels
import MemFabric.Transition

namespace Hybm.Bipartite

open Function Bipartite

/-! ### Unordered maps -/

section Maps

variable {β : Type} {l xs : List (ℕ × β)} {x y : ℕ × β} {k : ℕ}

/-- The keys of an unordered map, which is the list of its entries. -/
def keys (l : List (ℕ × β)) : List ℕ := l.map Prod.fst

/-- `emplace`: an entry that is there stays. -/
def emplace (l : List (ℕ × β)) (x : ℕ × β) : List (ℕ × β) :=
  if x.1 ∈ keys l then l else l ++ [x]

def emplaceAll (l xs : List (ℕ × β)) : List (ℕ × β) := xs.foldl emplace l

theorem mem_keys_of_mem (h : x ∈ l) : x.1 ∈ keys l := List.mem_map_of_mem h

theorem mem_keys_iff : k ∈ keys l ↔ ∃ b, (k, b) ∈ l := by
  rw [keys, List.mem_map]
  constructor
  · rintro ⟨⟨k, b⟩, hmem, rfl⟩
    exact ⟨b, hmem⟩
  · rintro ⟨b, hmem⟩
    exact ⟨_, hmem, rfl⟩

theorem mem_keys_emplace : k ∈ keys (emplace l x) ↔ k ∈ keys l ∨ k = x.1 := by
  rw [emplace]
  split
  · next hx =>
    constructor
    · exact .inl
    rintro (h | rfl)
    · exact h
    · exact hx
  · simp [keys]

theorem mem_of_mem_emplace (h : y ∈ emplace l x) : y ∈ l ∨ y = x := by
  rw [emplace] at h
  split at h
  · exact .inl h
  · simpa using h

theorem mem_emplace_of_mem (h : y ∈ l) : y ∈ emplace l x := by
  rw [emplace]
  split
  · exact h
  · exact List.mem_append_left _ h

theorem mem_keys_emplaceAll : k ∈ keys (emplaceAll l xs) ↔ k ∈ keys l ∨ k ∈ keys xs := by
  induction xs generalizing l with
  | nil => simp [emplaceAll, keys]
  | cons x xs ih =>
    show k ∈ keys (emplaceAll (emplace l x) xs) ↔ _
    rw [ih, mem_keys_emplace, or_assoc]
    simp [keys]

theorem mem_of_mem_emplaceAll (h : y ∈ emplaceAll l xs) : y ∈ l ∨ y ∈ xs := by
  induction xs generalizing l with
  | nil => exact .inl h
  | cons x xs ih =>
    rcases ih h with h | h
    · rcases mem_of_mem_emplace h with h | rfl
      · exact .inl h
      · exact .inr List.mem_cons_self
    · exact .inr (List.mem_cons_of_mem _ h)

theorem mem_emplaceAll_of_mem (h : y ∈ l) : y ∈ emplaceAll l xs := by
  induction xs generalizing l with
  | nil => exact h
  | cons x xs ih => exact ih (mem_emplace_of_mem h)

end Maps

/-! ### Data -/

/-- `hybm_role_type`. -/
inductive Role
  | peer
  | sender
  | receiver
  deriving DecidableEq

structure Manager where
  role : Role
  rankCount : ℕ
  serverSocketHandle : ℕ

/-- A task of the pipeline: `status.exist`, and the ranks it is for. -/
structure Task (α : Type) where
  exist : Bool
  items : List α

/-- `std::move`: the task is done. -/
def Task.done {α : Type} : Task α := ⟨false, []⟩

/-- `connections_` and the queue pairs that the users of the manager see. -/
structure Links where
  connections : ℕ → Option ConnectionChannel
  userQpInfo : ℕ → Option ℕ

def Links.open (l : Links) (r : ℕ) (c : ConnectionChannel) : Links :=
  ⟨update l.connections r (some c), update l.userQpInfo r c.qpHandle⟩

/-- A call of `RemoveRanks` that is under way: the ranks it has not come to and those whose
connections it has closed. -/
structure Removal where
  todo : List ℕ
  closed : List ℕ

/-- `connectTask` is the white list task of a receiver and the connect task of a sender, `hand`
what a step has taken out of it, `setting` the ranks that a call of `SetRemoteRankInfo` has not
put into it yet, and `wanted` those that were set and not removed. -/
structure State where
  running : Bool
  currentRanksInfo : List (ℕ × Net)
  connectTask : Task (ℕ × Net)
  queryConnectTask : Task (ℕ × ℕ)
  connectQpTask : Task ℕ
  queryQpStateTask : Task ℕ
  links : Links
  hand : Option (List (ℕ × Net))
  setting : Option (List (ℕ × Net))
  removing : Option Removal
  wanted : List ℕ

def State.start : State :=
  ⟨false, [], .done, .done, .done, .done, ⟨fun _ => none, fun _ => none⟩, none, none, none, []⟩

/-! ### Calls -/

section Calls

variable (m : Manager) (s : State)

/-- The ranks of the other side; their roles are not looked at any more. -/
def tempRanks (ranks : List (ℕ × Role × Net)) : List (ℕ × Net) :=
  emplaceAll [] ((ranks.filter fun x => x.2.1 ≠ m.role).map fun x => (x.1, x.2.2))

/-- `SetRemoteRankInfo`, up to the end of its critical section. -/
def setRemoteRankInfo (ranks : List (ℕ × Role × Net)) : Option State :=
  if s.setting.isSome ∨ s.removing.isSome ∨ s.hand.isSome then none
  else if ∃ x ∈ tempRanks m ranks, m.rankCount ≤ x.1 then some s
  else if s.running then
    some { s with
      currentRanksInfo := tempRanks m ranks
      setting := some ((tempRanks m ranks).filter fun x => x.1 ∉ keys s.currentRanksInfo) }
  else
    some { s with
      currentRanksInfo := tempRanks m ranks
      wanted := s.wanted ++ keys (tempRanks m ranks) }

/-- `GenTaskFromChangeRanks`, after which the call returns. -/
def genTaskFromChangeRanks : Option State :=
  match s.setting with
  | none => none
  | some added => some { s with
      connectTask := ⟨!(emplaceAll s.connectTask.items added).isEmpty,
        emplaceAll s.connectTask.items added⟩
      setting := none
      wanted := s.wanted ++ keys s.currentRanksInfo }

/-- `Startup`; `ok` is the answer of `CreateServerSocket`. -/
def startup (ok : Bool) : Option State :=
  if s.setting.isSome ∨ s.removing.isSome then none
  else if s.running then some s
  else if m.role = .receiver ∧ ok = false then some s
  else
    some { s with
    connectTask := ⟨true, emplaceAll s.connectTask.items s.currentRanksInfo⟩
    running := true }

/-- The beginning of `RemoveRanks`. -/
def removeRanks (ranks : List ℕ) : Option State :=
  if s.setting.isSome ∨ s.removing.isSome then none
  else some { s with
    removing := some ⟨ranks, []⟩
    wanted := s.wanted.filter fun r => r ∉ ranks }

/-- `ProcessRankRemoval`, and the user's queue pair. -/
def Links.close (l : Links) (r : ℕ) : Links where
  connections := update l.connections r
    ((l.connections r).map fun c => { c with qpHandle := none, socketFd := none })
  userQpInfo := update l.userQpInfo r none

/-- The rest of `RemoveRanks`: a rank of its loop, or the last critical section. -/
def removal : Option State :=
  if s.hand.isSome then none
  else
    match s.removing with
    | none => none
    | some ⟨r :: todo, closed⟩ => some { s with
        links := s.links.close r
        removing := some ⟨todo, r :: closed⟩ }
    | some ⟨[], closed⟩ => some { s with
        currentRanksInfo := s.currentRanksInfo.filter fun x => x.1 ∉ closed
        links := ⟨fun r => if r ∈ closed then none else s.links.connections r, s.links.userQpInfo⟩
        removing := none }

end Calls

/-! ### The first task -/

section FirstTask

variable (m : Manager) (s : State)

/-- `InitializeWhiteList`: connections for the ranks that have none. -/
def initializeWhiteList : List (ℕ × Net) → Links → Links × List Net
  | [], l => (l, [])
  | (r, net) :: rest, l =>
    if (l.connections r).isSome then initializeWhiteList rest l
    else
      let next := initializeWhiteList rest
        (l.open r { remoteNet := net, socketHandle := some m.serverSocketHandle })
      (next.1, net :: next.2)

/-- `CreateConnectInfos`, with the answers of `CreateLocalSocket`; nothing if one fails. -/
def createConnectInfos : List (ℕ × Net) → List (Option ℕ) → Links → Links × Option (List Net)
  | [], _, l => (l, some [])
  | (r, net) :: rest, sockets, l =>
    match l.connections r with
    | some c =>
      let next := createConnectInfos rest sockets l
      (next.1, if c.socketFd.isSome then next.2 else next.2.map (net :: ·))
    | none =>
      match sockets.headD none with
      | none => (l, none)
      | some handle =>
        let next := createConnectInfos rest sockets.tail
          (l.open r { remoteNet := net, socketHandle := some handle })
        (next.1, next.2.map (net :: ·))

/-- What the device library answers in a step on the first task; `ok` is whether all calls of
`RaSocketWhiteListAdd` or `RaSocketBatchConnect` return 0. -/
structure ConnectAnswers where
  sockets : List (Option ℕ) := []
  ok : Bool := true

/-- The connections and what there is to do for the library, if it comes to that. -/
def prepare (ans : ConnectAnswers) (remotes : List (ℕ × Net)) (l : Links) :
    Links × Option (List Net) :=
  match m.role with
  | .receiver => ((initializeWhiteList m remotes l).1, some (initializeWhiteList m remotes l).2)
  | .sender => createConnectInfos remotes ans.sockets l
  | .peer => (l, some [])

/-- The first critical section of `ProcessServerAddWhitelistTask` and
`ProcessClientConnectSocketTask`. -/
def takeConnectTask : Option State :=
  if s.running = true ∧ s.hand = none ∧ s.connectTask.exist = true ∧ m.role ≠ .peer then
    some { s with connectTask := .done, hand := some s.connectTask.items }
  else none

/-- The rest of them, and whether a call of the library failed. -/
def finishConnectTask (ans : ConnectAnswers) : Option (State × Bool) :=
  match s.hand with
  | none => none
  | some remotes =>
    let next := prepare m ans remotes s.links
    if next.2 = some [] then some ({ s with links := next.1, hand := none }, false)
    else if next.2.isSome ∧ ans.ok then
      -- `Success`, which does not look for what was queued in the meantime
      some ({ s with
        links := next.1
        hand := none
        connectTask := ⟨false, s.connectTask.items⟩
        queryConnectTask := ⟨true, emplaceAll s.queryConnectTask.items
          (remotes.map fun x => (x.2.addr, x.1))⟩ }, false)
    else
      -- `Failed`, which does not either
      some ({ s with links := next.1, hand := none, connectTask := ⟨true, remotes⟩ }, true)

end FirstTask

/-! ### The sockets -/

section Sockets

variable (s : State)

/-- What `RaGetSockets` answers. -/
structure PollAnswer where
  ok : Bool := true
  cnt : ℕ := 0
  sockets : List (ℕ × Option ℕ) := []

/-- The variables of the loop of `GetSocketConn`. -/
structure Polling where
  infos : List SocketInfo
  ip2rank : List (ℕ × ℕ)
  connections : ℕ → Option ConnectionChannel
  connected : List ℕ

/-- One round of `ProcessSocketConnectionsByIP`. -/
def Polling.process (p : Polling) (info : SocketInfo) : Polling :=
  if info.status ≠ 1 then p
  else
    match p.ip2rank.lookup info.remoteIp with
    | none => p
    | some r =>
      match p.connections r with
      | none => p
      | some c => { p with
          connections := update p.connections r (some { c with socketFd := info.fd })
          connected := p.connected ++ [r]
          ip2rank := p.ip2rank.filter fun x => x.1 ≠ info.remoteIp }

/-- The loop, with an answer for each round, and whether the last one was a failure; nothing
while it waits for more. -/
def getSocketConn : List PollAnswer → Polling → Option (Polling × Bool)
  | [], _ => none
  | ans :: rest, p =>
    let infos := SocketInfo.answered (p.infos.take batchCnt) ans.sockets ++ p.infos.drop batchCnt
    if !ans.ok then some ({ p with infos := infos }, true)
    else
      let p :=
        if ans.cnt = 0 then { p with infos := infos }
        else { (infos.take batchCnt).foldl Polling.process p with
          infos := infos.filter fun info => info.status ≠ 1 }
      if p.infos.isEmpty then some (p, false) else getSocketConn rest p

/-- `Parse2SocketInfo`: the ranks that still have a connection. -/
def parse2SocketInfo (connections : ℕ → Option ConnectionChannel) (ip2rank : List (ℕ × ℕ)) :
    List SocketInfo :=
  ip2rank.filterMap fun x =>
    (connections x.2).map fun c => ⟨c.socketHandle, x.1, 0, none⟩

def State.polled (answers : List PollAnswer) : Option (Polling × Bool) :=
  getSocketConn answers
    ⟨parse2SocketInfo s.links.connections s.queryConnectTask.items, s.queryConnectTask.items,
      s.links.connections, []⟩

/-- `ProcessQueryConnectionStateTask`, and whether a call of the library failed. -/
def processQueryConnectionStateTask (answers : List PollAnswer) : Option (State × Bool) :=
  if s.queryConnectTask.exist = false ∨ s.queryConnectTask.items = [] then
    some ({ s with queryConnectTask := ⟨false, s.queryConnectTask.items⟩ }, false)
  else
    match s.polled answers with
    | none => none
    | some (p, true) => some ({ s with
        links := ⟨p.connections, s.links.userQpInfo⟩
        queryConnectTask := ⟨true, p.ip2rank⟩ }, true)
    | some (p, false) => some ({ s with
        links := ⟨p.connections, s.links.userQpInfo⟩
        queryConnectTask := ⟨!p.ip2rank.isEmpty, p.ip2rank⟩
        connectQpTask := ⟨true, s.connectQpTask.items ++ p.connected⟩ }, false)

end Sockets

/-! ### The queue pairs -/

section QueuePairs

variable (s : State)

/-- What `RaQpCreate` and `RaQpConnectAsync` answer for a rank. -/
structure QpAnswer where
  qp : Option ℕ := none
  ok : Bool := true

/-- One round of `ProcessConnectQpTask`: the connection, and whether it went well. -/
def connectQp (ans : QpAnswer) (c : ConnectionChannel) : ConnectionChannel × Bool :=
  match c.qpHandle with
  | some _ => connectAsync c
  | none =>
    match ans.qp with
    | none => (c, false)
    | some qp => connectAsync { c with qpHandle := some qp, qpConnectCalled := false }
where
  connectAsync (c : ConnectionChannel) : ConnectionChannel × Bool :=
    if c.qpConnectCalled then (c, true)
    else if ans.ok then ({ c with qpConnectCalled := true }, true)
    else (c, false)

/-- The loop: the connections, the ranks that went well, and whether one did not. -/
def connectQps (ans : ℕ → QpAnswer) : List ℕ → (ℕ → Option ConnectionChannel) →
    (ℕ → Option ConnectionChannel) × List ℕ × Bool
  | [], conns => (conns, [], false)
  | r :: ranks, conns =>
    match conns r with
    | none => connectQps ans ranks conns
    | some c =>
      let one := connectQp (ans r) c
      let rest := connectQps ans ranks (update conns r (some one.1))
      (rest.1, if one.2 then r :: rest.2.1 else rest.2.1, !one.2 || rest.2.2)

/-- `ProcessConnectQpTask`, and whether a call of the library failed. -/
def processConnectQpTask (ans : ℕ → QpAnswer) : State × Bool :=
  if s.connectQpTask.exist = false ∨ s.connectQpTask.items = [] then
    ({ s with connectQpTask := ⟨false, s.connectQpTask.items⟩ }, false)
  else
    let next := connectQps ans s.connectQpTask.items s.links.connections
    ({ s with
      links := ⟨next.1, s.links.userQpInfo⟩
      connectQpTask := if next.2.2 then ⟨true, s.connectQpTask.items⟩ else .done
      queryQpStateTask := ⟨true, s.queryQpStateTask.items ++ next.2.1⟩ }, next.2.2)

/-- What `RaGetQpStatus` answers for a rank. -/
structure StatusAnswer where
  ok : Bool := true
  status : ℤ := 0

/-- The loop of `ProcessQueryQpStateTask`: what is queued again, all of `ranks` if a call
fails, and whether one did. -/
def queryQps (ranks : List ℕ) (ans : ℕ → StatusAnswer) : List ℕ → List ℕ → Links →
    Links × List ℕ × Bool
  | [], again, l => (l, again, false)
  | r :: todo, again, l =>
    match l.connections r with
    | none => queryQps ranks ans todo again l
    | some c =>
      let queried : Links := ⟨update l.connections r
        (some { c with qpStatus := (ans r).status }), l.userQpInfo⟩
      if (ans r).ok = false then
        let rest := queryQps ranks ans todo ranks queried
        (rest.1, rest.2.1, true)
      else if (ans r).status ≠ 1 then queryQps ranks ans todo (again ++ [r]) queried
      else queryQps ranks ans todo again ⟨queried.connections, update l.userQpInfo r c.qpHandle⟩

/-- `ProcessQueryQpStateTask`, and whether a call of the library failed. -/
def processQueryQpStateTask (ans : ℕ → StatusAnswer) : State × Bool :=
  if s.queryQpStateTask.exist = false ∨ s.queryQpStateTask.items = [] then
    ({ s with queryQpStateTask := ⟨false, s.queryQpStateTask.items⟩ }, false)
  else
    let next := queryQps s.queryQpStateTask.items ans s.queryQpStateTask.items [] s.links
    ({ s with links := next.1, queryQpStateTask := ⟨!next.2.1.isEmpty, next.2.1⟩ }, next.2.2)

end QueuePairs

/-! ### The system -/

inductive BipartiteStep
  | setRemoteRankInfo (ranks : List (ℕ × Role × Net))
  | genTaskFromChangeRanks
  | startup (ok : Bool)
  | removeRanks (ranks : List ℕ)
  | removal
  | takeConnectTask
  | finishConnectTask (ans : ConnectAnswers)
  | processQueryConnectionStateTask (answers : List PollAnswer)
  | processConnectQpTask (ans : ℕ → QpAnswer)
  | processQueryQpStateTask (ans : ℕ → StatusAnswer)

/-- The later tasks are worked on between two steps on the first one. -/
def State.between (s : State) (next : Option (State × Bool)) : Option (State × Bool) :=
  if s.running = true ∧ s.hand = none then next else none

/-- A step, and whether a call of the library failed in it. -/
def step (m : Manager) (s : State) : BipartiteStep → Option (State × Bool)
  | .setRemoteRankInfo ranks => (setRemoteRankInfo m s ranks).map (·, false)
  | .genTaskFromChangeRanks => (genTaskFromChangeRanks s).map (·, false)
  | .startup ok => (startup m s ok).map (·, false)
  | .removeRanks ranks => (removeRanks s ranks).map (·, false)
  | .removal => (removal s).map (·, false)
  | .takeConnectTask => (takeConnectTask m s).map (·, false)
  | .finishConnectTask ans => finishConnectTask m s ans
  | .processQueryConnectionStateTask answers =>
    s.between (processQueryConnectionStateTask s answers)
  | .processConnectQpTask ans => s.between (some (processConnectQpTask s ans))
  | .processQueryQpStateTask ans => s.between (some (processQueryQpStateTask s ans))

def bipartiteSystem (m : Manager) : TransitionSystem State BipartiteStep where
  start := .start
  next s a := (step m s a).map Prod.fst

/-! ### The property -/

def Task.Has {α : Type} (t : Task α) (f : α → ℕ) (r : ℕ) : Prop :=
  t.exist = true ∧ r ∈ t.items.map f

/-- Its queue pair is connected, and its users can see it. -/
def Links.Connected (l : Links) (r : ℕ) : Prop :=
  ∃ c, l.connections r = some c ∧ c.Established ∧ l.userQpInfo r = c.qpHandle

/-- Between two steps of the thread, every rank that was set and not removed is in a task or
connected. -/
def Conserved (s : State) : Prop :=
  s.running = true → s.hand = none → ∀ r ∈ s.wanted,
    s.connectTask.Has Prod.fst r ∨ s.queryConnectTask.Has Prod.snd r ∨
      s.connectQpTask.Has id r ∨ s.queryQpStateTask.Has id r ∨ s.links.Connected r

def taken (s : State) : BipartiteStep → List ℕ
  | .finishConnectTask _ => (s.hand.getD []).map Prod.fst
  | .processQueryConnectionStateTask _ => s.queryConnectTask.items.map Prod.snd
  | .processConnectQpTask _ => s.connectQpTask.items
  | .processQueryQpStateTask _ => s.queryQpStateTask.items
  | _ => []

def InTaskOf (s : State) (r : ℕ) : BipartiteStep → Prop
  | .finishConnectTask _ => s.connectTask.Has Prod.fst r
  | .processQueryConnectionStateTask _ => s.queryConnectTask.Has Prod.snd r
  | .processConnectQpTask _ => s.connectQpTask.Has id r
  | .processQueryQpStateTask _ => s.queryQpStateTask.Has id r
  | _ => False

/-- A step that meets `ok` and fails has all the ranks it had taken in its task again. -/
def Retries (m : Manager) (ok : State → BipartiteStep → Prop) (s : State) : Prop :=
  ∀ a s', ok s a → step m s a = some (s', true) → ∀ r ∈ taken s a, InTaskOf s' r a

/-- The addresses follow a plan, in which each belongs to one rank; a call before `Startup` names
all the ranks set before; no rank is queued for the first task while a step works on it, and
no call for the white list fails; a query for sockets fails only if none was found. -/
def Orderly (m : Manager) (owner : ℕ → ℕ) (s : State) : BipartiteStep → Prop
  | .setRemoteRankInfo ranks =>
    (∀ x ∈ tempRanks m ranks, owner x.2.addr = x.1) ∧
      (s.running = false → ∀ r ∈ s.wanted, r ∈ keys (tempRanks m ranks))
  | .finishConnectTask ans => s.connectTask.items = [] ∧ (m.role = .receiver → ans.ok = true)
  | .processQueryConnectionStateTask answers =>
    ∀ x ∈ s.polled answers, x.2 = true → x.1.connected = []
  | _ => True

instance (m : Manager) (owner : ℕ → ℕ) (s : State) (a : BipartiteStep) :
    Decidable (Orderly m owner s a) := by
  unfold Orderly
  split <;> infer_instance

open List Option

/-! ### Later stages -/

variable {m : Manager} {owner : ℕ → ℕ} {s s' : State} {l l' : Links} {r : ℕ}

def Links.Has (l : Links) (r : ℕ) : Prop := ∃ c, l.connections r = some c

def Links.Reached (m : Manager) (l : Links) (r : ℕ) : Prop :=
  ∃ c, l.connections r = some c ∧ (m.role = .receiver ∨ c.socketFd.isSome)

/-- It has one with a queue pair that is being connected. -/
def Links.Called (l : Links) (r : ℕ) : Prop :=
  ∃ c, l.connections r = some c ∧ c.qpHandle.isSome ∧ c.qpConnectCalled = true

def State.Staged (s : State) (r : ℕ) : Prop :=
  r ∈ s.queryConnectTask.items.map Prod.snd ∨ r ∈ s.connectQpTask.items ∨
    (r ∈ s.queryQpStateTask.items ∧ s.links.Called r) ∨ s.links.Connected r

theorem Links.Connected.called (h : l.Connected r) : l.Called r := by
  obtain ⟨c, hc, hest, -⟩ := h
  exact ⟨c, hc, hest.1, hest.2.1⟩

theorem Links.Reached.has (h : l.Reached m r) : l.Has r := by
  obtain ⟨c, hc, -⟩ := h
  exact ⟨c, hc⟩

/-! ### Connecting queue pairs -/

/-- What `ProcessConnectQpTask` may do to a connection: not to its socket, and nothing at all if
its queue pair is being connected. -/
structure Grows (c c' : ConnectionChannel) : Prop where
  fd : c'.socketFd = c.socketFd
  called : c.qpHandle.isSome → c.qpConnectCalled = true → c' = c

theorem Grows.refl (c : ConnectionChannel) : Grows c c := ⟨rfl, fun _ _ => rfl⟩

variable {c : ConnectionChannel} {ans : ℕ → StatusAnswer} {ranks todo again : List ℕ}
  {conns : ℕ → Option ConnectionChannel} {remotes : List (ℕ × Net)} {sockets : List (Option ℕ)}

theorem Grows.trans {c' c'' : ConnectionChannel} (h : Grows c c') (h' : Grows c' c'') :
    Grows c c'' := by
  refine ⟨h'.fd.trans h.fd, fun hqp hcalled => ?_⟩
  obtain rfl := h.called hqp hcalled
  exact h'.called hqp hcalled

theorem connectAsync_spec {ans : QpAnswer} : Grows c (connectQp.connectAsync ans c).1 ∧
    ((connectQp.connectAsync ans c).2 = true →
      (connectQp.connectAsync ans c).1.qpHandle = c.qpHandle ∧
        (connectQp.connectAsync ans c).1.qpConnectCalled = true) := by
  rw [connectQp.connectAsync]
  split
  · next hcalled => exact ⟨.refl c, fun _ => ⟨rfl, hcalled⟩⟩
  next hcalled =>
  split
  · exact ⟨⟨rfl, fun _ h => absurd h hcalled⟩, fun _ => ⟨rfl, rfl⟩⟩
  · exact ⟨.refl c, nofun⟩

theorem connectQp_spec {ans : QpAnswer} : Grows c (connectQp ans c).1 ∧
    ((connectQp ans c).2 = true → (connectQp ans c).1.qpHandle.isSome ∧
      (connectQp ans c).1.qpConnectCalled = true) := by
  rw [connectQp]
  split
  · next qp hqp =>
    refine ⟨connectAsync_spec.1, fun h => ?_⟩
    obtain ⟨hsame, hcalled⟩ := connectAsync_spec.2 h
    rw [hsame, hqp]
    exact ⟨rfl, hcalled⟩
  next hqp =>
  split
  · exact ⟨.refl c, nofun⟩
  refine ⟨⟨connectAsync_spec.1.fd, fun h => ?_⟩, fun h => ?_⟩
  · rw [hqp] at h
    cases h
  obtain ⟨hsame, hcalled⟩ := connectAsync_spec.2 h
  rw [hsame]
  exact ⟨rfl, hcalled⟩

theorem connectQps_grows {ans : ℕ → QpAnswer} (hc : conns r = some c) :
    ∃ c', (connectQps ans ranks conns).1 r = some c' ∧ Grows c c' := by
  induction ranks generalizing conns c with
  | nil => exact ⟨c, hc, .refl c⟩
  | cons r' ranks ih =>
    rw [connectQps]
    split
    · exact ih hc
    next c₁ hc₁ =>
    by_cases hr : r = r'
    · subst hr
      obtain rfl := some.inj (hc.symm.trans hc₁)
      obtain ⟨c', hc', hgrows⟩ := ih (update_self r (some (connectQp (ans r) c).1) conns)
      exact ⟨c', hc', connectQp_spec.1.trans hgrows⟩
    · exact ih ((update_of_ne hr _ _).trans hc)

theorem connectQps_none {ans : ℕ → QpAnswer} (hc : conns r = none) :
    (connectQps ans ranks conns).1 r = none := by
  induction ranks generalizing conns with
  | nil => exact hc
  | cons r' ranks ih =>
    rw [connectQps]
    split
    · exact ih hc
    next c₁ hc₁ =>
    have hr : r ≠ r' := by
      rintro rfl
      rw [hc] at hc₁
      cases hc₁
    exact ih ((update_of_ne hr _ _).trans hc)

theorem connectQps_taken {ans : ℕ → QpAnswer} (hr : r ∈ ranks) (hc : conns r ≠ none)
    (hok : (connectQps ans ranks conns).2.2 = false) {userQpInfo : ℕ → Option ℕ} :
    r ∈ (connectQps ans ranks conns).2.1 ∧
      Links.Called ⟨(connectQps ans ranks conns).1, userQpInfo⟩ r := by
  induction ranks generalizing conns with
  | nil => nomatch hr
  | cons r' ranks ih =>
    rw [connectQps] at hok ⊢
    split at hok
    · next hnone =>
      rcases mem_cons.mp hr with rfl | hr
      · exact absurd hnone hc
      · exact ih hr hc hok
    next c₁ hc₁ =>
    simp only [Bool.or_eq_false_iff, Bool.not_eq_false'] at hok
    obtain ⟨hone, hrest⟩ := hok
    simp only [hone, if_true]
    by_cases hmem : r ∈ ranks
    · have hc' : update conns r' (some (connectQp (ans r') c₁).1) r ≠ none := by
        by_cases heq : r = r'
        · subst heq
          simp
        · rwa [update_of_ne heq]
      obtain ⟨hin, hcalled⟩ := ih hmem hc' hrest
      exact ⟨mem_cons_of_mem _ hin, hcalled⟩
    -- the round of the rank itself; the later ones leave it alone
    have heq : r = r' := (mem_cons.mp hr).resolve_right hmem
    subst heq
    obtain ⟨hqp, hcalled⟩ := connectQp_spec.2 hone
    obtain ⟨c', hc', hgrows⟩ := @connectQps_grows r _ ranks _ ans
      (update_self r (some (connectQp (ans r) c₁).1) conns)
    obtain rfl := hgrows.called hqp hcalled
    exact ⟨mem_cons_self, _, hc', hqp, hcalled⟩

/-! ### Querying queue pairs -/

/-- What `ProcessQueryQpStateTask` may do to the connections: it changes their status only. -/
structure Queries (l l' : Links) : Prop where
  kept : ∀ {r c}, l.connections r = some c → ∃ c', l'.connections r = some c' ∧
    c'.socketFd = c.socketFd ∧ c'.qpHandle = c.qpHandle ∧ c'.qpConnectCalled = c.qpConnectCalled
  none : ∀ {r}, l.connections r = none → l'.connections r = none

namespace Queries

theorem refl (l : Links) : Queries l l := ⟨fun hc => ⟨_, hc, rfl, rfl, rfl⟩, fun hc => hc⟩

theorem trans {l'' : Links} (h : Queries l l') (h' : Queries l' l'') : Queries l l'' := by
  refine ⟨fun hc => ?_, fun hc => h'.none (h.none hc)⟩
  obtain ⟨c', hc', hfd, hqp, hcalled⟩ := h.kept hc
  obtain ⟨c'', hc'', hfd', hqp', hcalled'⟩ := h'.kept hc'
  exact ⟨c'', hc'', hfd'.trans hfd, hqp'.trans hqp, hcalled'.trans hcalled⟩

theorem one {c : ConnectionChannel} (hc : l.connections r = some c) (status : ℤ)
    (userQpInfo : ℕ → Option ℕ) :
    Queries l ⟨update l.connections r (some { c with qpStatus := status }), userQpInfo⟩ := by
  refine ⟨@fun r' c' hc' => ?_, @fun r' hc' => ?_⟩
  · by_cases hr : r' = r
    · subst hr
      obtain rfl := some.inj (hc.symm.trans hc')
      exact ⟨_, update_self .., rfl, rfl, rfl⟩
    · exact ⟨c', (update_of_ne hr _ _).trans hc', rfl, rfl, rfl⟩
  have hr : r' ≠ r := by
    rintro rfl
    rw [hc] at hc'
    cases hc'
  exact (update_of_ne hr _ _).trans hc'

theorem called (h : Queries l l') (hr : l.Called r) : l'.Called r := by
  obtain ⟨c, hc, hqp, hcalled⟩ := hr
  obtain ⟨c', hc', -, hqp', hcalled'⟩ := h.kept hc
  exact ⟨c', hc', by rwa [hqp'], hcalled'.trans hcalled⟩

end Queries

/-- What the round of the loop of `ProcessQueryQpStateTask` for the rank `r` may do. -/
structure Round (ranks again again' : List ℕ) (r : ℕ) (l l' : Links) : Prop where
  queries : Queries l l'
  kept : again ⊆ again'
  inside : again' ⊆ ranks
  other : ∀ {x}, x ≠ r → l.Connected x → l'.Connected x
  own : l.Called r → r ∈ again' ∨ l'.Connected r

theorem queryQps_round (hr : r ∈ ranks) (hagain : again ⊆ ranks) :
    ∃ again' l' failed, Round ranks again again' r l l' ∧ (failed = true → again' = ranks) ∧
      queryQps ranks ans (r :: todo) again l = ((queryQps ranks ans todo again' l').1,
        (queryQps ranks ans todo again' l').2.1,
        failed || (queryQps ranks ans todo again' l').2.2) := by
  rw [queryQps]
  cases hc : l.connections r with
  | none =>
    refine ⟨again, l, false, ⟨.refl l, Subset.refl _, hagain, fun _ h => h, ?_⟩, nofun, rfl⟩
    rintro ⟨c, hc', -⟩
    rw [hc] at hc'
    cases hc'
  | some c =>
    dsimp only
    split
    · refine ⟨ranks, _, true, ⟨.one hc _ _, hagain, Subset.refl _, ?_, fun _ => .inl hr⟩,
        fun _ => rfl, rfl⟩
      rintro x hx ⟨d, hd, hseen⟩
      exact ⟨d, (update_of_ne hx _ _).trans hd, hseen⟩
    split
    · refine ⟨again ++ [r], _, false, ⟨.one hc _ _, subset_append_left _ _,
        append_subset.mpr ⟨hagain, by simpa using hr⟩, ?_,
        fun _ => .inl (mem_append_right _ mem_cons_self)⟩, nofun, rfl⟩
      rintro x hx ⟨d, hd, hseen⟩
      exact ⟨d, (update_of_ne hx _ _).trans hd, hseen⟩
    next hstat =>
    refine ⟨again, _, false, ⟨.one hc _ _, Subset.refl _, hagain, ?_, ?_⟩, nofun, rfl⟩
    · rintro x hx ⟨d, hd, hest, hseen⟩
      exact ⟨d, (update_of_ne hx _ _).trans hd, hest, (update_of_ne hx _ _).trans hseen⟩
    · rintro ⟨d, hd, hqp, hcall⟩
      obtain rfl := some.inj (hc.symm.trans hd)
      exact .inr ⟨_, update_self .., ⟨hqp, hcall, not_not.mp hstat⟩, update_self ..⟩

/-- What the loop has done once it is through with `todo`. -/
structure Queried (ranks todo again : List ℕ) (l : Links) (next : Links × List ℕ × Bool) :
    Prop where
  queries : Queries l next.1
  kept : again ⊆ next.2.1
  other : ∀ {r}, r ∉ todo → l.Connected r → next.1.Connected r
  own : ∀ {r}, r ∈ todo → l.Called r → r ∈ next.2.1 ∨ next.1.Connected r
  failed : next.2.2 = true → ranks ⊆ next.2.1

theorem queryQps_queried (htodo : todo ⊆ ranks) (hagain : again ⊆ ranks) :
    Queried ranks todo again l (queryQps ranks ans todo again l) := by
  induction todo generalizing again l with
  | nil => exact ⟨.refl l, Subset.refl _, fun _ h => h, nofun, nofun⟩
  | cons r' todo ih =>
    obtain ⟨hr, htodo⟩ := cons_subset.mp htodo
    obtain ⟨again', l', failed, hround, hfail, heq⟩ := queryQps_round hr hagain
    rw [heq]
    have hrest : Queried ranks todo again' l' _ := ih htodo hround.inside
    refine ⟨hround.queries.trans hrest.queries, List.Subset.trans hround.kept hrest.kept,
      @fun r hr h => ?_, @fun r hr hcalled => ?_, fun h => ?_⟩
    · obtain ⟨hne, hr⟩ := not_or.mp (mt mem_cons.mpr hr)
      exact hrest.other hr (hround.other hne h)
    · by_cases hmem : r ∈ todo
      · exact hrest.own hmem (hround.queries.called hcalled)
      -- the round of the rank itself, with no other one to come
      obtain rfl := (mem_cons.mp hr).resolve_right hmem
      rcases hround.own hcalled with hown | hown
      · exact .inl (hrest.kept hown)
      · exact .inr (hrest.other hmem hown)
    · rcases Bool.or_eq_true_iff.mp h with h | h
      · exact hfail h ▸ hrest.kept
      · exact hrest.failed h

/-! ### Polling sockets -/

/-- What the loop of `GetSocketConn` may do: a rank leaves `ip2rank` for the connected ones, and
nothing but the sockets of these changes. -/
structure Polls (p p' : Polling) : Prop where
  moved : ∀ r ∈ p.ip2rank.map Prod.snd, r ∈ p'.ip2rank.map Prod.snd ∨ r ∈ p'.connected
  kept : p.connected ⊆ p'.connected
  rest : p'.ip2rank ⊆ p.ip2rank
  connections : ∀ r, p'.connections r = p.connections r ∨ (r ∈ p'.connected ∧
    ∃ c c', p.connections r = some c ∧ p'.connections r = some c' ∧ c'.qpHandle = c.qpHandle ∧
      c'.qpConnectCalled = c.qpConnectCalled ∧ c'.qpStatus = c.qpStatus)

namespace Polls

variable {p p' p'' : Polling}

theorem refl (p : Polling) : Polls p p :=
  ⟨fun _ h => .inl h, List.Subset.refl _, List.Subset.refl _, fun _ => .inl rfl⟩

theorem trans (h : Polls p p') (h' : Polls p' p'') : Polls p p'' where
  moved r hr := by
    rcases h.moved r hr with hr | hr
    · exact h'.moved r hr
    · exact .inr (h'.kept hr)
  kept := List.Subset.trans h.kept h'.kept
  rest := List.Subset.trans h'.rest h.rest
  connections r := by
    rcases h.connections r with heq | ⟨hr, c, c', hc, hc', hqp, hcalled, hstat⟩
    · rcases h'.connections r with heq' | ⟨hr', c, c', hc, hc', hsame⟩
      · exact .inl (heq'.trans heq)
      · exact .inr ⟨hr', c, c', heq ▸ hc, hc', hsame⟩
    refine .inr ⟨h'.kept hr, ?_⟩
    rcases h'.connections r with heq' | ⟨-, d, d', hd, hd', hqp', hcalled', hstat'⟩
    · exact ⟨c, c', hc, heq'.trans hc', hqp, hcalled, hstat⟩
    · obtain rfl := some.inj (hc'.symm.trans hd)
      exact ⟨c, d', hc, hd', hqp'.trans hqp, hcalled'.trans hcalled, hstat'.trans hstat⟩

theorem infos (p : Polling) (infos : List SocketInfo) : Polls p { p with infos := infos } :=
  ⟨fun _ h => .inl h, List.Subset.refl _, List.Subset.refl _, fun _ => .inl rfl⟩

section

variable (howned : ∀ x ∈ p.ip2rank, owner x.1 = x.2)
include howned

theorem process (info : SocketInfo) : Polls p (p.process info) := by
  rw [Polling.process]
  split
  · exact .refl p
  split
  · exact .refl p
  next r hlook =>
  split
  · exact .refl p
  next c hc =>
  refine ⟨fun r' hr' => ?_, subset_append_left _ _, filter_subset_self _, fun r' => ?_⟩
  · obtain ⟨x, hx, rfl⟩ := mem_map.mp hr'
    by_cases hip : x.1 = info.remoteIp
    · -- the address belongs to one rank
      obtain ⟨_, _, heq, -⟩ := lookup_eq_some_iff.mp hlook
      have hr : owner info.remoteIp = r :=
        howned (info.remoteIp, r) (by rw [heq]; simp)
      rw [← howned x hx, hip, hr]
      exact .inr (mem_append_right _ mem_cons_self)
    · exact .inl (mem_map_of_mem (mem_filter.mpr ⟨hx, by simpa using hip⟩))
  by_cases hr : r' = r
  · subst hr
    exact .inr ⟨mem_append_right _ mem_cons_self, c, _, hc, update_self .., rfl, rfl, rfl⟩
  · exact .inl (update_of_ne hr _ _)

theorem foldl_process (infos : List SocketInfo) : Polls p (infos.foldl Polling.process p) := by
  induction infos generalizing p with
  | nil => exact .refl p
  | cons info infos ih =>
    have hone := Polls.process howned info
    exact hone.trans (ih fun x hx => howned x (hone.rest hx))

theorem getSocketConn {answers : List PollAnswer} {failed : Bool}
    (h : Bipartite.getSocketConn answers p = some (p', failed)) : Polls p p' := by
  induction answers generalizing p with
  | nil => nomatch h
  | cons ans answers ih =>
    rw [getSocketConn] at h
    dsimp only at h
    split at h
    · obtain ⟨rfl, -⟩ := Prod.mk.inj (some.inj h)
      exact .infos p _
    set q := if ans.cnt = 0 then { p with infos := _ } else _ with hq
    have hpoll : Polls p q := by
      rw [hq]
      split
      · exact .infos p _
      · exact (Polls.foldl_process howned _).trans (.infos _ _)
    split at h
    · obtain ⟨rfl, -⟩ := Prod.mk.inj (some.inj h)
      exact hpoll
    · exact hpoll.trans (ih (fun x hx => howned x (hpoll.rest hx)) h)

end

end Polls

/-! ### Opening connections -/

/-- What the first task may do to the connections: it opens some for its ranks. -/
def Opens (remotes : List (ℕ × Net)) (l l' : Links) : Prop :=
  ∀ r, (l'.connections r = l.connections r ∧ l'.userQpInfo r = l.userQpInfo r) ∨
    (r ∈ keys remotes ∧ l.connections r = none ∧ ∃ c, l'.connections r = some c ∧ c.socketFd = none)

namespace Opens

variable {remotes : List (ℕ × Net)} {net : Net}

theorem refl (remotes : List (ℕ × Net)) (l : Links) : Opens remotes l l :=
  fun _ => .inl ⟨rfl, rfl⟩

theorem cons (h : Opens remotes l l') : Opens ((r, net) :: remotes) l l' := by
  intro r'
  rcases h r' with hsame | ⟨hr, hopened⟩
  · exact .inl hsame
  · exact .inr ⟨mem_cons_of_mem _ hr, hopened⟩

theorem open_cons {c : ConnectionChannel} (hr : l.connections r = none) (hc : c.socketFd = none)
    (h : Opens remotes (l.open r c) l') : Opens ((r, net) :: remotes) l l' := by
  intro r'
  by_cases heq : r' = r
  · subst heq
    refine .inr ⟨mem_cons_self, hr, ?_⟩
    rcases h r' with ⟨hsame, -⟩ | ⟨-, hnone, -⟩
    · exact ⟨c, hsame.trans (update_self ..), hc⟩
    · rw [show (l.open r' c).connections r' = some c from update_self ..] at hnone
      cases hnone
  have hconn : (l.open r c).connections r' = l.connections r' := update_of_ne heq _ _
  have hseen : (l.open r c).userQpInfo r' = l.userQpInfo r' := update_of_ne heq _ _
  rcases h r' with ⟨hsame, hsame'⟩ | ⟨hmem, hnone, hopened⟩
  · exact .inl ⟨hsame.trans hconn, hsame'.trans hseen⟩
  · exact .inr ⟨mem_cons_of_mem _ hmem, hconn.symm.trans hnone, hopened⟩

theorem has (h : Opens remotes l l') (hr : l.Has r) : l'.Has r := by
  obtain ⟨c, hc⟩ := hr
  rcases h r with ⟨hsame, -⟩ | ⟨-, -, c', hc', -⟩
  · exact ⟨c, hsame.trans hc⟩
  · exact ⟨c', hc'⟩

end Opens

/-- What the preparation of the first task does: it opens connections.  If it succeeds, all its
ranks have one, and if it leaves nothing to the library, they all are past the task. -/
structure Prepared (m : Manager) (remotes : List (ℕ × Net)) (l : Links)
    (next : Links × Option (List Net)) : Prop where
  opens : Opens remotes l next.1
  has : next.2.isSome → ∀ r ∈ keys remotes, next.1.Has r
  nil : next.2 = some [] → next.1 = l ∧ ∀ r ∈ keys remotes, l.Reached m r

namespace Prepared

variable {net : Net} {next : Links × Option (List Net)}

theorem skip (h : Prepared m remotes l next) (hr : l.Reached m r) :
    Prepared m ((r, net) :: remotes) l next where
  opens := h.opens.cons
  has hsome r' hr' := by
    rcases mem_cons.mp hr' with rfl | hr'
    · exact h.opens.has hr.has
    · exact h.has hsome r' hr'
  nil hnil := by
    obtain ⟨hl, hreached⟩ := h.nil hnil
    refine ⟨hl, fun r' hr' => ?_⟩
    rcases mem_cons.mp hr' with rfl | hr'
    · exact hr
    · exact hreached r' hr'

theorem add (h : Prepared m remotes l' next) (hopens : Opens ((r, net) :: remotes) l next.1)
    (hr : next.1.Has r) :
    Prepared m ((r, net) :: remotes) l (next.1, next.2.map (net :: ·)) where
  opens := hopens
  has hsome r' hr' := by
    rcases mem_cons.mp hr' with rfl | hr'
    · exact hr
    · exact h.has (by simpa using hsome) r' hr'
  nil hnil := by simp at hnil

end Prepared

theorem initializeWhiteList_prepared (hrole : m.role = .receiver) : Prepared m remotes l
    ((initializeWhiteList m remotes l).1, some (initializeWhiteList m remotes l).2) := by
  induction remotes generalizing l with
  | nil => exact ⟨.refl _ l, fun _ => nofun, fun _ => ⟨rfl, nofun⟩⟩
  | cons x remotes ih =>
    rw [initializeWhiteList]
    split
    · next hsome =>
      obtain ⟨c, hc⟩ := isSome_iff_exists.mp hsome
      exact ih.skip ⟨c, hc, .inl hrole⟩
    · next hnone =>
      exact ih.add (.open_cons (not_isSome_iff_eq_none.mp hnone) rfl ih.opens)
        (ih.opens.has ⟨_, update_self ..⟩)

theorem createConnectInfos_prepared :
    Prepared m remotes l (createConnectInfos remotes sockets l) := by
  induction remotes generalizing l sockets with
  | nil => exact ⟨.refl _ l, fun _ => nofun, fun _ => ⟨rfl, nofun⟩⟩
  | cons x remotes ih =>
    rw [createConnectInfos]
    split
    · next c hc =>
      dsimp only
      split
      · next hfd => exact ih.skip ⟨c, hc, .inr hfd⟩
      · exact ih.add ih.opens.cons (ih.opens.has ⟨c, hc⟩)
    next hnone =>
    split
    · exact ⟨.refl _ l, nofun, nofun⟩
    · exact ih.add (.open_cons hnone rfl ih.opens) (ih.opens.has ⟨_, update_self ..⟩)

theorem prepare_prepared {ans : ConnectAnswers} (hrole : m.role ≠ .peer) :
    Prepared m remotes l (prepare m ans remotes l) := by
  rw [prepare]
  split
  · next hrecv => exact initializeWhiteList_prepared hrecv
  · exact createConnectInfos_prepared
  · next hpeer => exact absurd hpeer hrole

/-! ### The invariant -/

/-- A task with something in it is going to be worked on. -/
def Task.Live {α : Type} (t : Task α) : Prop := t.items ≠ [] → t.exist = true

theorem Task.Live.has {α : Type} {t : Task α} {f : α → ℕ} (h : t.Live) (hr : r ∈ t.items.map f) :
    t.Has f r := by
  refine ⟨h fun hnil => ?_, hr⟩
  rw [hnil] at hr
  exact not_mem_nil hr

theorem Task.Live.idle {α : Type} {t : Task α} (h : t.Live)
    (hidle : t.exist = false ∨ t.items = []) : Task.Live ⟨false, t.items⟩ := by
  intro hne
  rcases hidle with hexist | hnil
  · exact hexist.symm.trans (h hne)
  · exact absurd hnil hne

theorem live_of_isEmpty {α : Type} {items : List α} : Task.Live ⟨!items.isEmpty, items⟩ := by
  intro hne
  cases items with
  | nil => exact absurd rfl hne
  | cons x items => rfl

/-- The ranks of a removal under way whose connections are closed. -/
def State.closed (s : State) : List ℕ := (s.removing.map Removal.closed).getD []

def State.removed (s : State) : List ℕ :=
  (s.removing.map fun removal => removal.todo ++ removal.closed).getD []

theorem mem_removed (h : r ∈ s.closed) : r ∈ s.removed := by
  rw [State.closed] at h
  rw [State.removed]
  cases hrem : s.removing with
  | none =>
    rw [hrem] at h
    cases h
  | some removal =>
    rw [hrem] at h
    exact mem_append_right _ h

def State.AtFirst (s : State) (r : ℕ) : Prop :=
  r ∈ keys s.connectTask.items ∨ r ∈ keys (s.hand.getD [])

def Owned (owner : ℕ → ℕ) (l : List (ℕ × Net)) : Prop := ∀ x ∈ l, owner x.2.addr = x.1

/-- A connection that the first task skips belongs to a rank that is past it, and a wanted rank
is at the first task or past it with a connection. -/
structure Inv (m : Manager) (owner : ℕ → ℕ) (s : State) : Prop where
  live : s.connectTask.Live ∧ s.queryConnectTask.Live ∧ s.connectQpTask.Live ∧
    s.queryQpStateTask.Live
  owned : Owned owner s.currentRanksInfo ∧ Owned owner s.connectTask.items ∧
    Owned owner (s.hand.getD []) ∧ Owned owner (s.setting.getD [])
  ip2rank : ∀ x ∈ s.queryConnectTask.items, owner x.1 = x.2
  reached : ∀ r ∉ s.closed, s.links.Reached m r → s.Staged r
  wanted : s.running = true → ∀ r ∈ s.wanted, s.AtFirst r ∨ (s.links.Has r ∧ s.Staged r)
  apart : ∀ r ∈ s.wanted, r ∉ s.removed
  current : ∀ r ∈ keys s.currentRanksInfo,
    r ∈ s.wanted ∨ r ∈ keys (s.setting.getD []) ∨ r ∈ s.removed
  early : s.running = false → ∀ r ∈ s.wanted, r ∈ keys s.currentRanksInfo
  calls : s.setting.isSome → s.removing = none
  busy : s.hand.isSome → m.role ≠ .peer

theorem inv_start : Inv m owner .start where
  live := ⟨fun h => absurd rfl h, fun h => absurd rfl h, fun h => absurd rfl h,
    fun h => absurd rfl h⟩
  owned := ⟨nofun, nofun, nofun, nofun⟩
  ip2rank := nofun
  reached _ _ h := by
    obtain ⟨c, hc, -⟩ := h
    cases hc
  wanted h := nomatch h
  apart := nofun
  current := nofun
  early _ := nofun
  calls h := nomatch h
  busy h := nomatch h

namespace Inv

section

variable (h : Inv m owner s)
include h

theorem conserved : Conserved s := by
  intro hrun hhand r hr
  obtain ⟨hfirst, hquery, hconnect, hstat⟩ := h.live
  rcases h.wanted hrun r hr with (hmem | hmem) | ⟨-, hmem | hmem | ⟨hmem, -⟩ | hconnected⟩
  · exact .inl (hfirst.has hmem)
  · rw [hhand] at hmem
    cases hmem
  · exact .inr (.inl (hquery.has hmem))
  · exact .inr (.inr (.inl (hconnect.has (by rwa [List.map_id]))))
  · exact .inr (.inr (.inr (.inl (hstat.has (by rwa [List.map_id])))))
  · exact .inr (.inr (.inr (.inr hconnected)))

theorem advance {queryConnectTask : Task (ℕ × ℕ)} {connectQpTask queryQpStateTask : Task ℕ}
    (hlive : queryConnectTask.Live ∧ connectQpTask.Live ∧ queryQpStateTask.Live)
    (hip2rank : ∀ x ∈ queryConnectTask.items, owner x.1 = x.2) (hhas : ∀ r, s.links.Has r → l.Has r)
    (hstaged : ∀ r, s.links.Has r → s.Staged r → State.Staged { s with
      queryConnectTask := queryConnectTask, connectQpTask := connectQpTask,
      queryQpStateTask := queryQpStateTask, links := l } r)
    (hreached : ∀ r, l.Reached m r → s.links.Reached m r ∨ State.Staged { s with
      queryConnectTask := queryConnectTask, connectQpTask := connectQpTask,
      queryQpStateTask := queryQpStateTask, links := l } r) :
    Inv m owner { s with
      queryConnectTask := queryConnectTask, connectQpTask := connectQpTask,
      queryQpStateTask := queryQpStateTask, links := l } where
  live := ⟨h.live.1, hlive⟩
  owned := h.owned
  ip2rank := hip2rank
  reached r hclosed hr := by
    rcases hreached r hr with hr | hr
    · exact hstaged r hr.has (h.reached r hclosed hr)
    · exact hr
  wanted hrun r hr :=
    (h.wanted hrun r hr).imp_right fun ⟨hr, hst⟩ => ⟨hhas r hr, hstaged r hr hst⟩
  apart := h.apart
  current := h.current
  early := h.early
  calls := h.calls
  busy := h.busy

theorem processConnectQpTask (ans : ℕ → QpAnswer) : Inv m owner (processConnectQpTask s ans).1 := by
  obtain ⟨-, hquery, hconnect, hstat⟩ := h.live
  rw [Bipartite.processConnectQpTask]
  split
  · next hidle =>
    exact h.advance ⟨hquery, hconnect.idle hidle, hstat⟩ h.ip2rank (fun _ hr => hr)
      (fun _ _ hr => hr) fun _ hr => .inl hr
  dsimp only
  set next := connectQps ans s.connectQpTask.items s.links.connections with hnext
  have hgrows : ∀ {r c}, s.links.connections r = some c →
      ∃ c', next.1 r = some c' ∧ Grows c c' := connectQps_grows
  have hcalled : ∀ {r}, s.links.Called r → Links.Called ⟨next.1, s.links.userQpInfo⟩ r := by
    rintro r ⟨c, hc, hqp, hcalled⟩
    obtain ⟨c', hc', hgrow⟩ := hgrows hc
    obtain rfl := hgrow.called hqp hcalled
    exact ⟨_, hc', hqp, hcalled⟩
  refine h.advance ⟨hquery, ?_, fun _ => rfl⟩ h.ip2rank ?_ ?_ ?_
  · split
    · exact fun _ => rfl
    · exact fun hne => absurd rfl hne
  · rintro r ⟨c, hc⟩
    obtain ⟨c', hc', -⟩ := hgrows hc
    exact ⟨c', hc'⟩
  · rintro r ⟨c, hc⟩ (hr | hr | ⟨hr, hr'⟩ | ⟨c₁, hc₁, hest, hseen⟩)
    · exact .inl hr
    · cases hfail : next.2.2 with
      | true => exact .inr (.inl hr)
      | false =>
        obtain ⟨hmem, hcall⟩ := connectQps_taken hr (by rw [hc]; exact nofun) hfail
        exact .inr (.inr (.inl ⟨mem_append_right _ hmem, hcall⟩))
    · exact .inr (.inr (.inl ⟨mem_append_left _ hr, hcalled hr'⟩))
    · obtain ⟨c', hc', hgrow⟩ := hgrows hc₁
      obtain rfl := hgrow.called hest.1 hest.2.1
      exact .inr (.inr (.inr ⟨_, hc', hest, hseen⟩))
  rintro r ⟨c', hc', hr⟩
  refine .inl ?_
  cases hc : s.links.connections r with
  | none =>
    have hnone : some c' = none := hc'.symm.trans (connectQps_none hc)
    cases hnone
  | some c =>
    obtain ⟨c₁, hc₁, hgrow⟩ := hgrows hc
    obtain rfl := some.inj (hc'.symm.trans hc₁)
    rw [hgrow.fd] at hr
    exact ⟨c, hc, hr⟩

theorem processQueryQpStateTask (ans : ℕ → StatusAnswer) :
    Inv m owner (processQueryQpStateTask s ans).1 := by
  obtain ⟨-, hquery, hconnect, hstat⟩ := h.live
  rw [Bipartite.processQueryQpStateTask]
  split
  · next hidle =>
    exact h.advance ⟨hquery, hconnect, hstat.idle hidle⟩ h.ip2rank (fun _ hr => hr)
      (fun _ _ hr => hr) fun _ hr => .inl hr
  dsimp only
  set next := queryQps s.queryQpStateTask.items ans s.queryQpStateTask.items [] s.links with hnext
  obtain ⟨hqueries, -, hother, htaken, -⟩ : Queried s.queryQpStateTask.items
      s.queryQpStateTask.items [] s.links next :=
    queryQps_queried (Subset.refl _) (nil_subset _)
  refine h.advance ⟨hquery, hconnect, live_of_isEmpty⟩ h.ip2rank ?_ ?_ ?_
  · rintro r ⟨c, hc⟩
    obtain ⟨c', hc', -⟩ := hqueries.kept hc
    exact ⟨c', hc'⟩
  · rintro r - (hr | hr | ⟨hr, hcalled⟩ | hconnected)
    · exact .inl hr
    · exact .inr (.inl hr)
    · rcases htaken hr hcalled with hmem | hconnected
      · exact .inr (.inr (.inl ⟨hmem, hqueries.called hcalled⟩))
      · exact .inr (.inr (.inr hconnected))
    by_cases hr : r ∈ s.queryQpStateTask.items
    · rcases htaken hr hconnected.called with hmem | hconnected'
      · exact .inr (.inr (.inl ⟨hmem, hqueries.called hconnected.called⟩))
      · exact .inr (.inr (.inr hconnected'))
    · exact .inr (.inr (.inr (hother hr hconnected)))
  rintro r ⟨c', hc', hr⟩
  refine .inl ?_
  cases hc : s.links.connections r with
  | none =>
    rw [hqueries.none hc] at hc'
    cases hc'
  | some c =>
    obtain ⟨c₁, hc₁, hfd, -⟩ := hqueries.kept hc
    obtain rfl := some.inj (hc'.symm.trans hc₁)
    rw [hfd] at hr
    exact ⟨c, hc, hr⟩

theorem processQueryConnectionStateTask {answers : List PollAnswer}
    {failed : Bool} (hok : ∀ x ∈ s.polled answers, x.2 = true → x.1.connected = [])
    (hnext : processQueryConnectionStateTask s answers = some (s', failed)) : Inv m owner s' := by
  obtain ⟨-, hquery, hconnect, hstat⟩ := h.live
  rw [Bipartite.processQueryConnectionStateTask] at hnext
  split at hnext
  · next hidle =>
    obtain ⟨rfl, -⟩ := Prod.mk.inj (some.inj hnext)
    exact h.advance ⟨hquery.idle hidle, hconnect, hstat⟩ h.ip2rank (fun _ hr => hr)
      (fun _ _ hr => hr) fun _ hr => .inl hr
  split at hnext
  · cases hnext
  · next p hpolled =>
    -- the query failed before any socket was found: nothing has changed
    obtain ⟨rfl, -⟩ := Prod.mk.inj (some.inj hnext)
    have hpolls := Polls.getSocketConn h.ip2rank hpolled
    have hnil : p.connected = [] := hok _ hpolled rfl
    have hconns : p.connections = s.links.connections := by
      funext r
      rcases hpolls.connections r with heq | ⟨hmem, -⟩
      · exact heq
      · rw [hnil] at hmem
        cases hmem
    rw [hconns]
    refine h.advance ⟨fun _ => rfl, hconnect, hstat⟩
      (fun x hx => h.ip2rank x (hpolls.rest hx)) (fun _ hr => hr) ?_ fun _ hr => .inl hr
    rintro r - (hr | hr)
    · rcases hpolls.moved r hr with hr | hr
      · exact .inl hr
      · rw [hnil] at hr
        cases hr
    · exact .inr hr
  next p hpolled =>
  obtain ⟨rfl, -⟩ := Prod.mk.inj (some.inj hnext)
  have hpolls := Polls.getSocketConn h.ip2rank hpolled
  refine h.advance ⟨live_of_isEmpty, fun _ => rfl, hstat⟩
    (fun x hx => h.ip2rank x (hpolls.rest hx)) ?_ ?_ ?_
  · rintro r ⟨c, hc⟩
    rcases hpolls.connections r with heq | ⟨-, -, c', -, hc', -⟩
    · exact ⟨c, heq.trans hc⟩
    · exact ⟨c', hc'⟩
  · rintro r - (hr | hr | ⟨hr, hcalled⟩ | ⟨c, hc, hest, hseen⟩)
    · rcases hpolls.moved r hr with hr | hr
      · exact .inl hr
      · exact .inr (.inl (mem_append_right _ hr))
    · exact .inr (.inl (mem_append_left _ hr))
    · refine .inr (.inr (.inl ⟨hr, ?_⟩))
      obtain ⟨c, hc, hqp, hcall⟩ := hcalled
      rcases hpolls.connections r with heq | ⟨-, c₁, c', hc₁, hc', hqp', hcall', -⟩
      · exact ⟨c, heq.trans hc, hqp, hcall⟩
      · obtain rfl := some.inj (hc.symm.trans hc₁)
        exact ⟨c', hc', by rwa [hqp'], hcall'.trans hcall⟩
    refine .inr (.inr (.inr ?_))
    rcases hpolls.connections r with heq | ⟨-, c₁, c', hc₁, hc', hqp', hcall', hstat'⟩
    · exact ⟨c, heq.trans hc, hest, hseen⟩
    obtain rfl := some.inj (hc.symm.trans hc₁)
    obtain ⟨hqp, hcall, hready⟩ := hest
    exact ⟨c', hc', ⟨by rwa [hqp'], hcall'.trans hcall, hstat'.trans hready⟩,
      hseen.trans hqp'.symm⟩
  rintro r ⟨c', hc', hr⟩
  rcases hpolls.connections r with heq | ⟨hmem, -⟩
  · exact .inl ⟨c', heq.symm.trans hc', hr⟩
  · exact .inr (.inr (.inl (mem_append_right _ hmem)))

theorem takeConnectTask (hnext : takeConnectTask m s = some s') : Inv m owner s' := by
  obtain ⟨⟨hrun, hhand, -, hrole⟩, rfl⟩ := of_guard hnext
  obtain ⟨hcur, hfirst, -, hsetting⟩ := h.owned
  refine ⟨⟨fun hne => absurd rfl hne, h.live.2⟩, ⟨hcur, nofun, hfirst, hsetting⟩, h.ip2rank,
    h.reached, ?_, h.apart, h.current, h.early, h.calls, fun _ => hrole⟩
  intro hrun r hr
  rcases h.wanted hrun r hr with (hmem | hmem) | hpast
  · exact .inl (.inr hmem)
  · rw [hhand] at hmem
    cases hmem
  · exact .inr hpast

end

theorem staged_of_same (hconn : l.connections r = s.links.connections r)
    (hseen : l.userQpInfo r = s.links.userQpInfo r) (hstaged : s.Staged r) :
    State.Staged { s with links := l } r := by
  rcases hstaged with hr | hr | ⟨hr, c, hc, hcalled⟩ | ⟨c, hc, hest, hsame⟩
  · exact .inl hr
  · exact .inr (.inl hr)
  · exact .inr (.inr (.inl ⟨hr, c, hconn.trans hc, hcalled⟩))
  · exact .inr (.inr (.inr ⟨c, hconn.trans hc, hest, hseen.trans hsame⟩))

theorem staged_of_opens (hopens : Opens remotes s.links l) (hr : s.links.Has r)
    (hstaged : s.Staged r) : State.Staged { s with links := l } r := by
  obtain ⟨c, hc⟩ := hr
  rcases hopens r with ⟨hconn, hseen⟩ | ⟨-, hnone, -⟩
  · exact staged_of_same hconn hseen hstaged
  · rw [hc] at hnone
    cases hnone

theorem mem_ip2rank {l : List (ℕ × ℕ)} (hl : ∀ x ∈ l, owner x.1 = x.2)
    (hremotes : Owned owner remotes) (hr : r ∈ keys remotes) :
    r ∈ (emplaceAll l (remotes.map fun x => (x.2.addr, x.1))).map Prod.snd := by
  obtain ⟨net, hnet⟩ := mem_keys_iff.mp hr
  have hkey : net.addr ∈ keys (emplaceAll l (remotes.map fun x => (x.2.addr, x.1))) := by
    rw [mem_keys_emplaceAll]
    exact .inr (mem_keys_of_mem (mem_map_of_mem hnet))
  obtain ⟨r', hr'⟩ := mem_keys_iff.mp hkey
  have howner : owner net.addr = r' := by
    rcases mem_of_mem_emplaceAll hr' with hmem | hmem
    · exact hl _ hmem
    obtain ⟨x, hx, heq⟩ := mem_map.mp hmem
    obtain ⟨haddr, hrank⟩ := Prod.mk.inj heq
    rw [← haddr, ← hrank]
    exact hremotes x hx
  obtain rfl : r = r' := (hremotes _ hnet).symm.trans howner
  exact mem_map_of_mem hr'

section

variable (h : Inv m owner s)
include h

theorem finishConnectTask {ans : ConnectAnswers} {failed : Bool}
    (hqueue : s.connectTask.items = []) (hok : m.role = .receiver → ans.ok = true)
    (hnext : finishConnectTask m s ans = some (s', failed)) : Inv m owner s' := by
  obtain ⟨hcur, hfirst, hhands, hsetting⟩ := h.owned
  rw [Bipartite.finishConnectTask] at hnext
  split at hnext
  · cases hnext
  next remotes hhand =>
  have hrole : m.role ≠ .peer := h.busy (by rw [hhand]; rfl)
  have hremotes : Owned owner remotes := by rwa [hhand] at hhands
  have hatFirst : ∀ {r}, s.AtFirst r → r ∈ keys remotes := by
    rintro r (hr | hr)
    · rw [hqueue] at hr
      cases hr
    · rwa [hhand] at hr
  obtain ⟨hopens, hhas, hnothing⟩ : Prepared m remotes s.links (prepare m ans remotes s.links) :=
    prepare_prepared hrole
  dsimp only at hnext
  split at hnext
  · -- nothing to do: all the ranks are past the first task
    next hnil =>
    obtain ⟨rfl, -⟩ := Prod.mk.inj (some.inj hnext)
    obtain ⟨hlinks, hreached⟩ := hnothing hnil
    rw [hlinks]
    refine { h with
      owned := ⟨hcur, hfirst, nofun, hsetting⟩, ip2rank := h.ip2rank, wanted := ?_, busy := nofun }
    intro hrun r hr
    refine .inr ?_
    rcases h.wanted hrun r hr with hr' | hpast
    · have hr' := hreached r (hatFirst hr')
      exact ⟨hr'.has, h.reached r (fun hmem => h.apart r hr (mem_removed hmem)) hr'⟩
    · exact hpast
  split at hnext
  · next hdone =>
    obtain ⟨rfl, -⟩ := Prod.mk.inj (some.inj hnext)
    have hforward : ∀ {r}, s.links.Has r → s.Staged r → State.Staged { s with
        links := (prepare m ans remotes s.links).1, hand := none
        connectTask := ⟨false, s.connectTask.items⟩
        queryConnectTask := ⟨true, emplaceAll s.queryConnectTask.items
          (remotes.map fun x => (x.2.addr, x.1))⟩ } r := by
      intro r hr hstaged
      rcases staged_of_opens hopens hr hstaged with hmem | hrest
      · obtain ⟨x, hx, rfl⟩ := mem_map.mp hmem
        exact .inl (mem_map_of_mem (mem_emplaceAll_of_mem hx))
      · exact .inr hrest
    refine ⟨⟨fun hne => absurd hqueue hne, fun _ => rfl, h.live.2.2⟩,
      ⟨hcur, hfirst, nofun, hsetting⟩, ?_, ?_, ?_, h.apart, h.current, h.early, h.calls,
      nofun⟩
    · intro x hx
      rcases mem_of_mem_emplaceAll hx with hx | hx
      · exact h.ip2rank x hx
      · obtain ⟨y, hy, rfl⟩ := mem_map.mp hx
        exact hremotes y hy
    · rintro r hclosed ⟨c, hc, hr⟩
      rcases hopens r with ⟨hconn, -⟩ | ⟨hmem, -⟩
      · have hreached : s.links.Reached m r := ⟨c, hconn.symm.trans hc, hr⟩
        exact hforward hreached.has (h.reached r hclosed hreached)
      · exact .inl (mem_ip2rank h.ip2rank hremotes hmem)
    intro hrun r hr
    refine .inr ?_
    rcases h.wanted hrun r hr with hr' | ⟨hhas, hstaged⟩
    · exact ⟨hhas hdone.1 r (hatFirst hr'), .inl (mem_ip2rank h.ip2rank hremotes (hatFirst hr'))⟩
    · exact ⟨hopens.has hhas, hforward hhas hstaged⟩
  next hfail =>
  obtain ⟨rfl, -⟩ := Prod.mk.inj (some.inj hnext)
  -- only a sender fails, and its new connections have no sockets
  have hrecv : m.role ≠ .receiver := by
    intro hrecv
    refine hfail ⟨?_, hok hrecv⟩
    rw [prepare, hrecv]
    rfl
  refine ⟨⟨fun _ => rfl, h.live.2⟩, ⟨hcur, hremotes, nofun, hsetting⟩, h.ip2rank, ?_, ?_,
    h.apart, h.current, h.early, h.calls, nofun⟩
  · rintro r hclosed ⟨c, hc, hr⟩
    rcases hopens r with ⟨hconn, -⟩ | ⟨-, -, c', hc', hfd⟩
    · have hreached : s.links.Reached m r := ⟨c, hconn.symm.trans hc, hr⟩
      exact staged_of_opens hopens hreached.has (h.reached r hclosed hreached)
    obtain rfl := some.inj (hc.symm.trans hc')
    rw [hfd] at hr
    exact absurd hr (by simp [hrecv])
  intro hrun r hr
  rcases h.wanted hrun r hr with hr' | ⟨hhas, hstaged⟩
  · exact .inl (.inl (hatFirst hr'))
  · exact .inr ⟨hopens.has hhas, staged_of_opens hopens hhas hstaged⟩

/-! ### The calls keep the invariant -/

theorem genTaskFromChangeRanks (hnext : genTaskFromChangeRanks s = some s') : Inv m owner s' := by
  obtain ⟨hcur, hfirst, hhands, hsetting⟩ := h.owned
  rw [Bipartite.genTaskFromChangeRanks] at hnext
  split at hnext
  · cases hnext
  next added hadded =>
  obtain rfl := some.inj hnext
  have hrem := h.calls (by rw [hadded]; rfl)
  have hnone : s.removed = [] := by rw [State.removed, hrem]; rfl
  rw [hadded] at hsetting
  refine ⟨⟨live_of_isEmpty, h.live.2⟩, ⟨hcur, ?_, hhands, nofun⟩, h.ip2rank, h.reached,
    ?_, ?_, ?_, ?_, nofun, h.busy⟩
  · intro x hx
    rcases mem_of_mem_emplaceAll hx with hx | hx
    · exact hfirst x hx
    · exact hsetting x hx
  · intro hrun r hr
    have hmono : s.AtFirst r → r ∈ keys (emplaceAll s.connectTask.items added) ∨
        r ∈ keys (s.hand.getD []) :=
      Or.imp_left fun hr => mem_keys_emplaceAll.mpr (.inl hr)
    have hwanted : r ∈ s.wanted → _ := fun hr => (h.wanted hrun r hr).imp_left hmono
    rcases mem_append.mp hr with hr | hr
    · exact hwanted hr
    rcases h.current r hr with hr | hr | hr
    · exact hwanted hr
    · rw [hadded] at hr
      exact .inl (.inl (mem_keys_emplaceAll.mpr (.inr hr)))
    · rw [hnone] at hr
      cases hr
  · intro r _ hr
    have hr : r ∈ s.removed := hr
    rw [hnone] at hr
    cases hr
  · exact fun r hr => .inl (mem_append_right _ hr)
  intro hrun r hr
  rcases mem_append.mp hr with hr | hr
  · exact h.early hrun r hr
  · exact hr

theorem startup {ok : Bool} (hnext : startup m s ok = some s') : Inv m owner s' := by
  obtain ⟨hcur, hfirst, hhands, hsetting⟩ := h.owned
  rw [Bipartite.startup] at hnext
  split at hnext
  · cases hnext
  split at hnext
  · obtain rfl := some.inj hnext
    exact h
  next hrun =>
  split at hnext
  · obtain rfl := some.inj hnext
    exact h
  obtain rfl := some.inj hnext
  refine ⟨⟨fun _ => rfl, h.live.2⟩, ⟨hcur, ?_, hhands, hsetting⟩, h.ip2rank, h.reached,
    ?_, h.apart, h.current, nofun, h.calls, h.busy⟩
  · intro x hx
    rcases mem_of_mem_emplaceAll hx with hx | hx
    · exact hfirst x hx
    · exact hcur x hx
  · intro _ r hr
    have hr := h.early (Bool.eq_false_iff.mpr hrun) r hr
    exact .inl (.inl (mem_keys_emplaceAll.mpr (.inr hr)))

theorem setRemoteRankInfo {ranks : List (ℕ × Role × Net)}
    (howned : ∀ x ∈ tempRanks m ranks, owner x.2.addr = x.1)
    (hearly : s.running = false → ∀ r ∈ s.wanted, r ∈ keys (tempRanks m ranks))
    (hnext : setRemoteRankInfo m s ranks = some s') : Inv m owner s' := by
  obtain ⟨hcur, hfirst, hhands, hsetting⟩ := h.owned
  rw [Bipartite.setRemoteRankInfo] at hnext
  split at hnext
  · cases hnext
  next hfree =>
  simp only [not_or, not_isSome_iff_eq_none] at hfree
  obtain ⟨hset, hrem, -⟩ := hfree
  have hnone : s.removed = [] := by rw [State.removed, hrem]; rfl
  split at hnext
  · obtain rfl := some.inj hnext
    exact h
  split at hnext
  · next hrun =>
    obtain rfl := some.inj hnext
    refine ⟨h.live, ⟨howned, hfirst, hhands, fun x hx => howned x (mem_filter.mp hx).1⟩,
      h.ip2rank, h.reached, h.wanted, h.apart, ?_, ?_, fun _ => hrem, h.busy⟩
    · intro r hr
      by_cases hlast : r ∈ keys s.currentRanksInfo
      · rcases h.current r hlast with hr | hr | hr
        · exact .inl hr
        · rw [hset] at hr
          cases hr
        · exact .inr (.inr hr)
      · obtain ⟨net, hnet⟩ := mem_keys_iff.mp hr
        exact .inr (.inl (mem_keys_of_mem (mem_filter.mpr ⟨hnet, by simpa using hlast⟩)))
    · intro hrun'
      exact absurd (hrun.symm.trans hrun') (by decide)
  next hrun =>
  obtain rfl := some.inj hnext
  have hrun := Bool.eq_false_iff.mpr hrun
  refine ⟨h.live, ⟨howned, hfirst, hhands, hsetting⟩, h.ip2rank, h.reached, ?_, ?_, ?_, ?_,
    h.calls, h.busy⟩
  · intro hrun'
    exact absurd (hrun'.symm.trans hrun) (by decide)
  · intro r _ hr
    have hr : r ∈ s.removed := hr
    rw [hnone] at hr
    cases hr
  · exact fun r hr => .inl (mem_append_right _ hr)
  intro _ r hr
  rcases mem_append.mp hr with hr | hr
  · exact hearly hrun r hr
  · exact hr

theorem removeRanks {ranks : List ℕ} (hnext : removeRanks s ranks = some s') : Inv m owner s' := by
  rw [Bipartite.removeRanks] at hnext
  split at hnext
  · cases hnext
  next hfree =>
  simp only [not_or, not_isSome_iff_eq_none] at hfree
  obtain ⟨hset, hrem⟩ := hfree
  have hclosed : s.closed = [] := by rw [State.closed, hrem]; rfl
  have hnone : s.removed = [] := by rw [State.removed, hrem]; rfl
  obtain rfl := some.inj hnext
  refine ⟨h.live, h.owned, h.ip2rank, ?_, ?_, ?_, ?_, ?_, ?_, h.busy⟩
  · intro r _ hr
    refine h.reached r ?_ hr
    rw [hclosed]
    exact not_mem_nil
  · exact fun hrun r hr => h.wanted hrun r (mem_filter.mp hr).1
  · intro r hr hr'
    have hr' : r ∈ ranks ++ [] := hr'
    rw [append_nil] at hr'
    simpa [hr'] using (mem_filter.mp hr).2
  · intro r hr
    by_cases hmem : r ∈ ranks
    · exact .inr (.inr (mem_append_left _ hmem))
    rcases h.current r hr with hr | hr | hr
    · exact .inl (mem_filter.mpr ⟨hr, by simpa using hmem⟩)
    · exact .inr (.inl hr)
    · rw [hnone] at hr
      cases hr
  · exact fun hrun r hr => h.early hrun r (mem_filter.mp hr).1
  intro hsome
  have hsome : s.setting.isSome := hsome
  rw [hset] at hsome
  cases hsome

theorem removal (hnext : removal s = some s') : Inv m owner s' := by
  obtain ⟨hcur, hfirst, hhands, hsetting⟩ := h.owned
  rw [Bipartite.removal] at hnext
  split at hnext
  · cases hnext
  split at hnext
  · cases hnext
  · next r todo closed hrem =>
    obtain rfl := some.inj hnext
    have hmem : ∀ {r'}, r' ∈ s.removed ↔ r' ∈ todo ++ r :: closed := by
      intro r'
      simp [State.removed, hrem]
      tauto
    have hothers : ∀ {r'}, r' ≠ r → (s.links.close r).connections r' = s.links.connections r' ∧
          (s.links.close r).userQpInfo r' = s.links.userQpInfo r' :=
      fun hne => ⟨update_of_ne hne _ _, update_of_ne hne _ _⟩
    refine ⟨h.live, h.owned, h.ip2rank, ?_, ?_, ?_, ?_, h.early, ?_, h.busy⟩
    · rintro r' hclosed ⟨c, hc, hr⟩
      have hclosed : r' ∉ r :: closed := hclosed
      obtain ⟨hne, hnot⟩ := ne_and_not_mem_of_not_mem_cons hclosed
      obtain ⟨hconn, hseen⟩ := hothers hne
      refine staged_of_same hconn hseen (h.reached r' ?_ ⟨c, hconn.symm.trans hc, hr⟩)
      simpa [State.closed, hrem] using hnot
    · intro hrun r' hr'
      have hne : r' ≠ r := by
        rintro rfl
        exact h.apart r' hr' (hmem.mpr (mem_append_right _ mem_cons_self))
      obtain ⟨hconn, hseen⟩ := hothers hne
      refine (h.wanted hrun r' hr').imp_right fun ⟨⟨c, hc⟩, hstaged⟩ => ?_
      exact ⟨⟨c, hconn.trans hc⟩, staged_of_same hconn hseen hstaged⟩
    · exact fun r' hr' hmem' => h.apart r' hr' (hmem.mpr hmem')
    · exact fun r' hr' => (h.current r' hr').imp_right (Or.imp_right hmem.mp)
    · intro hsome
      rw [h.calls hsome] at hrem
      cases hrem
  next closed hrem =>
  obtain rfl := some.inj hnext
  have hclosed : s.closed = closed := by rw [State.closed, hrem]; rfl
  have hremoved : s.removed = closed := by rw [State.removed, hrem]; rfl
  refine ⟨h.live, ⟨fun x hx => hcur x (mem_filter.mp hx).1, hfirst, hhands, hsetting⟩,
    h.ip2rank, ?_, ?_, nofun, ?_, ?_, fun _ => rfl, h.busy⟩
  · rintro r' - ⟨c, hc, hr⟩
    have hc : (if r' ∈ closed then none else s.links.connections r') = some c := hc
    split at hc
    · cases hc
    · next hnot =>
      exact staged_of_same (if_neg hnot) rfl (h.reached r' (by rwa [hclosed]) ⟨c, hc, hr⟩)
  · intro hrun r' hr'
    have hnot : r' ∉ closed := hremoved ▸ h.apart r' hr'
    refine (h.wanted hrun r' hr').imp_right fun ⟨⟨c, hc⟩, hstaged⟩ => ?_
    exact ⟨⟨c, (if_neg hnot).trans hc⟩, staged_of_same (if_neg hnot) rfl hstaged⟩
  · intro r' hr'
    obtain ⟨net, hnet⟩ := mem_keys_iff.mp hr'
    obtain ⟨hnet, hnot⟩ := mem_filter.mp hnet
    rcases h.current r' (mem_keys_of_mem hnet) with hr | hr | hr
    · exact .inl hr
    · exact .inr (.inl hr)
    · rw [hremoved] at hr
      exact absurd hr (by simpa using hnot)
  intro hrun r' hr'
  have hnot : r' ∉ closed := hremoved ▸ h.apart r' hr'
  obtain ⟨net, hnet⟩ := mem_keys_iff.mp (h.early hrun r' hr')
  exact mem_keys_of_mem (mem_filter.mpr ⟨hnet, by simpa using hnot⟩)

theorem retries : Retries m (Orderly m owner) s := by
  intro a s' hok hstep r hr
  cases a with
  | finishConnectTask ans =>
    rw [step, Bipartite.finishConnectTask] at hstep
    split at hstep
    · cases hstep
    next remotes hhand =>
    dsimp only at hstep
    split at hstep
    · cases hstep
    split at hstep
    · cases hstep
    obtain ⟨rfl, -⟩ := Prod.mk.inj (some.inj hstep)
    rw [taken, hhand] at hr
    exact ⟨rfl, hr⟩
  | processQueryConnectionStateTask answers =>
    obtain ⟨-, hstep⟩ := ite_none_right_eq_some.mp hstep
    rw [Bipartite.processQueryConnectionStateTask] at hstep
    split at hstep
    · cases hstep
    split at hstep
    · cases hstep
    · next p hpolled =>
      obtain ⟨rfl, -⟩ := Prod.mk.inj (some.inj hstep)
      refine ⟨rfl, ?_⟩
      rcases (Polls.getSocketConn h.ip2rank hpolled).moved r hr with hmem | hmem
      · exact hmem
      have hnil : p.connected = [] := hok _ hpolled rfl
      rw [hnil] at hmem
      cases hmem
    · cases hstep
  | processConnectQpTask ans =>
    obtain ⟨-, hstep⟩ := ite_none_right_eq_some.mp hstep
    rw [Bipartite.processConnectQpTask] at hstep
    split at hstep
    · cases hstep
    obtain ⟨rfl, hfail⟩ := Prod.mk.inj (some.inj hstep)
    rw [InTaskOf, Task.Has, hfail, List.map_id]
    exact ⟨rfl, hr⟩
  | processQueryQpStateTask ans =>
    obtain ⟨-, hstep⟩ := ite_none_right_eq_some.mp hstep
    rw [Bipartite.processQueryQpStateTask] at hstep
    split at hstep
    · cases hstep
    dsimp only at hstep
    obtain ⟨rfl, hfail⟩ := Prod.mk.inj (some.inj hstep)
    refine live_of_isEmpty.has ?_
    rw [List.map_id]
    exact (queryQps_queried (Subset.refl _) (nil_subset _)).failed hfail hr
  | setRemoteRankInfo ranks | genTaskFromChangeRanks | startup ok | removeRanks ranks | removal
  | takeConnectTask => nomatch hr

theorem next {a : BipartiteStep} (hok : Orderly m owner s a)
    (hnext : (bipartiteSystem m).next s a = some s') : Inv m owner s' := by
  obtain ⟨⟨s', failed⟩, hstep, rfl⟩ := map_eq_some_iff.mp hnext
  -- a call of the manager does not fail in the library
  have hcall : ∀ {o : Option State}, o.map (·, false) = some (s', failed) → o = some s' := by
    intro o ho
    obtain ⟨t, ht, heq⟩ := map_eq_some_iff.mp ho
    rw [ht, (Prod.mk.inj heq).1]
  cases a with
  | setRemoteRankInfo ranks => exact h.setRemoteRankInfo hok.1 hok.2 (hcall hstep)
  | genTaskFromChangeRanks => exact h.genTaskFromChangeRanks (hcall hstep)
  | startup ok => exact h.startup (hcall hstep)
  | removeRanks ranks => exact h.removeRanks (hcall hstep)
  | removal => exact h.removal (hcall hstep)
  | takeConnectTask => exact h.takeConnectTask (hcall hstep)
  | finishConnectTask ans => exact h.finishConnectTask hok.1 hok.2 hstep
  | processQueryConnectionStateTask answers =>
    obtain ⟨-, hstep⟩ := ite_none_right_eq_some.mp hstep
    exact h.processQueryConnectionStateTask hok hstep
  | processConnectQpTask ans =>
    obtain ⟨-, hstep⟩ := ite_none_right_eq_some.mp hstep
    have hs' : (Bipartite.processConnectQpTask s ans).1 = s' := by rw [some.inj hstep]
    exact hs' ▸ h.processConnectQpTask ans
  | processQueryQpStateTask ans =>
    obtain ⟨-, hstep⟩ := ite_none_right_eq_some.mp hstep
    have hs' : (Bipartite.processQueryQpStateTask s ans).1 = s' := by rw [some.inj hstep]
    exact hs' ▸ h.processQueryQpStateTask ans

end

end Inv

/-! ### Runs -/

/-- In every state of an orderly run every wanted rank is in a task or connected, and a step that
fails has its ranks in its task again. -/
theorem conserved_of_orderly (h : (bipartiteSystem m).ReachableBy (Orderly m owner) s) :
    Conserved s ∧ Retries m (Orderly m owner) s := by
  have hinv : Inv m owner s := h.invariant inv_start fun hinv hok hnext => hinv.next hok hnext
  exact ⟨hinv.conserved, hinv.retries⟩

/-- What can be seen of the rank 1: whether it is wanted, the tasks it is in, and its connection. -/
def seen (s : State) : Bool × List Bool × Option ℕ :=
  (s.running && s.hand.isNone && s.wanted.contains 1,
    [(keys s.connectTask.items).contains 1, (s.queryConnectTask.items.map Prod.snd).contains 1,
      s.connectQpTask.items.contains 1, s.queryQpStateTask.items.contains 1],
    (s.links.connections 1).bind ConnectionChannel.qpHandle)

def receiver : Manager := ⟨.receiver, 2, 7⟩

def setSender : List BipartiteStep :=
  [.startup true, .setRemoteRankInfo [(1, .sender, ⟨3, 80⟩)], .genTaskFromChangeRanks]

/-- The status of the queue pair is not ready at first, and the next call for it fails. -/
theorem conserved_after_retries :
    ∃ s, (bipartiteSystem receiver).ReachableBy (Orderly receiver fun _ => 1) s ∧
      seen s = (true, [false, false, false, true], some 9) ∧
      Conserved s ∧ Retries receiver (Orderly receiver fun _ => 1) s := by
  refine TransitionSystem.exists_reachableBy (setSender ++ [.takeConnectTask, .finishConnectTask {},
    .processQueryConnectionStateTask [{}, { cnt := 1, sockets := [(1, some 5)] }],
    .processConnectQpTask fun _ => {}, .processConnectQpTask fun _ => { qp := some 9 },
    .processQueryQpStateTask fun _ => {}, .processQueryQpStateTask fun _ => { ok := false }]) seen
    (true, [false, false, false, true], some 9) ?_ fun s hreach hseen => ?_
  · decide +kernel
  exact ⟨hseen, conserved_of_orderly hreach⟩

/-- A white list call fails and the rank is queued again, but the next step finds its connection
already there, and drops it. -/
theorem whitelist_failure_drops_rank :
    ∃ s, (bipartiteSystem receiver).Reachable s ∧
      seen s = (true, [false, false, false, false], none) ∧ ¬ Conserved s := by
  refine TransitionSystem.exists_reachable (setSender ++ [.takeConnectTask, .finishConnectTask { ok
    := false }, .takeConnectTask, .finishConnectTask {}]) seen (true, [false, false, false, false],
    none) ?_ fun s _ hseen => ?_
  · decide +kernel
  refine ⟨hseen, fun hconserved => ?_⟩
  simp only [seen, Prod.mk.injEq, Bool.and_eq_true, cons.injEq, contains_eq_mem,
    decide_eq_true_eq, decide_eq_false_iff_not, isNone_iff_eq_none] at hseen
  obtain ⟨⟨⟨hrun, hhand⟩, hwanted⟩, ⟨hfirst, hquery, hconnect, hstat, -⟩, hqp⟩ := hseen
  rcases hconserved hrun hhand 1 hwanted with h | h | h | h | ⟨c, hc, hest, -⟩
  · exact hfirst h.2
  · exact hquery h.2
  · exact hconnect (by simpa using h.2)
  · exact hstat (by simpa using h.2)
  rw [hc, bind_some] at hqp
  have hsome := hest.1
  rw [hqp] at hsome
  cases hsome

end Hybm.Bipartite
