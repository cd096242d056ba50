/-
The requests of `JoinableRanksQpManager`.

`SetRemoteRankInfo` and `RemoveRanks` leave their ranks in sets, which the server loop works off
for the ranks above the own one, and the client loop for those below.  An iteration copies the
new ranks and moves the removed ones out under `mutex_`, and goes on without it: it connects the
new ranks, takes those with a ready queue pair out of the set, and zeroes the connections of the
removed ones.  A step is what a loop does for one rank, one batch or one poll, so that a request
may come at any point; the device library answers as it likes.
-/
import MemFabric.QpChannels
import MemFabric.Transition

namespace Hybm.Joinable

open List Function Option

/-! ### Data -/

/-- `emplace` of a `std::set`, which is the list of its elements in their order. -/
def emplace (r : ℕ) (ranks : List ℕ) : List ℕ :=
  if r ∈ ranks then ranks else ranks.orderedInsert (· ≤ ·) r

theorem mem_emplace {r a : ℕ} {ranks : List ℕ} : a ∈ emplace r ranks ↔ a = r ∨ a ∈ ranks := by
  rw [emplace]
  split
  · next hr =>
    constructor
    · exact .inr
    rintro (rfl | ha)
    · exact hr
    · exact ha
  · exact mem_orderedInsert _

/-- The two loops. -/
inductive Side
  | server
  | client
  deriving DecidableEq

def emplaceIn (sets : Side → List ℕ) (side : Side) (r : ℕ) : Side → List ℕ :=
  update sets side (emplace r (sets side))

theorem mem_emplaceIn {sets : Side → List ℕ} {side side' : Side} {r a : ℕ} :
    a ∈ emplaceIn sets side r side' ↔ (a = r ∧ side' = side) ∨ a ∈ sets side' := by
  rw [emplaceIn]
  by_cases hside : side' = side
  · subst hside
    rw [update_self, mem_emplace]
    simp
  · rw [update_of_ne hside]
    simp [hside]

structure Manager where
  rankId : ℕ
  rankCount : ℕ
  serverSocketHandle : ℕ

namespace Manager

variable (m : Manager)

def sideOf (r : ℕ) : Side := if r < m.rankId then .client else .server

def Peer (r : ℕ) : Prop := r ≠ m.rankId ∧ r < m.rankCount

instance (r : ℕ) : Decidable (m.Peer r) := by
  unfold Peer
  infer_instance

end Manager

/-- What the device library answers in a step; a call looks at its own fields.  `ok` is
whether `RaSocketWhiteListAdd`, `RaSocketBatchConnect`, `RaGetSockets`, `RaQpConnectAsync` or
`RaGetQpStatus` returns 0, and `memory` whether there is any for a `UserQpInfo`. -/
structure Answers where
  ok : Bool := true
  socket : Option ℕ := none
  cnt : ℕ := 0
  sockets : List (ℕ × Option ℕ) := []
  memory : Bool := true
  qp : Option ℕ := none
  status : ℤ := 0

/-! ### Connecting the new ranks -/

/-- Where an iteration stands. -/
inductive Phase
  | waiting
  | address (todo : List ℕ) (infos : List Net)
  | announce (infos : List Net)
  | collect (todo : List ℕ) (infos : List SocketInfo) (addr2rank : List (ℕ × ℕ))
  | poll (infos : List SocketInfo) (addr2rank : List (ℕ × ℕ))
  | make (todo : List ℕ)
  | query (todo : List ℕ) (finished : List ℕ)
  | remove

/-- The connections by rank, as `connections_` has them. -/
abbrev Connections := ℕ → ConnectionChannel

section Connecting

variable (m : Manager)

/-- One round of the loops of `GenerateWhiteList` and `CreateConnectionToServers`, which refuse
different ranks and have the socket handle from different places. -/
def addressRank (refused : Bool) (handle : Option ℕ) (c : ConnectionChannel) :
    Option (ConnectionChannel × List Net) :=
  if refused then none
  else if c.remoteNet.addr = 0 then none
  else if c.socketHandle.isSome then some (c, [])
  else
    match handle with
    | none => none
    | some h => some ({ c with socketHandle := some h }, [c.remoteNet])

def generateWhiteList (r : ℕ) (c : ConnectionChannel) : Option (ConnectionChannel × List Net) :=
  addressRank (r ≤ m.rankId || m.rankCount ≤ r) (some m.serverSocketHandle) c

/-- `socket` is the answer of `CreateLocalSocket`. -/
def createConnectionToServers (socket : Option ℕ) (r : ℕ) (c : ConnectionChannel) :
    Option (ConnectionChannel × List Net) :=
  addressRank (m.rankId ≤ r) socket c

def Side.address (socket : Option ℕ) (r : ℕ) (c : ConnectionChannel) :
    Side → Option (ConnectionChannel × List Net)
  | .server => generateWhiteList m r c
  | .client => createConnectionToServers m socket r c

/-- The server side gives up for this iteration, the client side goes on. -/
def Side.afterAddressFailed (newRanks : List ℕ) : Side → Phase
  | .server => .remove
  | .client => .collect newRanks [] []

def Side.afterWaitFailed (newRanks : List ℕ) : Side → Phase
  | .server => .remove
  | .client => .make newRanks

/-- One round of the loop over the sockets in `WaitSocketConnections`. -/
def takeSocket (addr2rank : List (ℕ × ℕ)) (conns : Connections) (info : SocketInfo) : Connections :=
  if info.status ≠ 1 then conns
  else
    match addr2rank.lookup info.remoteIp with
    | none => conns
    | some r =>
      if m.rankCount ≤ r then conns
      else if (conns r).socketFd.isSome then conns
      else update conns r { conns r with socketFd := info.fd }

/-- One round of `MakeQpConnections`; without memory there is none, and no further round. -/
def makeQpConnection (ans : Answers) (c : ConnectionChannel) : Option ConnectionChannel :=
  if c.socketFd.isNone then some c
  else
    match c.qpHandle with
    | some _ => some (connectAsync c)
    | none =>
      if !ans.memory then none
      else
        match ans.qp with
        | none => some c
        | some qp => some (connectAsync { c with qpHandle := some qp, qpConnectCalled := false })
where
  connectAsync (c : ConnectionChannel) : ConnectionChannel :=
    if c.qpConnectCalled then c
    else if ans.ok then { c with qpConnectCalled := true }
    else c

/-- One round of `WaitQpConnections`: the connection, and whether it is finished. -/
def waitQpConnection (ans : Answers) (c : ConnectionChannel) : ConnectionChannel × Bool :=
  if c.qpHandle.isNone || !c.qpConnectCalled then (c, false)
  else if c.qpStatus = 1 then (c, true)
  else ({ c with qpStatus := ans.status }, ans.ok && ans.status == 1)

/-- The steps of an iteration between the two critical sections. -/
def connectStep (side : Side) (ans : Answers) (newRanks : List ℕ) (conns : Connections) :
    Phase → Connections × Phase
  | .address [] infos =>
    (conns, if infos.isEmpty then .collect newRanks [] [] else .announce infos)
  | .address (r :: todo) infos =>
    match side.address m ans.socket r (conns r) with
    | none => (conns, side.afterAddressFailed newRanks)
    | some (c, more) => (update conns r c, .address todo (infos ++ more))
  | .announce infos =>
    if ans.ok then
      (conns, if (infos.drop batchCnt).isEmpty then .collect newRanks [] []
        else .announce (infos.drop batchCnt))
    else (conns, side.afterAddressFailed newRanks)
  | .collect [] infos addr2rank =>
    (conns, if infos.isEmpty then .make newRanks else .poll infos addr2rank)
  | .collect (r :: todo) infos addr2rank =>
    if (conns r).remoteNet.addr = 0 ∨ (conns r).socketFd.isSome then
      (conns, .collect todo infos addr2rank)
    else
      -- `emplace`: for one address the first rank stays, as `lookup` has it
      (conns, .collect todo (infos ++ [⟨(conns r).socketHandle, (conns r).remoteNet.addr, 0, none⟩])
        (addr2rank ++ [((conns r).remoteNet.addr, r)]))
  | .poll infos addr2rank =>
    let infos := SocketInfo.answered (infos.take batchCnt) ans.sockets ++ infos.drop batchCnt
    if !ans.ok then (conns, side.afterWaitFailed newRanks)
    else if ans.cnt = 0 then (conns, .poll infos addr2rank)
    else
      let rest := infos.filter fun info => info.status ≠ 1
      ((infos.take batchCnt).foldl (takeSocket m addr2rank) conns,
        if rest.isEmpty then .make newRanks else .poll rest addr2rank)
  | .make [] => (conns, .query newRanks [])
  | .make (r :: todo) =>
    match makeQpConnection ans (conns r) with
    | none => (conns, .query newRanks [])
    | some c => (update conns r c, .make todo)
  | .query (r :: todo) finished =>
    let next := waitQpConnection ans (conns r)
    (update conns r next.1, .query todo (if next.2 then finished ++ [r] else finished))
  | phase => (conns, phase)

end Connecting

/-! ### The manager -/

inductive Request
  | set
  | remove
  deriving DecidableEq

/-- An iteration: what it has copied, and what is left of what it has moved out. -/
structure Loop where
  phase : Phase
  newRanks : List ℕ
  removedRanks : List ℕ

def Loop.goto (loop : Loop) (phase : Phase) : Loop := { loop with phase := phase }

/-- `newRanks` is `newClients_` for the server side and `newServers_` for the client side, and
`removedRanks` likewise; `lastRequest` records the requests. -/
structure QpManager where
  connections : Connections
  newRanks : Side → List ℕ
  removedRanks : Side → List ℕ
  loop : Side → Loop
  lastRequest : ℕ → Option Request

namespace QpManager

def start : QpManager where
  connections _ := {}
  newRanks _ := []
  removedRanks _ := []
  loop _ := ⟨.waiting, [], []⟩
  lastRequest _ := none

variable (m : Manager) (s : QpManager)

/-- One round of `SetRemoteRankInfo`. -/
def setRank (r : ℕ) (net : Net) : QpManager :=
  if m.rankCount ≤ r then s
  else { s with
    connections := update s.connections r ((s.connections r).withNet net)
    newRanks := if r = m.rankId then s.newRanks else emplaceIn s.newRanks (m.sideOf r) r
    lastRequest := update s.lastRequest r (some .set) }

def setRemoteRankInfo (ranks : List (ℕ × Net)) : QpManager :=
  ranks.foldl (fun s x => s.setRank m x.1 x.2) s

/-- One round of `RemoveRanks`. -/
def removeRank (r : ℕ) : QpManager :=
  { s with
    removedRanks := emplaceIn s.removedRanks (m.sideOf r) r
    lastRequest := update s.lastRequest r (some .remove) }

def removeRanks (ranks : List ℕ) : QpManager := ranks.foldl (fun s r => s.removeRank m r) s

/-- The critical section at the head of `ServerSideRunLoop` and `ClientSideRunLoop`. -/
def beginIteration (side : Side) : QpManager :=
  { s with
    removedRanks := update s.removedRanks side []
    loop := update s.loop side
      ⟨if (s.newRanks side).isEmpty then .remove else .address (s.newRanks side) [],
        s.newRanks side, s.removedRanks side⟩ }

/-- The critical section at the end of `WaitQpConnections`. -/
def eraseFinished (side : Side) (finished : List ℕ) : QpManager :=
  { s with
    newRanks := fun side' =>
      (s.newRanks side').filter fun r => !(finished.contains r && m.sideOf r == side')
    loop := update s.loop side ((s.loop side).goto .remove) }

/-- One round of the first loop of `RemoveRanksProcess`. -/
def removeProcess (side : Side) : QpManager :=
  match (s.loop side).removedRanks with
  | [] => { s with loop := update s.loop side ((s.loop side).goto .waiting) }
  | r :: rest => { s with
      connections :=
        if m.rankCount ≤ r ∨ r = m.rankId then s.connections
        else update s.connections r .zero
      loop := update s.loop side ⟨.remove, (s.loop side).newRanks, rest⟩ }

def iterate (side : Side) (ans : Answers) : QpManager :=
  match (s.loop side).phase with
  | .waiting => s.beginIteration side
  | .query [] finished => s.eraseFinished m side finished
  | .remove => s.removeProcess m side
  | phase =>
    let next := connectStep m side ans (s.loop side).newRanks s.connections phase
    { s with
      connections := next.1
      loop := update s.loop side ((s.loop side).goto next.2) }

end QpManager

inductive JoinableStep
  | setRemoteRankInfo (ranks : List (ℕ × Net))
  | removeRanks (ranks : List ℕ)
  | iterate (side : Side) (ans : Answers)

def joinableSystem (m : Manager) : TransitionSystem QpManager JoinableStep where
  start := .start
  next s
    | .setRemoteRankInfo ranks => some (s.setRemoteRankInfo m ranks)
    | .removeRanks ranks => some (s.removeRanks m ranks)
    | .iterate side ans => some (s.iterate m side ans)

/-! ### The property -/

def QpManager.IsNew (s : QpManager) (r : ℕ) : Prop :=
  r ∈ s.newRanks .server ∨ r ∈ s.newRanks .client

def QpManager.Pending (s : QpManager) (r : ℕ) : Prop :=
  (r ∈ s.removedRanks .server ∨ r ∈ (s.loop .server).removedRanks) ∨
    r ∈ s.removedRanks .client ∨ r ∈ (s.loop .client).removedRanks

instance (s : QpManager) (r : ℕ) : Decidable (s.IsNew r) := by
  unfold QpManager.IsNew
  infer_instance

instance (s : QpManager) (r : ℕ) : Decidable (s.Pending r) := by
  unfold QpManager.Pending
  infer_instance

/-- The last request wins: a rank that was set is still to be connected, or connected with nothing
to the contrary pending; of a removed rank nothing is left, once the removal is processed. -/
structure NeverForgets (m : Manager) (s : QpManager) : Prop where
  wanted : ∀ r, m.Peer r → s.lastRequest r = some .set →
    s.IsNew r ∨ ((s.connections r).Established ∧ ¬ s.Pending r)
  removed : ∀ r, m.Peer r → s.lastRequest r = some .remove → ¬ s.Pending r →
    s.connections r = .zero ∧ ¬ s.IsNew r

/-- A rank is set only when no removal of it is pending, and removed only when it is not about
to be connected. -/
def Settled (m : Manager) (s : QpManager) : JoinableStep → Prop
  | .setRemoteRankInfo ranks => ∀ x ∈ ranks, m.Peer x.1 → ¬ s.Pending x.1
  | .removeRanks ranks => ∀ r ∈ ranks, m.Peer r → ¬ s.IsNew r
  | .iterate _ _ => True

instance (m : Manager) (s : QpManager) (step : JoinableStep) : Decidable (Settled m s step) := by
  unfold Settled
  split <;> infer_instance

/-! ### What connecting may change -/

variable {m : Manager} {s : QpManager} {r : ℕ} {side : Side} {ans : Answers}
  {conns conns' conns'' : Connections} {copy : List ℕ} {phase : Phase}

/-- Only the ranks that an iteration has copied change, and no established queue pair is lost. -/
structure Touches (copy : List ℕ) (conns conns' : Connections) : Prop where
  others : ∀ r, r ∉ copy → conns' r = conns r
  kept : ∀ r, (conns r).Established → (conns' r).Established

namespace Touches

theorem refl (copy : List ℕ) (conns : Connections) : Touches copy conns conns :=
  ⟨fun _ _ => rfl, fun _ h => h⟩

theorem trans (h : Touches copy conns conns') (h' : Touches copy conns' conns'') :
    Touches copy conns conns'' :=
  ⟨fun r hr => (h'.others r hr).trans (h.others r hr), fun r hr => h'.kept r (h.kept r hr)⟩

theorem update (hr : r ∈ copy) {c : ConnectionChannel}
    (hc : (conns r).Established → c.Established) :
    Touches copy conns (update conns r c) := by
  refine ⟨fun r' hr' => ?_, fun r' h => ?_⟩
  · have hne : r' ≠ r := by
      rintro rfl
      exact hr' hr
    rw [update_of_ne hne]
  by_cases hne : r' = r
  · subst hne
    rw [update_self]
    exact hc h
  · rwa [update_of_ne hne]

end Touches

variable {c c' : ConnectionChannel} {more : List Net} {addr2rank : List (ℕ × ℕ)}

theorem addressRank_kept {refused : Bool} {handle : Option ℕ}
    (h : addressRank refused handle c = some (c', more)) (hc : c.Established) : c'.Established := by
  unfold addressRank at h
  split at h
  · cases h
  split at h
  · cases h
  split at h
  · obtain ⟨rfl, -⟩ := Prod.mk.inj (some.inj h)
    exact hc
  split at h
  · cases h
  · obtain ⟨rfl, -⟩ := Prod.mk.inj (some.inj h)
    exact hc

theorem address_kept {socket : Option ℕ} (h : side.address m socket r c = some (c', more))
    (hc : c.Established) : c'.Established := by
  cases side with
  | server =>
    rw [Side.address, generateWhiteList] at h
    exact addressRank_kept h hc
  | client =>
    rw [Side.address, createConnectionToServers] at h
    exact addressRank_kept h hc

theorem makeQpConnection_kept (h : makeQpConnection ans c = some c') (hc : c.Established) :
    c'.Established := by
  obtain ⟨hqp, hcalled, hstat⟩ := hc
  obtain ⟨qp, hqp⟩ := isSome_iff_exists.mp hqp
  rw [makeQpConnection, hqp] at h
  -- the queue pair is there and `RaQpConnectAsync` was called: nothing is done
  have hsame : makeQpConnection.connectAsync ans c = c := by
    rw [makeQpConnection.connectAsync, if_pos hcalled]
  simp only [hsame, ite_self, some.injEq] at h
  subst h
  exact ⟨by rw [hqp]; rfl, hcalled, hstat⟩

theorem waitQpConnection_kept (hc : c.Established) : (waitQpConnection ans c).1.Established := by
  have hsame : waitQpConnection ans c = (c, true) := by
    obtain ⟨hqp, hcalled, hstat⟩ := hc
    rw [waitQpConnection, if_neg, if_pos hstat]
    rw [hcalled, isNone_eq_false_iff.mpr hqp]
    decide
  rw [hsame]
  exact hc

theorem waitQpConnection_done (h : (waitQpConnection ans c).2 = true) :
    (waitQpConnection ans c).1.Established := by
  rw [waitQpConnection] at h ⊢
  split at h
  · cases h
  next hready =>
  simp only [Bool.or_eq_true, Bool.not_eq_true', not_or, isNone_iff_eq_none,
    Bool.not_eq_false] at hready
  have hqp := ne_none_iff_isSome.mp hready.1
  rw [if_neg (by simp [hready.1, hready.2])]
  split at h
  · next hstat =>
    rw [if_pos hstat]
    exact ⟨hqp, hready.2, hstat⟩
  next hstat =>
  rw [if_neg hstat]
  simp only [Bool.and_eq_true, beq_iff_eq] at h
  exact ⟨hqp, hready.2, h.2⟩

theorem takeSocket_touches (haddr : ∀ x ∈ addr2rank, x.2 ∈ copy) (info : SocketInfo) :
    Touches copy conns (takeSocket m addr2rank conns info) := by
  rw [takeSocket]
  split
  · exact .refl _ _
  split
  · exact .refl _ _
  next r hlook =>
  split
  · exact .refl _ _
  split
  · exact .refl _ _
  obtain ⟨_, _, heq, -⟩ := lookup_eq_some_iff.mp hlook
  have hr : r ∈ copy := haddr (info.remoteIp, r) (by rw [heq]; simp)
  exact .update hr fun h => h

theorem foldl_takeSocket_touches (haddr : ∀ x ∈ addr2rank, x.2 ∈ copy) (infos : List SocketInfo) :
    Touches copy conns (infos.foldl (takeSocket m addr2rank) conns) := by
  induction infos generalizing conns with
  | nil => exact .refl _ _
  | cons info infos ih => exact (takeSocket_touches haddr info).trans ih

/-! ### The work of an iteration -/

/-- The iteration is between its two critical sections. -/
def Phase.connecting : Phase → Bool
  | waiting => false
  | remove => false
  | _ => true

/-- What an iteration still works on is what it has copied, and what it has finished is
established. -/
def Phase.Work (copy : List ℕ) (conns : Connections) : Phase → Prop
  | address todo _ => todo ⊆ copy
  | collect todo _ addr2rank => todo ⊆ copy ∧ ∀ x ∈ addr2rank, x.2 ∈ copy
  | poll _ addr2rank => ∀ x ∈ addr2rank, x.2 ∈ copy
  | make todo => todo ⊆ copy
  | query todo finished => todo ⊆ copy ∧ ∀ r ∈ finished, r ∈ copy ∧ (conns r).Established
  | _ => True

theorem Phase.Work.of_kept (h : phase.Work copy conns) (hkept : phase.connecting = true →
      ∀ r ∈ copy, (conns r).Established → (conns' r).Established) : phase.Work copy conns' := by
  cases phase with
  | query todo finished =>
    refine ⟨h.1, fun r hr => ?_⟩
    obtain ⟨hcopy, hest⟩ := h.2 r hr
    exact ⟨hcopy, hkept rfl r hcopy hest⟩
  | _ => exact h

/-- The phase that a step leads to: there is work for it, or the iteration is over. -/
def Phase.Follows (copy : List ℕ) (conns : Connections) (phase : Phase) : Prop :=
  phase.Work copy conns ∧ phase ≠ .waiting

theorem afterAddressFailed_follows : (side.afterAddressFailed copy).Follows copy conns := by
  cases side with
  | server => exact ⟨trivial, nofun⟩
  | client => exact ⟨⟨Subset.refl _, by simp⟩, nofun⟩

theorem afterWaitFailed_follows : (side.afterWaitFailed copy).Follows copy conns := by
  cases side with
  | server => exact ⟨trivial, nofun⟩
  | client => exact ⟨Subset.refl _, nofun⟩

theorem connectStep_follows (h : phase.Work copy conns) (hconn : phase.connecting = true) :
    Touches copy conns (connectStep m side ans copy conns phase).1 ∧
      (connectStep m side ans copy conns phase).2.Follows copy
        (connectStep m side ans copy conns phase).1 := by
  have hcoll : (Phase.collect copy [] []).Follows copy conns :=
    ⟨⟨Subset.refl _, by simp⟩, nofun⟩
  cases phase with
  | waiting | remove => nomatch hconn
  | address todo infos =>
    cases todo with
    | nil =>
      refine ⟨.refl _ _, ?_⟩
      rw [connectStep]
      split
      · exact hcoll
      · exact ⟨trivial, nofun⟩
    | cons r todo =>
      obtain ⟨hr, htodo⟩ := cons_subset.mp h
      rw [connectStep]
      split
      · exact ⟨.refl _ _, afterAddressFailed_follows⟩
      · next c more heq => exact ⟨.update hr (address_kept heq), htodo, nofun⟩
  | announce infos =>
    rw [connectStep]
    split
    · refine ⟨.refl _ _, ?_⟩
      dsimp only
      split
      · exact hcoll
      · exact ⟨trivial, nofun⟩
    · exact ⟨.refl _ _, afterAddressFailed_follows⟩
  | collect todo infos addr2rank =>
    obtain ⟨htodo, haddr⟩ := h
    cases todo with
    | nil =>
      refine ⟨.refl _ _, ?_⟩
      rw [connectStep]
      split
      · exact ⟨Subset.refl _, nofun⟩
      · exact ⟨haddr, nofun⟩
    | cons r todo =>
      obtain ⟨hr, htodo⟩ := cons_subset.mp htodo
      rw [connectStep]
      split
      · exact ⟨.refl _ _, ⟨htodo, haddr⟩, nofun⟩
      · exact ⟨.refl _ _, ⟨htodo, forall_mem_append.mpr ⟨haddr, forall_mem_singleton.mpr hr⟩⟩, nofun⟩
  | poll infos addr2rank =>
    rw [connectStep]
    dsimp only
    split
    · exact ⟨.refl _ _, afterWaitFailed_follows⟩
    split
    · exact ⟨.refl _ _, h, nofun⟩
    refine ⟨foldl_takeSocket_touches h _, ?_⟩
    dsimp only
    split
    · exact ⟨Subset.refl _, nofun⟩
    · exact ⟨h, nofun⟩
  | make todo =>
    have hquery : (Phase.query copy []).Follows copy conns := ⟨⟨Subset.refl _, by simp⟩, nofun⟩
    cases todo with
    | nil => exact ⟨.refl _ _, hquery⟩
    | cons r todo =>
      obtain ⟨hr, htodo⟩ := cons_subset.mp h
      rw [connectStep]
      split
      · exact ⟨.refl _ _, hquery⟩
      · next c heq => exact ⟨.update hr (makeQpConnection_kept heq), htodo, nofun⟩
  | query todo finished =>
    obtain ⟨htodo, hfin⟩ := h
    cases todo with
    | nil => exact ⟨.refl _ _, ⟨htodo, hfin⟩, nofun⟩
    | cons r todo =>
      obtain ⟨hr, htodo⟩ := cons_subset.mp htodo
      have htouch : Touches copy conns (update conns r (waitQpConnection ans (conns r)).1) :=
        .update hr waitQpConnection_kept
      have hold : ∀ x ∈ finished, x ∈ copy ∧
          (update conns r (waitQpConnection ans (conns r)).1 x).Established :=
        fun x hx => ⟨(hfin x hx).1, htouch.kept x (hfin x hx).2⟩
      refine ⟨htouch, ⟨htodo, ?_⟩, nofun⟩
      intro x (hx : x ∈ if (waitQpConnection ans (conns r)).2 then finished ++ [r] else finished)
      split at hx
      · next hdone =>
        rcases mem_append.mp hx with hx | hx
        · exact hold x hx
        obtain rfl := mem_singleton.mp hx
        refine ⟨hr, ?_⟩
        show (update conns x _ x).Established
        rw [update_self]
        exact waitQpConnection_done hdone
      · exact hold x hx

/-! ### The invariant -/

/-- A loop between its critical sections works on new ranks only, and begins with nothing left
to remove. -/
structure LoopInv (newRanks : List ℕ) (conns : Connections) (loop : Loop) : Prop where
  copied : loop.phase.connecting = true → loop.newRanks ⊆ newRanks
  work : loop.phase.Work loop.newRanks conns
  idle : loop.phase = .waiting → loop.removedRanks = []

/-- The new ranks are peers that were set last, and what is pending was removed last. -/
structure Inv (m : Manager) (s : QpManager) : Prop where
  requested : ∀ {side r}, r ∈ s.newRanks side →
    m.Peer r ∧ m.sideOf r = side ∧ s.lastRequest r = some .set
  pending : ∀ {r}, m.Peer r → s.Pending r → s.lastRequest r = some .remove
  loops : ∀ side, LoopInv (s.newRanks side) s.connections (s.loop side)
  wanted : ∀ {r}, m.Peer r → s.lastRequest r = some .set → s.IsNew r ∨ (s.connections r).Established
  removed : ∀ {r}, m.Peer r → s.lastRequest r = some .remove → ¬ s.Pending r →
    s.connections r = .zero

theorem isNew_of_mem (h : r ∈ s.newRanks side) : s.IsNew r := by
  cases side with
  | server => exact .inl h
  | client => exact .inr h

theorem isNew_iff : s.IsNew r ↔ ∃ side, r ∈ s.newRanks side := by
  constructor
  · rintro (h | h)
    · exact ⟨_, h⟩
    · exact ⟨_, h⟩
  · rintro ⟨side, h⟩
    exact isNew_of_mem h

theorem pending_iff : s.Pending r ↔
    ∃ side, r ∈ s.removedRanks side ∨ r ∈ (s.loop side).removedRanks := by
  constructor
  · rintro (h | h)
    · exact ⟨_, h⟩
    · exact ⟨_, h⟩
  rintro ⟨side, h⟩
  cases side with
  | server => exact .inl h
  | client => exact .inr h

theorem pending_goto {newRanks : Side → List ℕ} :
    QpManager.Pending { s with
      connections := conns
      newRanks := newRanks
      loop := update s.loop side ((s.loop side).goto phase) } r ↔ s.Pending r := by
  rw [pending_iff, pending_iff]
  refine exists_congr fun side' => ?_
  by_cases hside : side' = side
  · subst hside
    simp [Loop.goto]
  · simp [update_of_ne hside]

theorem pending_pop {rest : List ℕ} {r' : ℕ} (hcons : (s.loop side).removedRanks = r :: rest) :
    s.Pending r' ↔ r' = r ∨ QpManager.Pending { s with
      connections := conns
      loop := update s.loop side ⟨.remove, (s.loop side).newRanks, rest⟩ } r' := by
  rw [pending_iff, pending_iff]
  constructor
  · rintro ⟨side', hmem | hmem⟩
    · exact .inr ⟨side', .inl hmem⟩
    by_cases hside : side' = side
    · subst hside
      rw [hcons] at hmem
      rcases mem_cons.mp hmem with rfl | hmem
      · exact .inl rfl
      · exact .inr ⟨side', .inr (by simpa using hmem)⟩
    · exact .inr ⟨side', .inr (by simpa [update_of_ne hside] using hmem)⟩
  rintro (rfl | ⟨side', hmem | hmem⟩)
  · exact ⟨side, .inr (by rw [hcons]; exact mem_cons_self)⟩
  · exact ⟨side', .inl hmem⟩
  by_cases hside : side' = side
  · subst hside
    have hmem : r' ∈ rest := by simpa using hmem
    exact ⟨side', .inr (by rw [hcons]; exact mem_cons_of_mem _ hmem)⟩
  · exact ⟨side', .inr (by simpa [update_of_ne hside] using hmem)⟩

theorem inv_start : Inv m .start where
  requested h := absurd h (not_mem_nil)
  pending _ h := by
    obtain ⟨side, h | h⟩ := pending_iff.mp h
    · exact absurd h (not_mem_nil)
    · exact absurd h (not_mem_nil)
  loops _ := ⟨fun h => absurd h Bool.false_ne_true, trivial, fun _ => rfl⟩
  wanted _ h := nomatch h
  removed _ h := nomatch h

namespace Inv

theorem neverForgets (h : Inv m s) : NeverForgets m s where
  wanted r hpeer hset := by
    rcases h.wanted hpeer hset with hnew | hest
    · exact .inl hnew
    refine .inr ⟨hest, fun hpend => ?_⟩
    have hremove := h.pending hpeer hpend
    rw [hset] at hremove
    cases hremove
  removed r hpeer hremove hpend := by
    refine ⟨h.removed hpeer hremove hpend, fun hnew => ?_⟩
    obtain ⟨side, hmem⟩ := isNew_iff.mp hnew
    have hset := (h.requested hmem).2.2
    rw [hremove] at hset
    cases hset

theorem setRank (h : Inv m s) (hok : m.Peer r → ¬ s.Pending r) (net : Net) :
    Inv m (s.setRank m r net) := by
  rw [QpManager.setRank]
  split
  · exact h
  next hlt =>
  have hlast : ∀ {r' : ℕ}, r' ≠ r → update s.lastRequest r (some .set) r' = s.lastRequest r' :=
    fun hne => update_of_ne hne _ _
  -- an address does not make or break a queue pair
  have hest : ∀ r', (s.connections r').Established →
      (update s.connections r ((s.connections r).withNet net) r').Established := by
    intro r' hr'
    by_cases hne : r' = r
    · subst hne
      rw [update_self]
      exact hr'
    · rwa [update_of_ne hne]
  have hnew : ∀ {side r'}, r' ∈ (if r = m.rankId then s.newRanks
      else emplaceIn s.newRanks (m.sideOf r) r) side ↔
        (r ≠ m.rankId ∧ r' = r ∧ side = m.sideOf r) ∨ r' ∈ s.newRanks side := by
    intro side r'
    split
    · next hown => simp [hown]
    next hown =>
    rw [mem_emplaceIn]
    simp [hown]
  refine ⟨?_, ?_, ?_, ?_, ?_⟩
  · intro side r' hmem
    rcases hnew.mp hmem with ⟨hown, rfl, rfl⟩ | hmem
    · exact ⟨⟨hown, Nat.lt_of_not_le hlt⟩, rfl, update_self ..⟩
    obtain ⟨hpeer, hside, hset⟩ := h.requested hmem
    refine ⟨hpeer, hside, ?_⟩
    by_cases hne : r' = r
    · subst hne
      exact update_self ..
    · exact (hlast hne).trans hset
  · intro r' hpeer hpend
    have hne : r' ≠ r := by
      rintro rfl
      exact hok hpeer hpend
    exact (hlast hne).trans (h.pending hpeer hpend)
  · intro side
    obtain ⟨hcopied, hwork, hidle⟩ := h.loops side
    exact ⟨fun hconn r' hr' => hnew.mpr (.inr (hcopied hconn hr')),
      hwork.of_kept fun _ r' _ => hest r', hidle⟩
  · intro r' hpeer hset
    by_cases hne : r' = r
    · subst hne
      exact .inl (isNew_iff.mpr ⟨_, hnew.mpr (.inl ⟨hpeer.1, rfl, rfl⟩)⟩)
    rcases h.wanted hpeer ((hlast hne).symm.trans hset) with hmem | hmem
    · obtain ⟨side, hmem⟩ := isNew_iff.mp hmem
      exact .inl (isNew_iff.mpr ⟨side, hnew.mpr (.inr hmem)⟩)
    · exact .inr (hest r' hmem)
  intro r' hpeer hremove hpend
  have hne : r' ≠ r := by
    rintro rfl
    have hset : some Request.set = some .remove :=
      (update_self r' (some .set) s.lastRequest).symm.trans hremove
    cases hset
  show update s.connections r _ r' = _
  rw [update_of_ne hne]
  exact h.removed hpeer ((hlast hne).symm.trans hremove) hpend

theorem setRank_pending {r' : ℕ} {net : Net} : (s.setRank m r net).Pending r' ↔ s.Pending r' := by
  rw [QpManager.setRank]
  split <;> rfl

section

variable (h : Inv m s)
include h

theorem setRemoteRankInfo {ranks : List (ℕ × Net)}
    (hok : ∀ x ∈ ranks, m.Peer x.1 → ¬ s.Pending x.1) : Inv m (s.setRemoteRankInfo m ranks) := by
  induction ranks generalizing s with
  | nil => exact h
  | cons x ranks ih =>
    refine ih (h.setRank (hok x mem_cons_self) x.2) fun y hy hpeer => ?_
    rw [setRank_pending]
    exact hok y (mem_cons_of_mem _ hy) hpeer

theorem removeRank (hok : m.Peer r → ¬ s.IsNew r) : Inv m (s.removeRank m r) := by
  have hlast : ∀ {r' : ℕ}, r' ≠ r → update s.lastRequest r (some .remove) r' = s.lastRequest r' :=
    fun hne => update_of_ne hne _ _
  have hpend : ∀ {r'}, (s.removeRank m r).Pending r' ↔ r' = r ∨ s.Pending r' := by
    intro r'
    rw [pending_iff, pending_iff]
    constructor
    · rintro ⟨side, hmem | hmem⟩
      · rcases mem_emplaceIn.mp hmem with ⟨rfl, -⟩ | hmem
        · exact .inl rfl
        · exact .inr ⟨side, .inl hmem⟩
      · exact .inr ⟨side, .inr hmem⟩
    rintro (rfl | ⟨side, hmem | hmem⟩)
    · exact ⟨_, .inl (mem_emplaceIn.mpr (.inl ⟨rfl, rfl⟩))⟩
    · exact ⟨side, .inl (mem_emplaceIn.mpr (.inr hmem))⟩
    · exact ⟨side, .inr hmem⟩
  refine ⟨?_, ?_, h.loops, ?_, ?_⟩
  · intro side r' hmem
    obtain ⟨hpeer, hside, hset⟩ := h.requested hmem
    have hne : r' ≠ r := by
      rintro rfl
      exact hok hpeer (isNew_of_mem hmem)
    exact ⟨hpeer, hside, (hlast hne).trans hset⟩
  · intro r' hpeer hmem
    by_cases hne : r' = r
    · subst hne
      exact update_self ..
    rcases hpend.mp hmem with heq | hmem
    · exact absurd heq hne
    · exact (hlast hne).trans (h.pending hpeer hmem)
  · intro r' hpeer hset
    have hne : r' ≠ r := by
      rintro rfl
      have hremove : (s.removeRank m r').lastRequest r' = some .remove :=
        update_self ..
      rw [hremove] at hset
      cases hset
    exact h.wanted hpeer ((hlast hne).symm.trans hset)
  intro r' hpeer hremove hnot
  have hne : r' ≠ r := fun heq => hnot (hpend.mpr (.inl heq))
  exact h.removed hpeer ((hlast hne).symm.trans hremove) fun hmem =>
    hnot (hpend.mpr (.inr hmem))

theorem removeRanks {ranks : List ℕ} (hok : ∀ r ∈ ranks, m.Peer r → ¬ s.IsNew r) :
    Inv m (s.removeRanks m ranks) := by
  induction ranks generalizing s with
  | nil => exact h
  | cons r ranks ih =>
    exact ih (h.removeRank (hok r mem_cons_self)) fun y hy =>
      hok y (mem_cons_of_mem _ hy)

theorem beginIteration (hphase : (s.loop side).phase = .waiting) :
    Inv m (s.beginIteration side) := by
  -- what was pending in the set is now pending in the loop, which had nothing left
  have hpend : ∀ {r}, (s.beginIteration side).Pending r ↔ s.Pending r := by
    intro r
    have hidle := (h.loops side).idle hphase
    rw [pending_iff, pending_iff]
    refine exists_congr fun side' => ?_
    by_cases hside : side' = side
    · subst hside
      simp [QpManager.beginIteration, hidle]
    · simp [QpManager.beginIteration, update_of_ne hside]
  refine ⟨h.requested, fun hpeer hmem => h.pending hpeer (hpend.mp hmem), ?_, h.wanted,
    fun hpeer hremove hnot => h.removed hpeer hremove fun hmem => hnot (hpend.mpr hmem)⟩
  refine (forall_update_iff s.loop fun side' loop =>
    LoopInv (s.newRanks side') s.connections loop).mpr ⟨⟨?_, ?_, ?_⟩, fun side' _ => h.loops side'⟩
  · exact fun _ => Subset.refl _
  · dsimp only
    split
    · trivial
    · exact Subset.refl _
  · dsimp only
    split <;> exact nofun

theorem not_copied (hconn : (s.loop side).phase.connecting = true)
    (hremove : s.lastRequest r = some .remove) : r ∉ (s.loop side).newRanks := by
  intro hr
  have hset := (h.requested ((h.loops side).copied hconn hr)).2.2
  rw [hremove] at hset
  cases hset

theorem connect (hconn : (s.loop side).phase.connecting = true)
    (hconns : Touches (s.loop side).newRanks s.connections conns)
    (hfollows : phase.Follows (s.loop side).newRanks conns) :
    Inv m { s with
      connections := conns
      loop := update s.loop side ((s.loop side).goto phase) } := by
  refine ⟨h.requested, fun hpeer hmem => h.pending hpeer (pending_goto.mp hmem), ?_, ?_, ?_⟩
  · refine (forall_update_iff s.loop fun side' loop =>
      LoopInv (s.newRanks side') conns loop).mpr ⟨⟨?_, hfollows.1, ?_⟩, ?_⟩
    · exact fun _ => (h.loops side).copied hconn
    · exact fun hphase => absurd hphase hfollows.2
    intro side' _
    obtain ⟨hcopied, hwork', hidle⟩ := h.loops side'
    exact ⟨hcopied, hwork'.of_kept fun _ r _ => hconns.kept r, hidle⟩
  · intro r hpeer hset
    exact (h.wanted hpeer hset).imp_right (hconns.kept r)
  intro r hpeer hremove hnot
  show conns r = _
  rw [hconns.others r (h.not_copied hconn hremove)]
  exact h.removed hpeer hremove fun hmem => hnot (pending_goto.mpr hmem)

theorem eraseFinished {finished : List ℕ} (hphase : (s.loop side).phase = .query [] finished) :
    Inv m (s.eraseFinished m side finished) := by
  obtain ⟨hcopied, hwork, -⟩ := h.loops side
  rw [hphase] at hcopied hwork
  have hmem : ∀ {side' r}, r ∈ (s.eraseFinished m side finished).newRanks side' ↔
      r ∈ s.newRanks side' ∧ (r ∈ finished → m.sideOf r ≠ side') := by
    intro side' r
    simp [QpManager.eraseFinished, Decidable.imp_iff_not_or]
  refine ⟨fun hr => h.requested (hmem.mp hr).1, ?_, ?_, ?_, ?_⟩
  · exact fun hpeer hr => h.pending hpeer (pending_goto.mp hr)
  · refine (forall_update_iff s.loop fun side' loop =>
      LoopInv ((s.eraseFinished m side finished).newRanks side') s.connections loop).mpr
        ⟨⟨fun hc => absurd hc Bool.false_ne_true, trivial, nofun⟩, ?_⟩
    intro side' hside
    obtain ⟨hcopied', hwork', hidle'⟩ := h.loops side'
    refine ⟨fun hconn r hr => hmem.mpr ⟨hcopied' hconn hr, fun hfin => ?_⟩,
      hwork', hidle'⟩
    -- what this loop has finished is on its own side
    have hown := (h.requested (hcopied rfl (hwork.2 r hfin).1)).2.1
    rw [hown]
    exact Ne.symm hside
  · intro r hpeer hset
    rcases h.wanted hpeer hset with hnew | hest
    · obtain ⟨side', hr⟩ := isNew_iff.mp hnew
      by_cases hfin : r ∈ finished
      · exact .inr (hwork.2 r hfin).2
      · exact .inl (isNew_iff.mpr ⟨side', hmem.mpr ⟨hr, fun hr => absurd hr hfin⟩⟩)
    · exact .inr hest
  · intro r hpeer hremove hnot
    exact h.removed hpeer hremove fun hr => hnot (pending_goto.mpr hr)

theorem removeProcess : Inv m (s.removeProcess m side) := by
  rw [QpManager.removeProcess]
  split
  · next hnil =>
    refine ⟨h.requested, fun hpeer hr => h.pending hpeer (pending_goto.mp hr), ?_,
      h.wanted, fun hpeer hremove hnot =>
        h.removed hpeer hremove fun hr => hnot (pending_goto.mpr hr)⟩
    exact (forall_update_iff s.loop fun side' loop =>
      LoopInv (s.newRanks side') s.connections loop).mpr
        ⟨⟨fun hc => absurd hc Bool.false_ne_true, trivial, fun _ => hnil⟩,
          fun side' _ => h.loops side'⟩
  next r rest hcons =>
  have hr : s.Pending r := pending_iff.mpr ⟨side, .inr (by rw [hcons]; exact mem_cons_self)⟩
  set conns := if m.rankCount ≤ r ∨ r = m.rankId then s.connections
    else update s.connections r .zero with hconns
  have hothers : ∀ {r'}, r' ≠ r → conns r' = s.connections r' := by
    intro r' hne
    rw [hconns]
    split
    · rfl
    · exact update_of_ne hne _ _
  have hzero : m.Peer r → conns r = .zero := by
    rintro ⟨hown, hlt⟩
    rw [hconns, if_neg (by omega), update_self]
  have hwanted : ∀ {r'}, m.Peer r' → s.lastRequest r' = some .set → r' ≠ r := by
    rintro r' hpeer hset rfl
    have hremove := h.pending hpeer hr
    rw [hset] at hremove
    cases hremove
  refine ⟨h.requested, fun hpeer hr' => h.pending hpeer ((pending_pop hcons).mpr (.inr hr')),
    ?_, ?_, ?_⟩
  · refine (forall_update_iff s.loop fun side' loop =>
      LoopInv (s.newRanks side') conns loop).mpr
        ⟨⟨fun hc => absurd hc Bool.false_ne_true, trivial, nofun⟩, fun side' _ => ?_⟩
    obtain ⟨hcopied, hwork, hidle⟩ := h.loops side'
    refine ⟨hcopied, hwork.of_kept fun hconn r' hr' hest => ?_, hidle⟩
    obtain ⟨hpeer, -, hset⟩ := h.requested (hcopied hconn hr')
    rwa [hothers (hwanted hpeer hset)]
  · intro r' hpeer hset
    refine (h.wanted hpeer hset).imp_right fun hest => ?_
    show (conns r').Established
    rwa [hothers (hwanted hpeer hset)]
  intro r' hpeer hremove hnot
  show conns r' = _
  by_cases hne : r' = r
  · subst hne
    exact hzero hpeer
  · rw [hothers hne]
    exact h.removed hpeer hremove fun hr' => ((pending_pop hcons).mp hr').elim hne hnot

theorem iterate : Inv m (s.iterate m side ans) := by
  rw [QpManager.iterate]
  split
  · next hphase => exact h.beginIteration hphase
  · next finished hphase => exact h.eraseFinished hphase
  · exact h.removeProcess
  next phase hwait hquery hremove =>
  have hconn : (s.loop side).phase.connecting = true := by
    cases hphase : (s.loop side).phase with
    | waiting => exact absurd hphase hwait
    | remove => exact absurd hphase hremove
    | _ => rfl
  obtain ⟨htouches, hfollows⟩ := connectStep_follows (h.loops side).work hconn
  exact h.connect hconn htouches hfollows

end

end Inv

/-! ### Runs -/

/-- If a rank is set only when no removal of it is under way, and removed only when it is not about
to be connected, no wanted rank is forgotten and no removed one is left. -/
theorem neverForgets_of_settled (h : (joinableSystem m).ReachableBy (Settled m) s) :
    NeverForgets m s := by
  refine Inv.neverForgets (h.invariant inv_start ?_)
  intro s s' step hinv hok hnext
  cases step with
  | setRemoteRankInfo ranks =>
    obtain rfl := some.inj hnext
    exact hinv.setRemoteRankInfo hok
  | removeRanks ranks =>
    obtain rfl := some.inj hnext
    exact hinv.removeRanks hok
  | iterate side ans =>
    obtain rfl := some.inj hnext
    exact hinv.iterate

/-- An iteration of the server loop that connects the rank 1. -/
def connectRank : List JoinableStep :=
  [.iterate .server {}, .iterate .server {}, .iterate .server {}, .iterate .server {},
    .iterate .server {}, .iterate .server {},
    .iterate .server { cnt := 1, sockets := [(1, some 5)] }, .iterate .server { qp := some 9 },
    .iterate .server {}, .iterate .server { status := 1 }, .iterate .server {},
    .iterate .server {}]

def seen (s : QpManager) : Option Request × Bool × Bool × Option ℕ :=
  (s.lastRequest 1, s.IsNew 1, s.Pending 1, (s.connections 1).qpHandle)

/-- Rank 1 is connected, removed, and set again once the removal has been processed. -/
theorem neverForgets_after_rejoin :
    ∃ s, (joinableSystem ⟨0, 2, 7⟩).ReachableBy (Settled ⟨0, 2, 7⟩) s ∧
      seen s = (some .set, false, false, some 9) ∧ NeverForgets ⟨0, 2, 7⟩ s := by
  refine TransitionSystem.exists_reachableBy (.setRemoteRankInfo [(1, ⟨3, 80⟩)] :: connectRank ++
    .removeRanks [1] :: replicate 3 (.iterate .server {}) ++ .setRemoteRankInfo [(1, ⟨3, 80⟩)]
    :: connectRank) seen (some .set, false, false, some 9) ?_ fun s hreach hseen => ?_
  · decide +kernel
  exact ⟨hseen, neverForgets_of_settled hreach⟩

/-- A connected rank is removed and set again before the loop comes to it; the loop takes it for
connected, and then removes it. -/
theorem wanted_rank_forgotten :
    ∃ s, (joinableSystem ⟨0, 2, 7⟩).Reachable s ∧ seen s = (some .set, false, false, none) ∧
      ¬ NeverForgets ⟨0, 2, 7⟩ s := by
  refine TransitionSystem.exists_reachable (.setRemoteRankInfo [(1, ⟨3, 80⟩)] :: connectRank ++
    [.removeRanks [1], .setRemoteRankInfo [(1, ⟨3, 80⟩)]] ++ replicate 12 (.iterate .server
    {})) seen (some .set, false, false, none) ?_ fun s _ hseen => ?_
  · decide +kernel
  refine ⟨hseen, fun hnever => ?_⟩
  simp only [seen, Prod.mk.injEq, decide_eq_false_iff_not] at hseen
  obtain ⟨hset, hnew, -, hqp⟩ := hseen
  rcases hnever.wanted 1 (by decide) hset with h | ⟨h, -⟩
  · exact hnew h
  have hsome := h.1
  rw [hqp] at hsome
  cases hsome

end Hybm.Joinable
