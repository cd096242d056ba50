/-
Reference counts of the queue pairs of the device transport.

`JoinableRanksQpManager` keeps a queue pair for each connected rank, and every remote operation
takes a reference to one (`GetQpHandleWithRankId`) and gives it back (`PutQpHandle`); who gives
back the last one destroys the queue pair.  The table is filled and emptied by two connection
threads, and emptied by `Shutdown`; `CloseDevice` then drops the manager.  A step is what happens
between two points at which other threads may go on.  `IoCall` is an operation of
`RdmaTransportManager` with all its exits; one of them, where the thread has no stream, does not
give the reference back.
-/
import MemFabric.Transition

namespace Hybm.Qp

open Function Option List

/-! ### Counting references -/

/-- `UserQpInfo`: the rank it is for, `ref`, and how often it was destroyed. -/
structure QpInfo where
  rankId : ℕ
  ref : ℕ
  destroyed : ℕ
  deriving DecidableEq

namespace QpInfo

/-- `ref.fetch_add(1U)`. -/
def get (info : QpInfo) : QpInfo := { info with ref := info.ref + 1 }

/-- `PutQpHandle`. -/
def put (info : QpInfo) : QpInfo :=
  { info with
    ref := info.ref - 1
    destroyed := if info.ref = 1 then info.destroyed + 1 else info.destroyed }

/-- There are `n` owners, and the last one to go has destroyed it. -/
structure Tallies (info : QpInfo) (n : ℕ) : Prop where
  ref : info.ref = n
  destroyed : info.destroyed = if n = 0 then 1 else 0

variable {info : QpInfo} {n : ℕ}

theorem Tallies.get (h : info.Tallies n) (hn : 0 < n) : info.get.Tallies (n + 1) := by
  refine ⟨?_, ?_⟩
  · rw [QpInfo.get, h.ref]
  · show info.destroyed = _
    rw [h.destroyed, if_neg (by omega), if_neg (by omega)]

theorem Tallies.put (h : info.Tallies (n + 1)) : info.put.Tallies n := by
  have hdest : info.destroyed = 0 := by rw [h.destroyed, if_neg (by omega)]
  refine ⟨?_, ?_⟩
  · show info.ref - 1 = n
    rw [h.ref]
    omega
  show (if info.ref = 1 then info.destroyed + 1 else info.destroyed) = _
  rw [h.ref, hdest]
  by_cases hn : n = 0
  · rw [if_pos (by omega), if_pos hn]
  · rw [if_neg (by omega), if_neg hn]

end QpInfo

/-! ### Operations -/

inductive IoKind
  | remoteIo (sync : Bool)
  | synchronize
  deriving DecidableEq

/-- Where an operation stands: what it does next, and the queue pair it has. -/
inductive IoPhase
  | getQpHandle
  | threadStream (qp : ℕ)
  | correctHostRegWr (qp : ℕ)
  | raSendWr (qp : ℕ)
  | submitTasks (qp : ℕ)
  | synchronize (qp : ℕ)
  | putQpHandle (qp : ℕ)
  | returned
  deriving DecidableEq

def IoPhase.qp : IoPhase → Option ℕ
  | getQpHandle => none
  | threadStream qp => some qp
  | correctHostRegWr qp => some qp
  | raSendWr qp => some qp
  | submitTasks qp => some qp
  | synchronize qp => some qp
  | putQpHandle qp => some qp
  | returned => none

/-- The operation asks for the stream of its thread next. -/
def IoPhase.asksStream : IoPhase → Bool
  | threadStream _ => true
  | _ => false

/-- An operation, with the references it took and gave back. -/
structure IoCall where
  kind : IoKind
  rankId : ℕ
  phase : IoPhase
  gets : ℕ
  puts : ℕ
  deriving DecidableEq

/-- The operation has given its reference back and returns. -/
def IoCall.released (c : IoCall) : IoCall := { c with phase := .returned, puts := c.puts + 1 }

def IoCall.taking (c : IoCall) (phase : IoPhase) : IoCall :=
  { c with phase := phase, gets := c.gets + 1 }

/-- What follows a call that hands over no reference; `ok` is its answer. -/
def IoCall.follow (kind : IoKind) (ok : Bool) : IoPhase → IoPhase
  | .threadStream qp => if ok then .correctHostRegWr qp else .returned
  | .correctHostRegWr qp => if ok then .raSendWr qp else .putQpHandle qp
  | .raSendWr qp => if ok then .submitTasks qp else .putQpHandle qp
  | .submitTasks qp =>
    if ok ∧ kind = .remoteIo true then .synchronize qp else .putQpHandle qp
  | .synchronize qp => .putQpHandle qp
  | phase => phase

/-! ### States -/

/-- Who changes the table: the connection threads, and `Shutdown`. -/
inductive Actor
  | server
  | client
  | shutdown
  deriving DecidableEq

/-- What an actor is at: between the two writes of `MakeQpConnections`, or with connections
that `RemoveRanksProcess` has taken out and not yet closed. -/
inductive Activity
  | idle
  | creating (rankId : ℕ)
  | removing (ranks : List ℕ)
  deriving DecidableEq

structure Manager where
  rankId : ℕ
  rankCount : ℕ

def Actor.serves (m : Manager) (rankId : ℕ) : Actor → Bool
  | .server => m.rankId < rankId && rankId < m.rankCount
  | .client => rankId < m.rankId && rankId < m.rankCount
  | .shutdown => false

def Actor.removes (m : Manager) (ranks : List ℕ) : Actor → Bool
  | .server => ranks.all fun rankId => m.rankId ≤ rankId
  | .client => ranks.all fun rankId => rankId < m.rankId
  | .shutdown => ranks == List.range m.rankCount

/-- `qps` are all queue pairs made so far, `qpArray` the table of the manager, and `connected`
says whether a connection has a handle.  The arrays are cleared in a `closed` manager, and
`qpManager_` is null once it is `dropped`. -/
structure QpState where
  qps : List QpInfo
  qpArray : ℕ → Option ℕ
  connected : ℕ → Bool
  actors : Actor → Activity
  closed : Bool
  dropped : Bool
  calls : List IoCall

namespace QpState

def start : QpState := ⟨[], fun _ => none, fun _ => false, fun _ => .idle, false, false, []⟩

variable (m : Manager) (s : QpState)

/-- The activities of the actors, once `a` has gone on. -/
def actorsWith (a : Actor) (activity : Activity) : Actor → Activity :=
  update s.actors a activity

/-- The first write of `MakeQpConnections` for a new queue pair. -/
def createQp (a : Actor) (rankId : ℕ) : Option QpState :=
  if s.actors a = .idle ∧ a.serves m rankId ∧ s.connected rankId = false ∧ s.closed = false then
    some { s with
      actors := s.actorsWith a (.creating rankId)
      connected := update s.connected rankId true }
  else none

def publishQp (a : Actor) : Option QpState :=
  match s.actors a with
  | .creating rankId =>
    if s.closed then none
    else some { s with
      actors := s.actorsWith a .idle
      qps := s.qps ++ [⟨rankId, 1, 0⟩]
      qpArray := update s.qpArray rankId (some s.qps.length) }
  | _ => none

/-- The ranks that the first loop of `RemoveRanksProcess` does not skip. -/
def taken (ranks : List ℕ) : List ℕ :=
  ranks.filter fun rankId => rankId < m.rankCount && rankId ≠ m.rankId

/-- The first loop of `RemoveRanksProcess`: the connections are taken out and zeroed. -/
def beginRemoval (a : Actor) (ranks : List ℕ) : Option QpState :=
  if s.actors a = .idle ∧ a.removes m ranks ∧ s.closed = false then
    some { s with
      actors := s.actorsWith a (.removing ((taken m ranks).filter s.connected))
      connected := fun rankId => s.connected rankId && !(taken m ranks).contains rankId }
  else none

/-- One round of its second loop: under the lock, the queue pair leaves the table and the
reference of the table is given back.  An empty entry is not checked for. -/
def unlink (a : Actor) : Option QpState :=
  match s.actors a with
  | .removing (rankId :: rest) =>
    match s.qpArray rankId with
    | none => none
    | some qp => some { s with
        actors := s.actorsWith a (.removing rest)
        qps := s.qps.modify qp QpInfo.put
        qpArray := update s.qpArray rankId none }
  | _ => none

/-- The end of `RemoveRanksProcess`; `Shutdown` goes on to clear the arrays. -/
def finishRemoval (a : Actor) : Option QpState :=
  match s.actors a with
  | .removing [] =>
    if a = .shutdown then
      some { s with
        actors := s.actorsWith a .idle
        qpArray := fun _ => none
        connected := fun _ => false
        closed := true }
    else some { s with actors := s.actorsWith a .idle }
  | _ => none

/-- What `CloseDevice` does after `Shutdown`. -/
def dropManager : Option QpState :=
  if s.closed ∧ s.dropped = false then some { s with dropped := true } else none

/-- A new operation; one that finds no manager returns. -/
def enter (kind : IoKind) (rankId : ℕ) : QpState :=
  { s with
    calls := s.calls ++ [⟨kind, rankId, if s.dropped then .returned else .getQpHandle, 0, 0⟩] }

/-- `GetQpHandleWithRankId` of an operation; that the manager is gone by now or its table is
cleared is not checked for. -/
def getQpHandle (i : ℕ) (c : IoCall) : Option QpState :=
  if s.dropped then none
  else if m.rankCount ≤ c.rankId then
    some { s with calls := s.calls.set i { c with phase := .returned } }
  else if s.closed then none
  else
    match s.qpArray c.rankId with
    | none => some { s with calls := s.calls.set i { c with phase := .returned } }
    | some qp =>
      let phase := if c.kind = .synchronize then IoPhase.synchronize qp else .threadStream qp
      some { s with
        calls := s.calls.set i (c.taking phase)
        qps := s.qps.modify qp QpInfo.get }

/-- `PutQpHandle` of an operation, which then returns; it needs the manager. -/
def putQpHandle (i : ℕ) (c : IoCall) (qp : ℕ) : Option QpState :=
  if s.dropped then none
  else some { s with
    calls := s.calls.set i c.released
    qps := s.qps.modify qp QpInfo.put }

/-- The next step of the operation `i`. -/
def advance (i : ℕ) (ok : Bool) : Option QpState :=
  match s.calls[i]? with
  | none => none
  | some c =>
    match c.phase with
    | .getQpHandle => s.getQpHandle m i c
    | .putQpHandle qp => s.putQpHandle i c qp
    | .returned => none
    | phase => some { s with
        calls := s.calls.set i { c with phase := IoCall.follow c.kind ok phase } }

end QpState

inductive QpStep
  | createQp (a : Actor) (rankId : ℕ)
  | publishQp (a : Actor)
  | beginRemoval (a : Actor) (ranks : List ℕ)
  | unlink (a : Actor)
  | finishRemoval (a : Actor)
  | dropManager
  | enter (kind : IoKind) (rankId : ℕ)
  | advance (i : ℕ) (ok : Bool)

def qpSystem (m : Manager) : TransitionSystem QpState QpStep where
  start := .start
  next s
    | .createQp a rankId => s.createQp m a rankId
    | .publishQp a => s.publishQp a
    | .beginRemoval a ranks => s.beginRemoval m a ranks
    | .unlink a => s.unlink a
    | .finishRemoval a => s.finishRemoval a
    | .dropManager => s.dropManager
    | .enter kind rankId => some (s.enter kind rankId)
    | .advance i ok => s.advance m i ok

/-! ### The property -/

namespace QpState

variable (s : QpState)

def inTable (qp : ℕ) : Bool :=
  match s.qps[qp]? with
  | none => false
  | some info => s.qpArray info.rankId == some qp

def inFlight (qp : ℕ) : ℕ := s.calls.countP fun c => c.phase.qp == some qp

/-- The table, if it has the queue pair, and the operations that use it. -/
def owners (qp : ℕ) : ℕ := (if s.inTable qp then 1 else 0) + s.inFlight qp

end QpState

/-- An operation that has returned gave back what it took, a reference count is one for the table
and one for each operation in flight, and a queue pair has been destroyed once if it is neither in
the table nor in use, and never before. -/
structure Balanced (s : QpState) : Prop where
  matched : ∀ c ∈ s.calls, c.phase = .returned → c.puts = c.gets
  counted : ∀ qp info, s.qps[qp]? = some info →
    info.ref = (if s.inTable qp then 1 else 0) + s.inFlight qp
  destroyed : ∀ qp info, s.qps[qp]? = some info →
    info.destroyed = if s.inTable qp ∨ 0 < s.inFlight qp then 0 else 1

/-- Every thread has its stream, and `Shutdown` and the connection threads keep out of each
other's way.  No operation is about to read the table when it is cleared or comes between that
and the end of the manager, and none is under way when the manager goes. -/
def Orderly (s : QpState) : QpStep → Prop
  | .createQp _ _ => s.actors .shutdown = .idle
  | .beginRemoval .shutdown _ => s.actors .server = .idle ∧ s.actors .client = .idle
  | .beginRemoval _ _ => s.actors .shutdown = .idle
  | .finishRemoval .shutdown => ∀ c ∈ s.calls, c.phase ≠ .getQpHandle
  | .dropManager => ∀ c ∈ s.calls, c.phase = .returned
  | .enter _ _ => s.closed = true → s.dropped = true
  | .advance i ok => ∀ c ∈ s.calls[i]?, c.phase.asksStream → ok = true
  | _ => True

instance (s : QpState) (step : QpStep) : Decidable (Orderly s step) := by
  unfold Orderly
  split <;> infer_instance

variable {m : Manager} {s s' : QpState} {a : Actor} {r q : ℕ}

/-! ### A step of an operation -/

/-- What the operation `c` at `i` can do. -/
inductive Advanced (s : QpState) (i : ℕ) (ok : Bool) (c : IoCall) : QpState → Prop
  | refused (hphase : c.phase = .getQpHandle) :
    Advanced s i ok c { s with calls := s.calls.set i { c with phase := .returned } }
  | took {q : ℕ} (hphase : c.phase = .getQpHandle) (hq : s.qpArray c.rankId = some q) :
    Advanced s i ok c { s with
      calls := s.calls.set i
        (c.taking (if c.kind = .synchronize then .synchronize q else .threadStream q))
      qps := s.qps.modify q QpInfo.get }
  | gaveBack {q : ℕ} (hphase : c.phase = .putQpHandle q) :
    Advanced s i ok c { s with
      calls := s.calls.set i c.released
      qps := s.qps.modify q QpInfo.put }
  | followed (hget : c.phase ≠ .getQpHandle) (hput : ∀ q, c.phase ≠ .putQpHandle q)
    (hret : c.phase ≠ .returned) : Advanced s i ok c { s with
      calls := s.calls.set i { c with phase := IoCall.follow c.kind ok c.phase } }

theorem advance_cases {i : ℕ} {ok : Bool} (hnext : s.advance m i ok = some s') :
    ∃ c, s.calls[i]? = some c ∧ Advanced s i ok c s' := by
  rw [QpState.advance] at hnext
  split at hnext
  · cases hnext
  next c hi =>
  refine ⟨c, hi, ?_⟩
  split at hnext
  · next hphase =>
    rw [QpState.getQpHandle] at hnext
    split at hnext
    · cases hnext
    split at hnext
    · exact some.inj hnext ▸ .refused hphase
    split at hnext
    · cases hnext
    split at hnext
    · exact some.inj hnext ▸ .refused hphase
    · next q hq => exact some.inj hnext ▸ .took hphase hq
  · next q hphase =>
    obtain ⟨-, hnext⟩ := ite_none_left_eq_some.mp hnext
    exact some.inj hnext ▸ .gaveBack hphase
  · cases hnext
  · next hget hput hret => exact some.inj hnext ▸ .followed hget hput hret

/-! ### The table and the actors -/

/-- Beside `Shutdown` the connection threads are idle, and beside these `Shutdown` is. -/
def Beside (s : QpState) (a : Actor) : Prop :=
  ∀ b ≠ a, a = .shutdown ∨ b = .shutdown → s.actors b = .idle

/-- How the table, the connections and the actors stand to each other. -/
structure Links (m : Manager) (s : QpState) : Prop where
  /-- What is in the table is connected or about to be unlinked. -/
  linked : ∀ {r q}, s.qpArray r = some q → (s.connected r = true ∧ r < m.rankCount ∧ r ≠ m.rankId) ∨
      ∃ a ranks, s.actors a = .removing ranks ∧ r ∈ ranks
  creating : ∀ {a r}, s.actors a = .creating r →
    a.serves m r = true ∧ s.qpArray r = none ∧ s.connected r = true
  sides : ∀ {a ranks}, s.actors a = .removing ranks → ∀ r ∈ ranks,
    (a = .server → m.rankId ≤ r) ∧ (a = .client → r < m.rankId)
  /-- `Shutdown` unlinks all there is. -/
  shut : ∀ {ranks}, s.actors .shutdown = .removing ranks → ∀ {r q}, s.qpArray r = some q → r ∈ ranks
  alone : ∀ {a}, s.actors a ≠ .idle → Beside s a

variable {activity : Activity}

theorem actorsWith_self : s.actorsWith a activity a = activity :=
  update_self ..

theorem actorsWith_of_ne {b : Actor} (h : b ≠ a) : s.actorsWith a activity b = s.actors b :=
  update_of_ne h _ _

theorem actorsWith_cases {act : Activity} {b : Actor} (h : s.actorsWith a activity b = act) :
    (b = a ∧ activity = act) ∨ (b ≠ a ∧ s.actors b = act) := by
  by_cases hba : b = a
  · subst hba
    exact .inl ⟨rfl, actorsWith_self.symm.trans h⟩
  · exact .inr ⟨hba, (actorsWith_of_ne hba).symm.trans h⟩

theorem serves_cases (h : a.serves m r = true) : r < m.rankCount ∧
    ((a = .server ∧ m.rankId < r) ∨ (a = .client ∧ r < m.rankId)) := by
  cases a with
  | server =>
    simp only [Actor.serves, Bool.and_eq_true, decide_eq_true_eq] at h
    exact ⟨h.2, .inl ⟨rfl, h.1⟩⟩
  | client =>
    simp only [Actor.serves, Bool.and_eq_true, decide_eq_true_eq] at h
    exact ⟨h.2, .inr ⟨rfl, h.1⟩⟩
  | shutdown => nomatch h

theorem links_start : Links m .start where
  linked h := absurd h (by simp [QpState.start])
  creating h := absurd h (by simp [QpState.start])
  sides h := absurd h (by simp [QpState.start])
  shut h := absurd h (by simp [QpState.start])
  alone h := absurd rfl h

namespace Links

theorem unlinked (h : Links m s) (hidle : s.actors a = .idle) (hserves : a.serves m r = true)
    (hconn : s.connected r = false) (hshut : s.actors .shutdown = .idle) : s.qpArray r = none := by
  by_contra hne
  obtain ⟨q, hq⟩ := ne_none_iff_exists'.mp hne
  rcases h.linked hq with ⟨htrue, -⟩ | ⟨b, ranks, hb, hr⟩
  · exact Bool.false_ne_true (hconn.symm.trans htrue)
  -- who removes the rank is on its side, and so is `a`
  obtain ⟨hserver, hclient⟩ := h.sides hb r hr
  have hba : b ≠ a := by
    rintro rfl
    rw [hidle] at hb
    cases hb
  obtain ⟨-, ⟨rfl, hlt⟩ | ⟨rfl, hlt⟩⟩ := serves_cases hserves
  · have hc : b = .client := by cases b <;> simp_all
    have := hclient hc
    omega
  · have hc : b = .server := by cases b <;> simp_all
    have := hserver hc
    omega

theorem linked_beside (h : Links m s) (hq : s.qpArray r = some q)
    (hnot : ∀ {ranks}, s.actors a = .removing ranks → r ∉ ranks) (act : Activity) :
    (s.connected r = true ∧ r < m.rankCount ∧ r ≠ m.rankId) ∨
      ∃ b ranks, s.actorsWith a act b = .removing ranks ∧ r ∈ ranks := by
  refine (h.linked hq).imp_right ?_
  rintro ⟨b, ranks, hb, hmem⟩
  have hba : b ≠ a := by
    rintro rfl
    exact hnot hb hmem
  exact ⟨b, ranks, (actorsWith_of_ne hba).trans hb, hmem⟩

/-- What is left to show where the actor `a` moves on: what concerns `a` itself. -/
theorem step (h : Links m s) {act : Activity} (hactors : s'.actors = s.actorsWith a act)
    (hbeside : Beside s a)
    (hlinked : ∀ {r q}, s'.qpArray r = some q →
      (s'.connected r = true ∧ r < m.rankCount ∧ r ≠ m.rankId) ∨
        ∃ b ranks, s.actorsWith a act b = .removing ranks ∧ r ∈ ranks)
    (hcreating : ∀ {r}, act = .creating r →
      a.serves m r = true ∧ s'.qpArray r = none ∧ s'.connected r = true)
    (hothers : ∀ {b r}, b ≠ a → s.actors b = .creating r →
      s'.qpArray r = none ∧ s'.connected r = true)
    (hremoving : ∀ {ranks}, act = .removing ranks →
      (∀ r ∈ ranks, (a = .server → m.rankId ≤ r) ∧ (a = .client → r < m.rankId)) ∧
      (a = .shutdown → ∀ {r q}, s'.qpArray r = some q → r ∈ ranks)) : Links m s' := by
  refine ⟨fun hq => hactors ▸ hlinked hq, fun {b r} hb => ?_, fun {b ranks} hb => ?_,
    fun {ranks} hb => ?_, fun {c} hc b hbc hshut => ?_⟩
  · rcases actorsWith_cases (hactors ▸ hb) with ⟨rfl, hact⟩ | ⟨hba, hb⟩
    · exact hcreating hact
    · exact ⟨(h.creating hb).1, hothers hba hb⟩
  · rcases actorsWith_cases (hactors ▸ hb) with ⟨rfl, hact⟩ | ⟨-, hb⟩
    · exact (hremoving hact).1
    · exact h.sides hb
  · rcases actorsWith_cases (hactors ▸ hb) with ⟨rfl, hact⟩ | ⟨hne, hb⟩
    · exact (hremoving hact).2 rfl
    · exact absurd ((hbeside .shutdown hne (.inr rfl)).symm.trans hb) (by simp)
  rw [hactors] at hc ⊢
  by_cases hca : c = a
  · subst hca
    exact (actorsWith_of_ne hbc).trans (hbeside b hbc hshut)
  rw [actorsWith_of_ne hca] at hc
  have hba : b ≠ a := by
    rintro rfl
    exact hc (hbeside c hca hshut.symm)
  exact (actorsWith_of_ne hba).trans (h.alone hc b hbc hshut)

theorem createQp (h : Links m s) (hshut : s.actors .shutdown = .idle)
    (hnext : s.createQp m a r = some s') : Links m s' := by
  obtain ⟨⟨hidle, hserves, hconn, -⟩, rfl⟩ := of_guard hnext
  have hconnected : ∀ {r'}, s.connected r' = true → update s.connected r true r' = true := by
    intro r' hr'
    rw [update_apply]
    split
    · rfl
    · exact hr'
  refine h.step rfl ?_ (fun hq => ?_) (fun hact => ?_) (fun _ hb => ?_) fun hact => by cases hact
  · rintro b - (rfl | rfl)
    · cases hserves
    · exact hshut
  · exact (h.linked_beside hq (fun hact => absurd (hidle.symm.trans hact) (by simp)) _).imp_left
      (And.imp_left hconnected)
  · obtain rfl := Activity.creating.inj hact
    exact ⟨hserves, h.unlinked hidle hserves hconn hshut, update_self ..⟩
  · obtain ⟨-, hnone, hc⟩ := h.creating hb
    exact ⟨hnone, hconnected hc⟩

theorem publishQp (h : Links m s) (hnext : s.publishQp a = some s') : Links m s' := by
  rw [QpState.publishQp] at hnext
  split at hnext
  on_goal 2 => cases hnext
  next r hact =>
  split at hnext
  · cases hnext
  obtain rfl := some.inj hnext
  obtain ⟨hserves, hnone, hconn⟩ := h.creating hact
  obtain ⟨hlt, hside⟩ := serves_cases hserves
  refine h.step rfl (h.alone (by simp [hact])) (fun {r' q} hq => ?_) (fun hact => by cases hact)
    (fun {b r'} hba hb => ?_) fun hact => by cases hact
  · by_cases hr : r' = r
    · subst hr
      refine .inl ⟨hconn, hlt, ?_⟩
      rcases hside with ⟨-, hlt⟩ | ⟨-, hlt⟩ <;> omega
    · exact h.linked_beside ((update_of_ne hr _ _).symm.trans hq)
        (fun hrem => absurd (hact.symm.trans hrem) (by simp)) _
  · obtain ⟨hserves', hnone', hc⟩ := h.creating hb
    have hr : r' ≠ r := by
      rintro rfl
      obtain ⟨-, hother⟩ := serves_cases hserves'
      apply hba
      rcases hside with ⟨rfl, hlt⟩ | ⟨rfl, hlt⟩ <;>
        rcases hother with ⟨rfl, hlt'⟩ | ⟨rfl, hlt'⟩ <;> first | rfl | omega
    exact ⟨(update_of_ne hr _ _).trans hnone', hc⟩

variable {ranks : List ℕ}

theorem mem_taken : r ∈ QpState.taken m ranks ↔ r ∈ ranks ∧ r < m.rankCount ∧ r ≠ m.rankId := by
  simp [QpState.taken]

theorem removes_sides (h : a.removes m ranks = true) (hr : r ∈ ranks) :
    (a = .server → m.rankId ≤ r) ∧ (a = .client → r < m.rankId) := by
  refine ⟨?_, ?_⟩
  · rintro rfl
    simpa using all_eq_true.mp h r hr
  · rintro rfl
    simpa using all_eq_true.mp h r hr

section

variable (h : Links m s)
include h

theorem beginRemoval (hord : Orderly s (.beginRemoval a ranks))
    (hnext : s.beginRemoval m a ranks = some s') : Links m s' := by
  obtain ⟨⟨hidle, hrem, -⟩, rfl⟩ := of_guard hnext
  have hbeside : Beside s a := by
    intro b hba hshut
    cases a with
    | server | client =>
      obtain rfl := hshut.resolve_left (by simp)
      exact hord
    | shutdown =>
      cases b with
      | server => exact hord.1
      | client => exact hord.2
      | shutdown => exact absurd rfl hba
  refine h.step rfl hbeside (fun {r q} hq => ?_) (fun hact => by cases hact)
    (fun {b r} hba hb => ?_) fun hact => ?_
  · rcases h.linked_beside hq (fun hact => absurd (hidle.symm.trans hact) (by simp)) _ with
      ⟨hc, hr⟩ | hother
    · by_cases htaken : r ∈ QpState.taken m ranks
      · exact .inr ⟨a, _, actorsWith_self, mem_filter.mpr ⟨htaken, hc⟩⟩
      · exact .inl ⟨by simp [hc, htaken], hr⟩
    · exact .inr hother
  · obtain ⟨hserves, hnone, hc⟩ := h.creating hb
    have hnot : r ∉ QpState.taken m ranks := by
      intro hr
      obtain ⟨hserver, hclient⟩ := removes_sides hrem (mem_taken.mp hr).1
      have hshut : a ≠ .shutdown := by
        rintro rfl
        exact absurd ((hbeside b hba (.inl rfl)).symm.trans hb) (by simp)
      obtain ⟨-, ⟨rfl, hlt⟩ | ⟨rfl, hlt⟩⟩ := serves_cases hserves
      · have := hclient (by cases a <;> simp_all)
        omega
      · have := hserver (by cases a <;> simp_all)
        omega
    exact ⟨hnone, by simp [hc, hnot]⟩
  obtain rfl := Activity.removing.inj hact
  refine ⟨fun r hr => removes_sides hrem (mem_taken.mp (mem_filter.mp hr).1).1, ?_⟩
  rintro rfl r q hq
  rcases h.linked hq with ⟨hc, hr⟩ | ⟨b, ranks', hb, -⟩
  · -- `Shutdown` takes out every rank
    have hrange : ranks = range m.rankCount := by simpa [Actor.removes] using hrem
    exact mem_filter.mpr ⟨mem_taken.mpr ⟨hrange ▸ mem_range.mpr hr.1, hr⟩, hc⟩
  have hidle' : s.actors b = .idle := by
    by_cases hshut : b = .shutdown
    · exact hshut ▸ hidle
    · exact hbeside b hshut (.inl rfl)
  exact absurd (hidle'.symm.trans hb) (by simp)

theorem unlink (hnext : s.unlink a = some s') : Links m s' := by
  rw [QpState.unlink] at hnext
  split at hnext
  on_goal 2 => cases hnext
  next r rest hact =>
  split at hnext
  · cases hnext
  next q hq =>
  obtain rfl := some.inj hnext
  have hentry : ∀ {r' q'}, update s.qpArray r none r' = some q' →
      r' ≠ r ∧ s.qpArray r' = some q' := by
    intro r' q' hr'
    by_cases hr : r' = r
    · subst hr
      exact absurd ((update_self ..).symm.trans hr') (by simp)
    · exact ⟨hr, (update_of_ne hr _ _).symm.trans hr'⟩
  refine h.step rfl (h.alone (by simp [hact])) (fun {r' q'} hr' => ?_) (fun hact => by cases hact)
    (fun {b r'} _ hb => ?_) fun hact' => ?_
  · obtain ⟨hne, hr'⟩ := hentry hr'
    rcases h.linked hr' with hc | ⟨b, ranks, hb, hmem⟩
    · exact .inl hc
    by_cases hba : b = a
    · subst hba
      obtain rfl := Activity.removing.inj (hact.symm.trans hb)
      exact .inr ⟨b, rest, actorsWith_self, (mem_cons.mp hmem).resolve_left hne⟩
    · exact .inr ⟨b, ranks, (actorsWith_of_ne hba).trans hb, hmem⟩
  · obtain ⟨-, hnone, hc⟩ := h.creating hb
    refine ⟨?_, hc⟩
    show update s.qpArray r none r' = none
    rw [update_apply]
    split
    · rfl
    · exact hnone
  obtain rfl := Activity.removing.inj hact'
  refine ⟨fun r' hr' => h.sides hact r' (mem_cons_of_mem r hr'), ?_⟩
  rintro rfl r' q' hr'
  obtain ⟨hne, hbefore⟩ := hentry hr'
  exact (mem_cons.mp (h.shut hact hbefore)).resolve_left hne

theorem empty_of_shut (hact : s.actors .shutdown = .removing []) : s.qpArray r = none := by
  by_contra hne
  obtain ⟨q, hq⟩ := ne_none_iff_exists'.mp hne
  exact absurd (h.shut hact hq) not_mem_nil

theorem finishRemoval (hnext : s.finishRemoval a = some s') : Links m s' := by
  rw [QpState.finishRemoval] at hnext
  split at hnext
  on_goal 2 => cases hnext
  next hact =>
  have hbeside := h.alone (a := a) (by simp [hact])
  split at hnext
  · next ha =>
    subst ha
    obtain rfl := some.inj hnext
    refine h.step rfl hbeside (fun hq => by cases hq) (fun hact => by cases hact)
      (fun hba hb => ?_) fun hact => by cases hact
    exact absurd ((hbeside _ hba (.inl rfl)).symm.trans hb) (by simp)
  · obtain rfl := some.inj hnext
    refine h.step rfl hbeside (fun hq => h.linked_beside hq (fun hrem => ?_) _)
      (fun hact => by cases hact) (fun _ hb => (h.creating hb).2) fun hact => by cases hact
    obtain rfl := Activity.removing.inj (hact.symm.trans hrem)
    exact not_mem_nil

theorem frame (qps : List QpInfo) (calls : List IoCall) :
    Links m { s with qps := qps, calls := calls } :=
  { h with }

theorem dropManager (hnext : s.dropManager = some s') : Links m s' := by
  obtain ⟨-, rfl⟩ := of_guard hnext
  exact { h with }

theorem advance {i : ℕ} {ok : Bool} (hnext : s.advance m i ok = some s') : Links m s' := by
  obtain ⟨c, -, hadvanced⟩ := advance_cases hnext
  cases hadvanced with
  | refused | took | gaveBack | followed => exact h.frame _ _

end

end Links

/-! ### The references -/

/-- The table has queue pairs for their own ranks, the operations use queue pairs that were
made, and the counts are right. -/
structure Refs (s : QpState) : Prop where
  entry : ∀ {r q}, s.qpArray r = some q → ∃ info, s.qps[q]? = some info ∧ info.rankId = r
  used : ∀ c ∈ s.calls, ∀ {q}, c.phase.qp = some q → q < s.qps.length
  tallies : ∀ {q} {info : QpInfo}, s.qps[q]? = some info → info.Tallies (s.owners q)
  matched : ∀ c ∈ s.calls, c.gets = c.puts + if c.phase.qp.isSome then 1 else 0

theorem inTable_eq {info : QpInfo} (h : s.qps[q]? = some info) :
    s.inTable q = (s.qpArray info.rankId == some q) := by
  rw [QpState.inTable, h]

theorem refs_start : Refs .start where
  entry h := absurd h (by simp [QpState.start])
  used c hc := nomatch hc
  tallies h := absurd h (by simp [QpState.start])
  matched c hc := nomatch hc

theorem getElem?_modify_some {α : Type*} {l : List α} {f : α → α} {i j : ℕ} {b : α}
    (h : (l.modify i f)[j]? = some b) : ∃ x, l[j]? = some x ∧ b = if i = j then f x else x := by
  rw [getElem?_modify] at h
  obtain ⟨x, hx, rfl⟩ := map_eq_some_iff.mp h
  exact ⟨x, hx, rfl⟩

theorem countP_set_add {α : Type*} {l : List α} {p : α → Bool} {i : ℕ} {x y : α}
    (h : l[i]? = some x) :
    (l.set i y).countP p + (if p x then 1 else 0) = l.countP p + if p y then 1 else 0 := by
  obtain ⟨hi, hx⟩ := List.getElem?_eq_some_iff.mp h
  rw [countP_set hi, hx]
  have hpos : p x = true → 0 < l.countP p := fun hp =>
    countP_pos_iff.mpr ⟨x, mem_of_getElem? h, hp⟩
  split
  · next hp =>
    have := hpos hp
    omega
  · omega

theorem inTable_modify {f : QpInfo → QpInfo} (hf : ∀ info, (f info).rankId = info.rankId)
    (calls : List IoCall) (q' : ℕ) :
    { s with qps := s.qps.modify q f, calls := calls }.inTable q' = s.inTable q' := by
  simp only [QpState.inTable, getElem?_modify]
  cases s.qps[q']? with
  | none => rfl
  | some info =>
    by_cases hq : q = q'
    · simp [hq, hf]
    · simp [hq]

theorem owners_of_calls {calls : List IoCall}
    (h : calls.countP (fun c => c.phase.qp == some q) = s.inFlight q) :
    QpState.owners { s with calls := calls } q = s.owners q :=
  congrArg ((if s.inTable q then 1 else 0) + ·) h

namespace Refs

section

variable (h : Refs s)
include h

theorem frame (connected : ℕ → Bool) (actors : Actor → Activity) :
    Refs { s with connected := connected, actors := actors } :=
  { h with }

theorem entry_modify (f : QpInfo → QpInfo) (hf : ∀ info, (f info).rankId = info.rankId) {q' : ℕ}
    (hr : s.qpArray r = some q') :
    ∃ info, (s.qps.modify q f)[q']? = some info ∧ info.rankId = r := by
  obtain ⟨info, hinfo, hrank⟩ := h.entry hr
  refine ⟨if q = q' then f info else info, ?_, ?_⟩
  · rw [getElem?_modify, hinfo]
    rfl
  · split
    · exact (hf info).trans hrank
    · exact hrank

theorem createQp (hnext : s.createQp m a r = some s') : Refs s' := by
  obtain ⟨-, rfl⟩ := of_guard hnext
  exact h.frame _ _

theorem beginRemoval {ranks : List ℕ} (hnext : s.beginRemoval m a ranks = some s') : Refs s' := by
  obtain ⟨-, rfl⟩ := of_guard hnext
  exact h.frame _ _

theorem dropManager (hnext : s.dropManager = some s') : Refs s' := by
  obtain ⟨-, rfl⟩ := of_guard hnext
  exact { h with }

theorem finishRemoval (hlinks : Links m s) (hnext : s.finishRemoval a = some s') : Refs s' := by
  rw [QpState.finishRemoval] at hnext
  split at hnext
  · next hact =>
    split at hnext
    · next ha =>
      subst ha
      obtain rfl := some.inj hnext
      have hempty : s.qpArray = fun _ => none := funext fun r => hlinks.empty_of_shut hact
      rw [← hempty]
      exact { h with }
    · obtain rfl := some.inj hnext
      exact h.frame _ _
  · cases hnext

theorem publishQp (hlinks : Links m s) (hnext : s.publishQp a = some s') : Refs s' := by
  rw [QpState.publishQp] at hnext
  split at hnext
  on_goal 2 => cases hnext
  next r hact =>
  split at hnext
  · cases hnext
  obtain rfl := some.inj hnext
  obtain ⟨-, hnone, -⟩ := hlinks.creating hact
  have hold : ∀ {q : ℕ} {info : QpInfo}, s.qps[q]? = some info →
      (s.qps ++ [⟨r, 1, 0⟩])[q]? = some info := by
    intro q info hq
    rw [List.getElem?_append_left (List.getElem?_eq_some_iff.mp hq).1, hq]
  refine ⟨?_, ?_, ?_, h.matched⟩
  · intro r' q hq
    by_cases hr : r' = r
    · subst hr
      have hself : update s.qpArray r' (some s.qps.length) r' = some q := hq
      rw [update_self] at hself
      obtain rfl := some.inj hself
      exact ⟨⟨r', 1, 0⟩, by simp, rfl⟩
    · obtain ⟨info, hinfo, hrank⟩ := h.entry ((update_of_ne hr _ _).symm.trans hq)
      exact ⟨info, hold hinfo, hrank⟩
  · intro c hc q hq
    have := h.used c hc hq
    simp only [length_append, length_singleton]
    omega
  intro q info hinfo
  rcases Nat.lt_or_ge q s.qps.length with hlt | hge
  · -- an older queue pair: it was not in the table for this rank
    rw [getElem?_append_left hlt] at hinfo
    have hsame : (update s.qpArray r (some s.qps.length) info.rankId == some q) =
        (s.qpArray info.rankId == some q) := by
      rw [update_apply]
      split
      · next hr =>
        rw [hr, hnone]
        simp
        omega
      · rfl
    have htallies := h.tallies hinfo
    rw [QpState.owners, inTable_eq hinfo] at htallies
    rw [QpState.owners, inTable_eq (hold hinfo), hsame]
    exact htallies
  have hq : q = s.qps.length := by
    have := (List.getElem?_eq_some_iff.mp hinfo).1
    simp only [length_append, length_singleton] at this
    omega
  subst hq
  have hinfo' : info = ⟨r, 1, 0⟩ := by simpa using hinfo.symm
  subst hinfo'
  have hunused : QpState.inFlight s s.qps.length = 0 := by
    refine countP_eq_zero.mpr fun c hc hp => ?_
    have := h.used c hc (beq_iff_eq.mp hp)
    omega
  have htable : (update s.qpArray r (some s.qps.length) r ==
      some s.qps.length) = true := by rw [update_self]; exact beq_self_eq_true _
  rw [QpState.owners, inTable_eq hinfo]
  show QpInfo.Tallies ⟨r, 1, 0⟩ ((if (update s.qpArray r (some s.qps.length) r ==
    some s.qps.length) = true then 1 else 0) + s.inFlight s.qps.length)
  rw [htable, hunused]
  exact ⟨rfl, rfl⟩

theorem unlink (hnext : s.unlink a = some s') : Refs s' := by
  rw [QpState.unlink] at hnext
  split at hnext
  on_goal 2 => cases hnext
  next r rest hact =>
  split at hnext
  · cases hnext
  next q hq =>
  obtain rfl := some.inj hnext
  obtain ⟨info₀, hinfo₀, hrank₀⟩ := h.entry hq
  refine ⟨?_, ?_, ?_, h.matched⟩
  · intro r' q' hr'
    have hne : r' ≠ r := by
      rintro rfl
      exact absurd ((update_self ..).symm.trans hr') (by simp)
    exact h.entry_modify QpInfo.put (fun _ => rfl) ((update_of_ne hne _ _).symm.trans hr')
  · intro c hc q' hq'
    rw [length_modify]
    exact h.used c hc hq'
  intro q' info' hinfo'
  obtain ⟨info, hinfo, rfl⟩ := getElem?_modify_some hinfo'
  have htallies := h.tallies hinfo
  rw [QpState.owners, inTable_eq hinfo] at htallies
  have hrank : (if q = q' then info.put else info).rankId = info.rankId := by
    split <;> rfl
  rw [QpState.owners, inTable_eq hinfo', hrank]
  by_cases hqq : q = q'
  · subst hqq
    obtain rfl : info₀ = info := some.inj (hinfo₀.symm.trans hinfo)
    rw [hrank₀, hq, if_pos (beq_self_eq_true _)] at htallies
    rw [if_pos rfl]
    have hnone : (update s.qpArray r none info₀.rankId == some q) = false := by
      rw [hrank₀, update_self]
      rfl
    show info₀.put.Tallies ((if (update s.qpArray r none info₀.rankId == some q) =
      true then 1 else 0) + s.inFlight q)
    rw [hnone, if_neg Bool.false_ne_true, Nat.zero_add]
    rw [Nat.add_comm] at htallies
    exact htallies.put
  rw [if_neg hqq]
  have hsame : (update s.qpArray r none info.rankId == some q') =
      (s.qpArray info.rankId == some q') := by
    rw [update_apply]
    split
    · next hr =>
      rw [hr, hq]
      simp [hqq]
    · rfl
  show info.Tallies ((if (update s.qpArray r none info.rankId == some q') = true
    then 1 else 0) + s.inFlight q')
  rw [hsame]
  exact htallies

theorem enter (kind : IoKind) (rankId : ℕ) : Refs (s.enter kind rankId) := by
  set c : IoCall := ⟨kind, rankId, if s.dropped then .returned else .getQpHandle, 0, 0⟩ with hc
  have hqp : c.phase.qp = none := by
    rw [hc]
    split <;> rfl
  have hmem : ∀ {x}, x ∈ s.calls ++ [c] → x ∈ s.calls ∨ x = c := fun hx =>
    (mem_append.mp hx).imp_right mem_singleton.mp
  refine ⟨h.entry, ?_, ?_, ?_⟩
  · intro x hx q hq
    rcases hmem hx with hx | rfl
    · exact h.used x hx hq
    · exact absurd (hqp.symm.trans hq) (by simp)
  · intro q info hinfo
    have hflight : (s.calls ++ [c]).countP (fun c => c.phase.qp == some q) = s.inFlight q := by
      rw [countP_append, countP_singleton, hqp]
      rfl
    have htallies := h.tallies hinfo
    rw [← owners_of_calls hflight] at htallies
    exact htallies
  intro x hx
  rcases hmem hx with hx | rfl
  · exact h.matched x hx
  · rw [hqp]
    rfl

end

variable {i : ℕ} {c : IoCall}

section

variable (h : Refs s) (hi : s.calls[i]? = some c)
include h hi

theorem setCall {phase : IoPhase} (hphase : phase.qp = c.phase.qp) :
    Refs { s with calls := s.calls.set i { c with phase := phase } } := by
  have hc := mem_of_getElem? hi
  refine ⟨h.entry, ?_, ?_, ?_⟩
  · intro x hx q hq
    rcases mem_or_eq_of_mem_set hx with hx | rfl
    · exact h.used x hx hq
    · exact h.used c hc (hphase ▸ hq)
  · intro q info hinfo
    have hflight : (s.calls.set i { c with phase := phase }).countP
        (fun c => c.phase.qp == some q) = s.inFlight q := by
      have hcount := @countP_set_add _ s.calls (fun c => c.phase.qp == some q) i c
        { c with phase := phase } hi
      rw [hphase] at hcount
      exact Nat.add_right_cancel hcount
    have htallies := h.tallies hinfo
    rw [← owners_of_calls hflight] at htallies
    exact htallies
  intro x hx
  rcases mem_or_eq_of_mem_set hx with hx | rfl
  · exact h.matched x hx
  dsimp only
  rw [hphase]
  exact h.matched c hc

theorem tallies_modify (c' : IoCall) (f : QpInfo → QpInfo)
    (hf : ∀ info, (f info).rankId = info.rankId)
    (hother : ∀ q', q' ≠ q → (c.phase.qp == some q') = (c'.phase.qp == some q'))
    (htally : ∀ {info : QpInfo} {n : ℕ}, info.Tallies n →
      (if s.inTable q then 1 else 0) + s.inFlight q = n →
      (f info).Tallies ((if s.inTable q then 1 else 0) +
        QpState.inFlight { s with calls := s.calls.set i c' } q)) :
    ∀ {q'} {info : QpInfo}, (s.qps.modify q f)[q']? = some info → info.Tallies
      (QpState.owners { s with qps := s.qps.modify q f, calls := s.calls.set i c' } q') := by
  intro q' info' hinfo'
  obtain ⟨info, hinfo, rfl⟩ := getElem?_modify_some hinfo'
  rw [QpState.owners, inTable_modify hf]
  have htallies := h.tallies hinfo
  by_cases hqq : q = q'
  · subst hqq
    rw [if_pos rfl]
    exact htally htallies rfl
  rw [if_neg hqq]
  have hcount := @countP_set_add _ s.calls (fun c => c.phase.qp == some q') i c c' hi
  rw [hother q' (Ne.symm hqq)] at hcount
  have hflight : QpState.inFlight
      { s with qps := s.qps.modify q f, calls := s.calls.set i c' } q' = s.inFlight q' :=
    Nat.add_right_cancel hcount
  rw [hflight]
  exact htallies

theorem getQpHandle (hphase : c.phase = .getQpHandle) (hq : s.qpArray c.rankId = some q) :
    Refs { s with
      calls := s.calls.set i
        (c.taking (if c.kind = .synchronize then .synchronize q else .threadStream q))
      qps := s.qps.modify q QpInfo.get } := by
  have hc := mem_of_getElem? hi
  have hqp : c.phase.qp = none := by rw [hphase]; rfl
  set phase := if c.kind = .synchronize then IoPhase.synchronize q else .threadStream q with hphase'
  have hqp' : phase.qp = some q := by
    rw [hphase']
    split <;> rfl
  obtain ⟨info₀, hinfo₀, hrank₀⟩ := h.entry hq
  have htable : s.inTable q = true := by
    rw [inTable_eq hinfo₀, hrank₀, hq]
    exact beq_self_eq_true _
  refine ⟨fun hr' => h.entry_modify QpInfo.get (fun _ => rfl) hr', ?_, ?_, ?_⟩
  · intro x hx q' hq'
    rw [length_modify]
    rcases mem_or_eq_of_mem_set hx with hx | rfl
    · exact h.used x hx hq'
    · obtain rfl := some.inj (hqp'.symm.trans hq')
      exact (List.getElem?_eq_some_iff.mp hinfo₀).1
  · refine h.tallies_modify hi (c.taking phase) QpInfo.get (fun _ => rfl) ?_ ?_
    · intro q' hne
      rw [hqp]
      show _ = (phase.qp == some q')
      rw [hqp']
      simp [Ne.symm hne]
    intro info n htallies hn
    have hcount := @countP_set_add _ s.calls (fun c => c.phase.qp == some q) i c (c.taking phase) hi
    have htaking : (c.taking phase).phase.qp = some q := hqp'
    rw [hqp, htaking, if_pos (beq_self_eq_true _), if_neg (by simp), Nat.add_zero] at hcount
    rw [QpState.inFlight, hcount, ← Nat.add_assoc]
    rw [← hn] at htallies
    refine htallies.get ?_
    rw [htable, if_pos rfl]
    omega
  intro x hx
  rcases mem_or_eq_of_mem_set hx with hx | rfl
  · exact h.matched x hx
  have hmatch := h.matched c hc
  rw [hqp] at hmatch
  show c.gets + 1 = c.puts + if phase.qp.isSome then 1 else 0
  rw [hqp', hmatch]
  rfl

theorem putQpHandle (hphase : c.phase = .putQpHandle q) :
    Refs { s with
      calls := s.calls.set i c.released
      qps := s.qps.modify q QpInfo.put } := by
  have hc := mem_of_getElem? hi
  have hqp : c.phase.qp = some q := by rw [hphase]; rfl
  refine ⟨fun hr' => h.entry_modify QpInfo.put (fun _ => rfl) hr', ?_, ?_, ?_⟩
  · intro x hx q' hq'
    show q' < (s.qps.modify q QpInfo.put).length
    rw [length_modify]
    rcases mem_or_eq_of_mem_set hx with hx | rfl
    · exact h.used x hx hq'
    · exact absurd hq' (by simp [IoCall.released, IoPhase.qp])
  · refine h.tallies_modify hi c.released QpInfo.put (fun _ => rfl) ?_ ?_
    · intro q' hne
      rw [hqp]
      simp [IoCall.released, IoPhase.qp, Ne.symm hne]
    intro info n htallies hn
    have hcount := @countP_set_add _ s.calls (fun c => c.phase.qp == some q) i c c.released hi
    have hret : (c.released.phase.qp == some q) = false := rfl
    rw [hqp, if_pos (beq_self_eq_true _), hret, if_neg Bool.false_ne_true] at hcount
    have hn' : n = (if s.inTable q then 1 else 0) +
        QpState.inFlight { s with calls := s.calls.set i c.released } q + 1 := by
      rw [← hn, QpState.inFlight, QpState.inFlight, Nat.add_assoc, hcount, Nat.add_zero]
    rw [hn'] at htallies
    exact htallies.put
  intro x hx
  rcases mem_or_eq_of_mem_set hx with hx | rfl
  · exact h.matched x hx
  have hmatch := h.matched c hc
  rw [hqp] at hmatch
  exact hmatch

end

theorem advance (h : Refs s) {ok : Bool} (hord : Orderly s (.advance i ok))
    (hnext : s.advance m i ok = some s') : Refs s' := by
  obtain ⟨c, hi, hadvanced⟩ := advance_cases hnext
  cases hadvanced with
  | refused hphase => exact h.setCall hi (by rw [hphase]; rfl)
  | took hphase hq => exact h.getQpHandle hi hphase hq
  | gaveBack hphase => exact h.putQpHandle hi hphase
  | followed hget hput hret =>
    refine h.setCall hi ?_
    cases hphase : c.phase with
    | threadStream qp =>
      obtain rfl : ok = true := hord c hi (by rw [hphase]; rfl)
      rfl
    | getQpHandle => exact absurd hphase hget
    | putQpHandle qp => exact absurd hphase (hput qp)
    | returned => exact absurd hphase hret
    | synchronize qp => rfl
    | submitTasks qp =>
      rw [IoCall.follow]
      split <;> rfl
    | correctHostRegWr qp | raSendWr qp => cases ok <;> rfl

end Refs

/-! ### The end of the manager -/

/-- No operation will read a table that is cleared or use a manager that is gone. -/
structure Left (s : QpState) : Prop where
  cleared : s.closed = true → ∀ c ∈ s.calls, c.phase ≠ .getQpHandle
  gone : s.dropped = true → ∀ c ∈ s.calls, c.phase = .returned

namespace Left

variable {i : ℕ} {ok : Bool} {c : IoCall}

theorem setCall (h : Left s) (hdropped : s.dropped = false) {c' : IoCall}
    (hc' : c'.phase ≠ .getQpHandle) (qps : List QpInfo) :
    Left { s with qps := qps, calls := s.calls.set i c' } := by
  refine ⟨fun hclosed x hx => ?_, fun hgone => absurd (hdropped.symm.trans hgone) (by decide)⟩
  rcases mem_or_eq_of_mem_set hx with hx | rfl
  · exact h.cleared hclosed x hx
  · exact hc'

theorem publishQp (h : Left s) (hnext : s.publishQp a = some s') : Left s' := by
  rw [QpState.publishQp] at hnext
  split at hnext
  on_goal 2 => cases hnext
  obtain ⟨-, hnext⟩ := ite_none_left_eq_some.mp hnext
  obtain rfl := some.inj hnext
  exact ⟨h.cleared, h.gone⟩

theorem unlink (h : Left s) (hnext : s.unlink a = some s') : Left s' := by
  rw [QpState.unlink] at hnext
  split at hnext
  on_goal 2 => cases hnext
  split at hnext
  · cases hnext
  · obtain rfl := some.inj hnext
    exact ⟨h.cleared, h.gone⟩

theorem finishRemoval (h : Left s) (hord : Orderly s (.finishRemoval a))
    (hnext : s.finishRemoval a = some s') : Left s' := by
  rw [QpState.finishRemoval] at hnext
  split at hnext
  on_goal 2 => cases hnext
  split at hnext
  · next ha =>
    subst ha
    obtain rfl := some.inj hnext
    exact ⟨fun _ => hord, h.gone⟩
  · obtain rfl := some.inj hnext
    exact ⟨h.cleared, h.gone⟩

theorem dropManager (h : Left s) (hord : Orderly s .dropManager)
    (hnext : s.dropManager = some s') : Left s' := by
  obtain ⟨-, rfl⟩ := of_guard hnext
  exact ⟨h.cleared, fun _ => hord⟩

theorem enter (h : Left s) {kind : IoKind} {rankId : ℕ} (hord : Orderly s (.enter kind rankId)) :
    Left (s.enter kind rankId) := by
  refine ⟨fun hclosed c hc => ?_, fun hgone c hc => ?_⟩
  · rcases mem_append.mp hc with hc | hc
    · exact h.cleared hclosed c hc
    · obtain rfl := mem_singleton.mp hc
      simp [hord hclosed]
  · rcases mem_append.mp hc with hc | hc
    · exact h.gone hgone c hc
    · obtain rfl := mem_singleton.mp hc
      exact if_pos hgone

/-- An operation that has not returned can go on, whatever it is answered. -/
theorem advance_isSome (h : Left s) (hi : s.calls[i]? = some c) (hc : c.phase ≠ .returned) :
    (s.advance m i ok).isSome := by
  have hmem := mem_of_getElem? hi
  have hdropped : s.dropped = false :=
    Bool.eq_false_iff.mpr fun hgone => hc (h.gone hgone c hmem)
  rw [QpState.advance, hi]
  dsimp only
  split
  · next hphase =>
    have hclosed : s.closed = false :=
      Bool.eq_false_iff.mpr fun hclosed => h.cleared hclosed c hmem hphase
    rw [QpState.getQpHandle, if_neg (by simp [hdropped]), hclosed]
    split
    · rfl
    · rw [if_neg Bool.false_ne_true]
      split <;> rfl
  · rw [QpState.putQpHandle, if_neg (by simp [hdropped])]
    rfl
  · next hphase => exact absurd hphase hc
  · rfl

theorem follow_ne (kind : IoKind) {phase : IoPhase} (h : phase ≠ .getQpHandle) :
    IoCall.follow kind ok phase ≠ .getQpHandle := by
  cases phase with
  | getQpHandle => exact absurd rfl h
  | putQpHandle | returned | synchronize => simp [IoCall.follow]
  | threadStream | correctHostRegWr | raSendWr | submitTasks =>
    rw [IoCall.follow]
    split <;> simp

theorem advance (h : Left s) (hnext : s.advance m i ok = some s') : Left s' := by
  obtain ⟨c, hi, hadvanced⟩ := advance_cases hnext
  have hdropped : c.phase ≠ .returned → s.dropped = false := fun hc =>
    Bool.eq_false_iff.mpr fun hgone => hc (h.gone hgone c (mem_of_getElem? hi))
  cases hadvanced with
  | refused hphase => exact h.setCall (hdropped (by rw [hphase]; simp)) (by simp) s.qps
  | took hphase hq =>
    refine h.setCall (hdropped (by rw [hphase]; simp)) ?_ _
    rw [IoCall.taking]
    split <;> simp
  | gaveBack hphase =>
    exact h.setCall (hdropped (by rw [hphase]; simp)) (by simp [IoCall.released]) _
  | followed hget _ hret => exact h.setCall (hdropped hret) (follow_ne c.kind hget) s.qps

end Left

/-! ### Runs -/

theorem left_of_orderly (h : (qpSystem m).ReachableBy Orderly s) : Left s := by
  refine h.invariant ⟨fun hclosed => (by cases hclosed), fun hgone => (by cases hgone)⟩ ?_
  intro s s' step hleft hord hnext
  cases step with
  | createQp | beginRemoval =>
    obtain ⟨-, rfl⟩ := of_guard hnext
    exact ⟨hleft.cleared, hleft.gone⟩
  | publishQp a => exact hleft.publishQp hnext
  | unlink a => exact hleft.unlink hnext
  | finishRemoval a => exact hleft.finishRemoval hord hnext
  | dropManager => exact hleft.dropManager hord hnext
  | enter kind rankId =>
    obtain rfl := some.inj hnext
    exact hleft.enter hord
  | advance i ok => exact hleft.advance hnext

theorem links_and_refs (h : (qpSystem m).ReachableBy Orderly s) : Links m s ∧ Refs s := by
  refine h.invariant (I := fun s => Links m s ∧ Refs s) ⟨links_start, refs_start⟩ ?_
  rintro s s' step ⟨hlinks, hrefs⟩ hord hnext
  cases step with
  | createQp a r => exact ⟨hlinks.createQp hord hnext, hrefs.createQp hnext⟩
  | publishQp a => exact ⟨hlinks.publishQp hnext, hrefs.publishQp hlinks hnext⟩
  | beginRemoval a ranks => exact ⟨hlinks.beginRemoval hord hnext, hrefs.beginRemoval hnext⟩
  | unlink a => exact ⟨hlinks.unlink hnext, hrefs.unlink hnext⟩
  | finishRemoval a => exact ⟨hlinks.finishRemoval hnext, hrefs.finishRemoval hlinks hnext⟩
  | dropManager => exact ⟨hlinks.dropManager hnext, hrefs.dropManager hnext⟩
  | enter kind rankId =>
    obtain rfl := some.inj hnext
    exact ⟨hlinks.frame _ _, hrefs.enter kind rankId⟩
  | advance i ok => exact ⟨hlinks.advance hnext, hrefs.advance hord hnext⟩

theorem Refs.balanced (h : Refs s) : Balanced s where
  matched := by
    intro c hc hphase
    have := h.matched c hc
    rw [hphase] at this
    exact this.symm
  counted := fun _ _ hinfo => (h.tallies hinfo).ref
  destroyed := by
    intro q info hinfo
    rw [(h.tallies hinfo).destroyed, QpState.owners]
    by_cases htable : s.inTable q
    · simp [htable]
    by_cases hflight : 0 < s.inFlight q
    · simp [htable, hflight]
      omega
    · simp [htable, hflight]
      omega

/-- In every orderly run the references are balanced, and no operation is stuck half way. -/
theorem balanced_of_orderly (h : (qpSystem m).ReachableBy Orderly s) :
    Balanced s ∧ ∀ i c, s.calls[i]? = some c → c.phase ≠ .returned →
      ∀ ok, (s.advance m i ok).isSome :=
  ⟨(links_and_refs h).2.balanced, fun _ _ hi hc _ => (left_of_orderly h).advance_isSome hi hc⟩

/-- What can be seen of the queue pairs and the operations. -/
def QpState.seen (s : QpState) : List QpInfo × List IoCall := (s.qps, s.calls)

/-- Rank 1 is connected and an operation on it takes the queue pair `0`. -/
def connectAndTake : List QpStep :=
  [.createQp .server 1, .publishQp .server, .enter (.remoteIo false) 1, .advance 0 true]

def removeRank : List QpStep := [.beginRemoval .server [1], .unlink .server, .finishRemoval .server]

def closeDevice : List QpStep := [.beginRemoval .shutdown [0, 1], .finishRemoval .shutdown,
  .dropManager]

/-- The rank is removed while an operation is under way; the operation destroys the queue pair,
and the device is closed. -/
theorem balanced_after_removal :
    ∃ s, (qpSystem ⟨0, 2⟩).ReachableBy Orderly s ∧ s.seen =
        ([⟨1, 0, 1⟩], [⟨.remoteIo false, 1, .returned, 1, 1⟩]) ∧ Balanced s := by
  refine TransitionSystem.exists_reachableBy (connectAndTake ++ removeRank ++ replicate 5
    (.advance 0 true) ++ closeDevice) QpState.seen
    ([⟨1, 0, 1⟩], [⟨.remoteIo false, 1, .returned, 1, 1⟩]) ?_
    fun s hreach hseen => ?_
  · decide +kernel
  exact ⟨hseen, (balanced_of_orderly hreach).1⟩

/-- An operation on a thread without a stream leaves its reference behind, and the queue pair is
never destroyed. -/
theorem reference_leaked :
    ∃ s, (qpSystem ⟨0, 2⟩).Reachable s ∧ s.seen =
        ([⟨1, 1, 0⟩], [⟨.remoteIo false, 1, .returned, 1, 0⟩]) ∧ ¬ Balanced s := by
  refine TransitionSystem.exists_reachable (connectAndTake ++ [.advance 0 false] ++ removeRank)
    QpState.seen ([⟨1, 1, 0⟩], [⟨.remoteIo false, 1, .returned, 1, 0⟩]) ?_ fun s _ hseen => ?_
  · decide +kernel
  refine ⟨hseen, fun hbalanced => ?_⟩
  obtain ⟨-, hcalls⟩ := Prod.mk.inj hseen
  have hc : ⟨.remoteIo false, 1, .returned, 1, 0⟩ ∈ s.calls := by
    rw [hcalls]
    exact mem_cons_self
  exact absurd (hbalanced.matched _ hc rfl) (by decide)

end Hybm.Qp
