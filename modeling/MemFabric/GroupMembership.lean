/-
Dynamic groups: `GroupJoin`, `GroupLeave` and the event listener of n ranks.

A rank that joins or leaves announces it under the event key, which it acquires with a `Cas`
from absent, adds to the dynamic-size key and removes the event key again.  The listener of
every other member reads the dynamic-size key and sets its own version and size to what it will
be after the addition; nothing makes the initiator wait for this.  A step is one store operation
with the local work that follows it, a call, or a move of a listener.

* `Agreement` — what is to hold in a `Quiescent` state.
* `SafeStep` — the steps for which `GroupMembershipSafety.lean` proves it.
-/
import MemFabric.GroupLinkDown

namespace GroupEngine

open ConfigStore

variable {n : ℕ}

/-- `SMEM_GROUP_LISTEN_EVENT_KEY`. -/
def listenEventKey : Key := Bytes.ofString "EVENT"

/-! ### Events -/

/-- `JoinLeaveEventValue`. -/
structure JoinLeaveEvent where
  join : Bool
  rankId : ℕ
  deriving DecidableEq

/-- `ToString`. -/
def JoinLeaveEvent.toText (e : JoinLeaveEvent) : Bytes :=
  (if e.join then 74 else 76) :: Decimal.ofNat e.rankId

/-- `Parse`: what was read has to print as the text. -/
def JoinLeaveEvent.parse : Bytes → Option JoinLeaveEvent
  | [] => none
  | evt :: digits =>
    let e : JoinLeaveEvent := ⟨evt == 74, Decimal.digitsValue digits⟩
    if e.toText = evt :: digits ∧ e.rankId < 2 ^ 32 then some e else none

/-! ### Ranks -/

/-- Where a rank is in `GroupJoin` or `GroupLeave`.  A number counts the failed
attempts to acquire the event key, and a flag says whether all went well so far. -/
inductive MemberPc
  | idle
  | joinCas (retry : ℕ)
  | joinRead
  | joinAdd
  | joinRemove (ok : Bool)
  | leaveCas (retry : ℕ)
  | leaveAdd
  | leaveRemove (ok : Bool)
  deriving DecidableEq

/-- The listener of a rank and its watch on the event key: there is none, it waits in the store,
its reply is on the way, the event is in `listenCtx_.events`, the listener has taken it out, or is
past `groupEventHandleMutex_` and about to process it. -/
inductive Listener
  | unwatched
  | watching
  | sent (value : Bytes)
  | queued (value : Bytes)
  | taken (value : Bytes)
  | entered (value : Bytes)
  deriving DecidableEq

/-- A rank: `joined_`, `groupStoped_`, `groupVersion_`, `option_.rankSize`, and
`prevEvent` of its listener. -/
structure Member where
  joined : Bool
  groupStoped : Bool
  groupVersion : ℤ
  rankSize : ℕ
  pc : MemberPc
  listener : Listener
  prevEvent : Bytes
  deriving DecidableEq

abbrev MemberState (n : ℕ) := SharedState SeqMap Member n

inductive MemberStep (n : ℕ)
  | join (i : Fin n)
  | leave (i : Fin n)
  | cas (i : Fin n) (cbOk : Bool)
  | read (i : Fin n) (cbOk : Bool)
  | update (i : Fin n)
  | remove (i : Fin n)
  | watch (i : Fin n)
  | deliver (i : Fin n)
  | take (i : Fin n)
  | enter (i : Fin n)
  | process (i : Fin n)

/-! ### The calls -/

def maxRetry : ℕ := 100000

/-- Conversion to `uint32_t`. -/
def toUInt32 (z : ℤ) : ℕ := (z % 2 ^ 32).toNat

/-- The store wakes everybody who waits for the event key when it appears. -/
def wakeListeners (value : Bytes) (rank : Fin n → Member) : Fin n → Member := fun j =>
  if (rank j).listener = .watching then { rank j with listener := .sent value } else rank j

variable (s : MemberState n)

/-- The `Cas` of the event key, and the wakeups it causes. -/
def MemberState.casEvent (value : Bytes) : MemberState n :=
  ⟨(s.store.cas listenEventKey [] value).1,
    if s.store listenEventKey = none then wakeListeners value s.rank else s.rank⟩

/-- The loop is left when the key was free or had this value, and after the last attempt. -/
def casLoopEnds (old value : Bytes) (retry : ℕ) : Bool :=
  old == [] || old == value || retry + 1 == maxRetry

/-- One attempt of the `Cas` loop of `GroupJoin` or of `GroupLeave`; the latter goes on
with `leaveCb`. -/
def memberCas (i : Fin n) (cbOk : Bool) : Option (MemberState n) :=
  let old := (s.store listenEventKey).getD []
  match (s.rank i).pc with
  | .joinCas retry =>
    let value := JoinLeaveEvent.toText ⟨true, i⟩
    let t := s.casEvent value
    let pc := if casLoopEnds old value retry then .joinRead else .joinCas (retry + 1)
    some (t.move i { t.rank i with pc := pc } t.store)
  | .leaveCas retry =>
    let value := JoinLeaveEvent.toText ⟨false, i⟩
    let t := s.casEvent value
    let pc :=
      if casLoopEnds old value retry then
        if cbOk then .leaveAdd else .leaveRemove false
      else
        .leaveCas (retry + 1)
    some (t.move i { t.rank i with pc := pc } t.store)
  | _ => none

/-- `GroupJoin` reads the dynamic-size key, sets its own copy and calls `joinCb`. -/
def memberRead (i : Fin n) (cbOk : Bool) : Option (MemberState n) :=
  let r := s.rank i
  if r.pc = .joinRead then
    match s.store.add dynamicSizeKey 0 with
    | (store, .number tmp) =>
      some (s.move i
        { r with
          groupVersion := wrap32 ((splitSizeAndVersion tmp).1 + 1)
          rankSize := toUInt32 ((splitSizeAndVersion tmp).2 + 1)
          pc := if cbOk then .joinAdd else .joinRemove false } store)
    | (store, _) => some (s.move i { r with pc := .joinRemove false } store)
  else
    none

/-- The addition to the dynamic-size key: `1LL << 30 | 1` in `GroupJoin`, the mask of the
thirty low bits in `GroupLeave`. -/
def memberUpdate (i : Fin n) : Option (MemberState n) :=
  let r := s.rank i
  match r.pc with
  | .joinAdd =>
    match s.store.add dynamicSizeKey (2 ^ 30 + 1) with
    | (store, .number _) => some (s.move i { r with pc := .joinRemove true } store)
    | (store, _) => some (s.move i { r with pc := .joinRemove false } store)
  | .leaveAdd =>
    match s.store.add dynamicSizeKey (2 ^ 30 - 1) with
    | (store, .number tmpVal) =>
      some (s.move i
        { r with
          groupVersion := wrap32 ((splitSizeAndVersion tmpVal).1 + 1)
          pc := .leaveRemove true } store)
    -- `tmpVal` would be used without a value
    | _ => none
  | _ => none

def memberRemove (i : Fin n) : Option (MemberState n) :=
  let r := s.rank i
  let removed := s.store.remove listenEventKey
  match r.pc with
  | .joinRemove ok =>
    some (s.move i
            { r with pc := .idle, joined := ok && removed.2 == .done } removed.1)
  | .leaveRemove _ => some (s.move i { r with pc := .idle, joined := false } removed.1)
  | _ => none

/-- `GroupLeave` stops the listener and takes its watch back. -/
def Member.stop (r : Member) : Member :=
  { r with
    groupStoped := true
    listener := if r.listener = .watching then .unwatched else r.listener
    pc := .leaveCas 0 }

/-! ### The listener -/

/-- `JoinLeaveEventProcess`; the results of the callbacks are ignored here. -/
def memberProcess (i : Fin n) : Option (MemberState n) :=
  let r := s.rank i
  match r.listener with
  | .entered value =>
    let r := { r with listener := .unwatched }
    match JoinLeaveEvent.parse value with
    | none => some (s.move i r s.store)
    | some e =>
      if value = r.prevEvent then
        some (s.move i r s.store)
      else
        let r := { r with prevEvent := value }
        match s.store.add dynamicSizeKey 0 with
        | (store, .number tmpVal) =>
          let size := (splitSizeAndVersion tmpVal).2
          some (s.move i { r with
              groupVersion := wrap32 ((splitSizeAndVersion tmpVal).1 + 1)
              rankSize := toUInt32 (if e.join then size + 1 else size - 1) } store)
        | (store, _) => some (s.move i r store)
  | _ => none

def memberNext : MemberStep n → Option (MemberState n)
  | .join i =>
    let r := s.rank i
    if r.pc = .idle ∧ r.joined = false then
      some (s.move i { r with pc := .joinCas 0 } s.store)
    else
      none
  | .leave i =>
    let r := s.rank i
    if r.pc = .idle ∧ r.joined = true then some (s.move i r.stop s.store) else none
  | .cas i cbOk => memberCas s i cbOk
  | .read i cbOk => memberRead s i cbOk
  | .update i => memberUpdate s i
  | .remove i => memberRemove s i
  | .watch i =>
    let r := s.rank i
    if r.joined = true ∧ r.groupStoped = false ∧ r.listener = .unwatched then
      let listener :=
        match s.store listenEventKey with
        | some value => .sent value
        | none => .watching
      some (s.move i { r with listener := listener } s.store)
    else
      none
  | .deliver i =>
    let r := s.rank i
    match r.listener with
    | .sent value => some (s.move i { r with listener := .queued value } s.store)
    | _ => none
  | .take i =>
    let r := s.rank i
    match r.listener with
    | .queued value =>
      -- a listener that finds itself stopped ends, and its events are lost
      let listener :=
        if r.joined = true ∧ r.groupStoped = false then .taken value else .unwatched
      some (s.move i { r with listener := listener } s.store)
    | _ => none
  | .enter i =>
    let r := s.rank i
    match r.listener with
    | .taken value =>
      -- a call of this rank holds the lock; the listener gives it back before it goes on
      if r.pc = .idle then
        some (s.move i { r with listener := .entered value } s.store)
      else
        none
    | _ => none
  | .process i => memberProcess s i

def memberSystem (n : ℕ) : TransitionSystem (MemberState n) (MemberStep n) where
  start := ⟨fun _ => none, fun _ => ⟨false, false, 0, 1, .idle, .unwatched, []⟩⟩
  next := memberNext

/-! ### Agreement -/

/-- The number under the dynamic-size key; an absent key counts as zero. -/
def dynamicSize (store : SeqMap) : ℤ := ((store dynamicSizeKey).bind storedNumber).getD 0

/-- An event has been delivered that is not yet processed. -/
def Listener.delivered : Listener → Bool
  | .queued _ | .taken _ | .entered _ => true
  | _ => false

/-- No call is under way, and no member has an event that it has not processed. -/
def Quiescent : Prop :=
  ∀ i, (s.rank i).pc = .idle ∧ ((s.rank i).joined = true → (s.rank i).listener.delivered = false)
  deriving Decidable

/-- Every member has the version and the size of the dynamic-size key, and the size is the
number of members. -/
def Agreement : Prop :=
  (∀ i, (s.rank i).joined = true → ((s.rank i).groupVersion, ((s.rank i).rankSize : ℤ)) =
      splitSizeAndVersion (dynamicSize s.store)) ∧
    (splitSizeAndVersion (dynamicSize s.store)).2 =
      (Finset.univ.filter fun i => (s.rank i).joined = true).card
  deriving Decidable

/-! ### Safe steps -/

/-- The listener has an event that it will process even if it is stopped. -/
def Listener.isTaken : Listener → Bool
  | .taken _ | .entered _ => true
  | _ => false

/-- The next `Cas` is the last attempt. -/
def MemberPc.lastAttempt : MemberPc → Bool
  | .joinCas retry | .leaveCas retry => retry + 1 == maxRetry
  | _ => false

def MemberPc.eventText (i : Fin n) : MemberPc → Bytes
  | .leaveCas _ | .leaveAdd | .leaveRemove _ => JoinLeaveEvent.toText ⟨false, i⟩
  | _ => JoinLeaveEvent.toText ⟨true, i⟩

/-- Rank `j` has a listener that has processed this event. -/
def Member.HasProcessed (r : Member) (text : Bytes) : Prop :=
  r.groupStoped = false ∧ r.prevEvent = text
  deriving Decidable

/-- The steps after which agreement is kept: the callbacks of the initiator succeed (a `joinCb`
may fail while there is no member), the last attempt to acquire the event key is not lost, no
rank begins to join with an event taken before it left, and an addition is made when all other
members that stay have processed the event, before the version exceeds its type. -/
def SafeStep : MemberStep n → Prop
  | .join i => (s.rank i).listener.isTaken = false
  | .cas i cbOk =>
    cbOk = true ∧ ((s.rank i).pc.lastAttempt = true → s.store listenEventKey = none)
  | .read _ cbOk => cbOk = true ∨ ∀ j, (s.rank j).joined = false
  | .update i =>
    (∀ j, j ≠ i → (s.rank j).joined = true → (s.rank j).pc = .idle →
      (s.rank j).HasProcessed ((s.rank i).pc.eventText i)) ∧
      (splitSizeAndVersion (dynamicSize s.store)).1 + 1 < 2 ^ 31
  | _ => True

instance (s : MemberState n) : (a : MemberStep n) → Decidable (SafeStep s a)
  | .join _ => inferInstanceAs (Decidable (_ = false))
  | .cas _ _ => inferInstanceAs (Decidable (_ ∧ (_ → _)))
  | .read _ _ => inferInstanceAs (Decidable (_ ∨ ∀ _, _))
  | .update _ => inferInstanceAs (Decidable ((∀ _, _ → _ → _ → _) ∧ _))
  | .leave _ | .remove _ | .watch _ | .deliver _ | .take _ | .enter _ | .process _ =>
    inferInstanceAs (Decidable True)

/-- Rank 0 is a member and watches the event key; then rank 1 joins.  The listener of rank 0
comes to the event when rank 1 is done: it finds version 2 and size 2, and goes on to 3 and 3. -/
theorem late_listener_disagrees :
    ∃ s, (memberSystem 2).Reachable s ∧ Quiescent s ∧ ¬ Agreement s := by
  refine TransitionSystem.exists_reachable [.join 0, .cas 0 true, .read 0 true, .update 0, .remove
    0, .watch 0, .join 1, .cas 1 true, .read 1 true, .update 1, .remove 1, .deliver 0, .take 0,
    .enter 0, .process 0] (fun s => (decide (Quiescent s), decide (Agreement s))) (true, false) ?_
    fun s _ hval => ?_
  · decide +kernel
  rw [Prod.mk.injEq, decide_eq_true_iff, decide_eq_false_iff_not] at hval
  exact hval

end GroupEngine
