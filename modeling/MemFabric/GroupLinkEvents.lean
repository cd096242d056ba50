/-
Link-down events of a dynamic group, beside the calls of its ranks.

`RemoteRankLinkDownCb` puts a rank whose link is down into the events of the listener, and the
listener handles it with `RankLinkDownEventProcess`: if the event key has a join or a leave of that
rank, it takes the key over (`unlinked`), takes the rank out of the size and removes the key.
`EventState` is a state of the ranks (`MemberState`) with what their listeners need for this, and a
step of `eventSystem` is one of `memberSystem`, one store operation of
`RankLinkDownEventProcess`, or the end of the process of a rank.
-/
import MemFabric.GroupMembershipInv

namespace GroupEngine

open ConfigStore

variable {n : ℕ}

/-- `GroupEvent`, without the replies to the watch of the event key. -/
inductive GroupEvent (n : ℕ)
  | joinLeave (value : Bytes)
  | remoteDown (rankId : Fin n)
  deriving DecidableEq

/-- The next store operation of `RankLinkDownEventProcess`; `swapped` says that this rank has
taken over the event key. -/
inductive DownPc (n : ℕ)
  | idle
  | get (rankId : Fin n)
  | casEvent (rankId : Fin n) (currentEventValue : Bytes)
  | add (rankId : Fin n) (swapped : Bool)
  | casSize (rankId : Fin n) (oldVal newVal : ℤ) (swapped : Bool)
  | remove (rankId : Fin n)
  deriving DecidableEq

def DownPc.swapped : DownPc n → Bool
  | .add _ swapped | .casSize _ _ _ swapped => swapped
  | .remove _ => true
  | .idle | .get _ | .casEvent _ _ => false

def DownPc.rankId : DownPc n → Option (Fin n)
  | .idle => none
  | .get rankId | .casEvent rankId _ | .add rankId _ | .casSize rankId _ _ _ | .remove rankId =>
    some rankId

/-- The listener is processing the reply to its watch. -/
def Listener.isEntered : Listener → Bool
  | .entered _ => true
  | _ => false

/-- A listener: `joinedRanksBitmap_`, `listenCtx_.events`, the `currentEvents` it has taken
out, and where it is. -/
structure DownListener (n : ℕ) where
  bitmap : Finset (Fin n)
  events : List (GroupEvent n)
  currentEvents : List (GroupEvent n)
  pc : DownPc n

namespace DownListener

def start : DownListener n := ⟨∅, [], [], .idle⟩

/-- `ClearBitmapForRank`, and the function returns. -/
def finish (l : DownListener n) (rankId : Fin n) : DownListener n :=
  { l with bitmap := l.bitmap.erase rankId, pc := .idle }

/-- `LinkDownUpdateMeta` has returned. -/
def afterMeta (l : DownListener n) (rankId : Fin n) (swapped : Bool) : DownListener n :=
  if swapped then { l with pc := .remove rankId } else l.finish rankId

end DownListener

structure EventState (n : ℕ) where
  group : MemberState n
  listener : Fin n → DownListener n

inductive EventStep (n : ℕ)
  | member (a : MemberStep n)
  | setBitmapFromRanks (i : Fin n) (ranks : Finset (Fin n))
  | remoteRankLinkDownCb (i : Fin n) (rankId : Fin n)
  | takeEvents (i : Fin n)
  | beginEvent (i : Fin n)
  | linkDown (i : Fin n)
  | die (i : Fin n)

/-- What takes the place of the event of a rank that is down. -/
def unlinkedText : Bytes := Bytes.ofString "unlinked"

namespace EventState

variable (s : EventState n)

/-- Rank `i` and its listener have moved on. -/
def moveOn (i : Fin n) (r : Member) (store : SeqMap) (l : DownListener n) : EventState n :=
  ⟨s.group.move i r store, Function.update s.listener i l⟩

/-- Only the listener of rank `i` has moved on. -/
def withListener (i : Fin n) (l : DownListener n) : EventState n :=
  { s with listener := Function.update s.listener i l }

/-- The listener is one thread, and while it handles an event about its own rank it keeps
`groupEventHandleMutex_`. -/
def Allows : MemberStep n → Prop
  | .take i | .enter i | .process i => (s.listener i).pc = .idle
  | .join i | .leave i => (s.listener i).pc.rankId ≠ some i
  | _ => True

instance : (a : MemberStep n) → Decidable (s.Allows a)
  | .take _ | .enter _ | .process _ => inferInstanceAs (Decidable (_ = _))
  | .join _ | .leave _ => inferInstanceAs (Decidable (_ ≠ _))
  | .cas _ _ | .read _ _ | .update _ | .remove _ | .watch _ | .deliver _ =>
    inferInstanceAs (Decidable True)

def takeEvents (i : Fin n) : Option (EventState n) :=
  let r := s.group.rank i
  let l := s.listener i
  if l.pc = .idle ∧ l.currentEvents = [] ∧ r.joined = true ∧ r.groupStoped = false then
    some (s.withListener i { l with events := [], currentEvents := l.events })
  else
    none

/-- The listener comes to the next event.  A link-down event starts with a new `prevEventValue`,
and an event that was put off is processed as one that was just received. -/
def beginEvent (i : Fin n) : Option (EventState n) :=
  let r := s.group.rank i
  let l := s.listener i
  if l.pc = .idle ∧ r.pc = .idle ∧ r.listener.isEntered = false then
    match l.currentEvents with
    | [] => none
    | .joinLeave value :: rest =>
      let entered := s.group.move i { r with listener := .entered value } s.group.store
      (memberProcess entered i).map fun group =>
        { s.withListener i { l with currentEvents := rest } with group := group }
    | .remoteDown rankId :: rest =>
      let prevEvent := Decimal.ofNat i ++ 76 :: Decimal.ofNat rankId
      some (s.moveOn i { r with prevEvent := prevEvent } s.group.store
        { l with currentEvents := rest, pc := .get rankId })
  else
    none

/-- The event key has been read. -/
def afterGet (i rankId : Fin n) (currentEventValue : Bytes) : DownListener n :=
  let l := s.listener i
  if rankId ∉ l.bitmap then { l with pc := .idle }
  else if currentEventValue = [] then { l with pc := .add rankId false }
  else
    match JoinLeaveEvent.parse currentEventValue with
    | none => { l with pc := .idle }
    | some eventValue =>
      -- another rank is joining or leaving: the event is put off, and the link-down is dropped
      if (rankId : ℕ) ≠ eventValue.rankId then
        { l with events := l.events ++ [.joinLeave currentEventValue], pc := .idle }
      else { l with pc := .casEvent rankId currentEventValue }

/-- The `Add` of `LinkDownUpdateMeta` and what follows it. -/
def linkDownAdd (i rankId : Fin n) (swapped : Bool) : Option (EventState n) :=
  let r := s.group.rank i
  let l := s.listener i
  match s.group.store.add dynamicSizeKey 0 with
  | (store, .number tmpVal) =>
    let survivor : Survivor n := ⟨r.groupVersion, r.rankSize, .add, {rankId}⟩
    (survivor.afterAdd rankId tmpVal).map fun survivor =>
      s.moveOn i { r with groupVersion := survivor.groupVersion, rankSize := survivor.rankSize }
        store (match survivor.pc with
          | .add => l.afterMeta rankId swapped
          | .cas oldVal newVal => { l with pc := .casSize rankId oldVal newVal swapped })
  | (store, _) => some (s.moveOn i r store (l.afterMeta rankId swapped))

/-- The next store operation of `RankLinkDownEventProcess`. -/
def linkDown (i : Fin n) : Option (EventState n) :=
  let r := s.group.rank i
  let l := s.listener i
  let store := s.group.store
  match l.pc with
  | .idle => none
  | .get rankId =>
    some (s.withListener i (s.afterGet i rankId ((store listenEventKey).getD [])))
  | .casEvent rankId currentEventValue =>
    let swapped := (store listenEventKey).getD [] == currentEventValue
    some (s.moveOn i r (store.cas listenEventKey currentEventValue unlinkedText).1
      { l with pc := .add rankId swapped })
  | .add rankId swapped => s.linkDownAdd i rankId swapped
  | .casSize rankId oldVal newVal swapped =>
    some (s.moveOn i r
      (store.cas dynamicSizeKey (Decimal.ofInt oldVal) (Decimal.ofInt newVal)).1
      (l.afterMeta rankId swapped))
  | .remove rankId => some (s.moveOn i r (store.remove listenEventKey).1 (l.finish rankId))

end EventState

/-- A rank whose process ends may be started again, and begins anew. -/
def eventSystem (n : ℕ) : TransitionSystem (EventState n) (EventStep n) where
  start := ⟨(memberSystem n).start, fun _ => .start⟩
  next s
    | .member a =>
      if s.Allows a then (memberNext s.group a).map fun group => { s with group := group } else none
    | .setBitmapFromRanks i ranks => some (s.withListener i { s.listener i with bitmap := ranks })
    | .remoteRankLinkDownCb i rankId =>
      let l := s.listener i
      some (s.withListener i { l with events := l.events ++ [.remoteDown rankId] })
    | .takeEvents i => s.takeEvents i
    | .beginEvent i => s.beginEvent i
    | .linkDown i => s.linkDown i
    | .die i => some (s.moveOn i ((memberSystem n).start.rank i) s.group.store .start)

theorem reachable_of_memberSystem {s : MemberState n} (h : (memberSystem n).Reachable s) :
    (eventSystem n).Reachable ⟨s, fun _ => .start⟩ := by
  refine h.invariant (I := fun s => (eventSystem n).Reachable ⟨s, fun _ => .start⟩) .start ?_
  intro s s' a hs _ hnext
  have hallows : EventState.Allows ⟨s, fun _ => .start⟩ a := by
    cases a <;> simp [EventState.Allows, DownListener.start, DownPc.rankId]
  refine hs.next (a := .member a) trivial ?_
  show (if _ then _ else none) = _
  rw [if_pos hallows, show memberNext s a = some s' from hnext]
  rfl

end GroupEngine
