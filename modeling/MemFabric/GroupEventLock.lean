/-
The event key as a lock: `GroupJoin` and `GroupLeave` exclude each other.

A rank that joins or leaves takes the event key with a `Cas` from absent and removes it at the
end, so that only its owner should touch the dynamic-size key and the event key.  The loop around
the `Cas` is left after `MAX_RETRY` failed attempts too, and then the rank goes on without it.
A listener that handles the link-down of a rank takes the key from it, whether its call has
ended or not.
-/
import MemFabric.GroupLinkEvents
import MemFabric.StoreRefinement

namespace GroupEngine

open Option

open ConfigStore SharedState

variable {n : ℕ}

/-! ### What the lock is for -/

/-- The rank is past the loop that acquires the event key, and has not removed it. -/
def MemberPc.inSection : MemberPc → Bool
  | .joinRead | .joinAdd | .joinRemove _ | .leaveAdd | .leaveRemove _ => true
  | .idle | .joinCas _ | .leaveCas _ => false

/-- A rank that updates the dynamic-size key or removes the event key finds its own value
in the event key. -/
def EventOwned (s : MemberState n) : Prop :=
  ∀ i, (s.rank i).pc.inSection = true → s.store listenEventKey = some ((s.rank i).pc.eventText i)

/-- At most one rank is past its `Cas`, and it is the owner of the event key. -/
structure EventExclusive (s : MemberState n) : Prop where
  one : ∀ i j, (s.rank i).pc.inSection = true → (s.rank j).pc.inSection = true → i = j
  owner : EventOwned s

def NoLostAttempt (s : MemberState n) : MemberStep n → Prop
  | .cas i _ => (s.rank i).pc.lastAttempt = true → s.store listenEventKey = none
  | _ => True

instance (s : MemberState n) : (a : MemberStep n) → Decidable (NoLostAttempt s a)
  | .cas _ _ => inferInstanceAs (Decidable (_ → _))
  | .join _ | .leave _ | .read _ _ | .update _ | .remove _ | .watch _ | .deliver _ | .take _
  | .enter _ | .process _ => inferInstanceAs (Decidable True)

/-- No listener takes the event key over from a rank that is past its `Cas`. -/
def NoTakeover (s : EventState n) (i : Fin n) : Prop :=
  match (s.listener i).pc with
  | .casEvent rankId value => s.group.store listenEventKey = some value →
      (s.group.rank rankId).pc.inSection = false
  | _ => True

instance (s : EventState n) (i : Fin n) : Decidable (NoTakeover s i) := by
  unfold NoTakeover
  split <;> infer_instance

def NoBreakIn (s : EventState n) : EventStep n → Prop
  | .member a => NoLostAttempt s.group a
  | .linkDown i => NoTakeover s i
  | _ => True

instance (s : EventState n) : (a : EventStep n) → Decidable (NoBreakIn s a)
  | .member a => inferInstanceAs (Decidable (NoLostAttempt s.group a))
  | .linkDown i => inferInstanceAs (Decidable (NoTakeover s i))
  | .setBitmapFromRanks _ _ | .remoteRankLinkDownCb _ _ | .takeEvents _ | .beginEvent _ | .die _ =>
    inferInstanceAs (Decidable True)

/-! ### The owner -/

theorem MemberPc.exists_eventText (i : Fin n) (pc : MemberPc) :
    ∃ join, pc.eventText i = rankText join i := by
  cases pc with
  | leaveCas retry | leaveAdd | leaveRemove ok => exact ⟨false, rfl⟩
  | _ => exact ⟨true, rfl⟩

section Owner

variable {s : MemberState n} {i : Fin n} {r : Member} {store : SeqMap}

variable {s' : MemberState n}

section

variable (h : EventOwned s)
include h

theorem EventOwned.exists_rankText {j : Fin n} (hin : (s.rank j).pc.inSection = true) :
    ∃ join, s.store listenEventKey = some (rankText join j) := by
  obtain ⟨join, htext⟩ := MemberPc.exists_eventText j (s.rank j).pc
  exact ⟨join, htext ▸ h j hin⟩

theorem EventOwned.eq_of_inSection {join : Bool} {j : Fin n}
    (hevent : s.store listenEventKey = some (rankText join i))
    (hin : (s.rank j).pc.inSection = true) : i = j := by
  obtain ⟨join', htext⟩ := h.exists_rankText hin
  exact (rankText_injective (some.inj (hevent.symm.trans htext))).2

theorem EventOwned.exclusive : EventExclusive s := by
  refine ⟨fun i j hi hj => ?_, h⟩
  obtain ⟨join, htext⟩ := h.exists_rankText hi
  exact h.eq_of_inSection htext hj

theorem EventOwned.notInSection (hempty : (s.store listenEventKey).getD [] = []) (j : Fin n) :
    (s.rank j).pc.inSection = false := by
  refine eq_false_of_ne_true fun hin => ?_
  obtain ⟨join, htext⟩ := h.exists_rankText hin
  rw [htext, getD_some] at hempty
  exact rankText_ne_nil join j hempty

section

variable (hstore : store listenEventKey = s.store listenEventKey)
include hstore

theorem EventOwned.move
    (hr : r.pc.inSection = true → s.store listenEventKey = some (r.pc.eventText i)) :
    EventOwned (s.move i r store) := by
  refine forall_move (p := fun j (q : Member) => q.pc.inSection = true →
      store listenEventKey = some (q.pc.eventText j)) ?_ fun j _ => ?_
  · rw [hstore]
    exact hr
  · rw [hstore]
    exact h j

theorem EventOwned.stay (hpc : r.pc = (s.rank i).pc) : EventOwned (s.move i r store) :=
  h.move hstore fun hin => by rw [hpc] at hin ⊢; exact h i hin

theorem EventOwned.goOn (hold : (s.rank i).pc.inSection = true)
    (htext : r.pc.eventText i = (s.rank i).pc.eventText i) : EventOwned (s.move i r store) :=
  h.move hstore fun _ => by rw [htext]; exact h i hold

end

/-! ### The steps -/

theorem EventOwned.attempt (join : Bool) (retry : ℕ) {pc : MemberPc}
    (htext : pc.inSection = true → pc.eventText i = rankText join i)
    (hends : pc.inSection = true →
      casLoopEnds ((s.store listenEventKey).getD []) (rankText join i) retry = true)
    (hlast : retry + 1 = maxRetry → s.store listenEventKey = none) :
    EventOwned ((s.casEvent (rankText join i)).move i
      { (s.casEvent (rankText join i)).rank i with pc := pc }
      (s.casEvent (rankText join i)).store) := by
  have hpcs : ∀ j, ((s.casEvent (rankText join i)).rank j).pc = (s.rank j).pc := by
    intro j
    rw [MemberState.casEvent]
    split
    · simp only [wakeListeners]
      split <;> rfl
    · rfl
  by_cases hempty : (s.store listenEventKey).getD [] = []
  · -- The key is free, so nobody else is in the section, and the rank gets it.
    have hstore : (s.casEvent (rankText join i)).store listenEventKey = some (rankText join i) := by
      simp only [MemberState.casEvent, SeqMap.cas, if_pos hempty, Function.update_self]
    refine forall_move (p := fun j (q : Member) => q.pc.inSection = true →
        (s.casEvent (rankText join i)).store listenEventKey = some (q.pc.eventText j))
      (fun hin => ?_) fun j _ hin => ?_
    · rw [hstore, htext hin]
    · rw [hpcs j, h.notInSection hempty j] at hin
      cases hin
  -- The key is taken and stays so; the loop ends only for the owner.
  have hstore : (s.casEvent (rankText join i)).store = s.store := by
    simp only [MemberState.casEvent, SeqMap.cas, if_neg hempty]
  refine forall_move (p := fun j (q : Member) => q.pc.inSection = true →
      (s.casEvent (rankText join i)).store listenEventKey = some (q.pc.eventText j))
    (fun hin => ?_) fun j _ hin => ?_
  · have hloop := hends hin
    rw [casLoopEnds, Bool.or_eq_true, Bool.or_eq_true, beq_iff_eq, beq_iff_eq, beq_iff_eq] at hloop
    rw [hstore, htext hin]
    rcases hloop with (hnil | hown) | hretry
    · exact absurd hnil hempty
    · rcases hevent : s.store listenEventKey with _ | value
      · exact absurd (by rw [hevent]; rfl) hempty
      · rw [hevent, getD_some] at hown
        rw [hown]
    · exact absurd (by rw [hlast hretry]; rfl) hempty
  · rw [hstore]
    rw [hpcs j] at hin ⊢
    exact h j hin

theorem EventOwned.cas {cbOk : Bool}
    (hlast : (s.rank i).pc.lastAttempt = true → s.store listenEventKey = none)
    (hnext : memberCas s i cbOk = some s') : EventOwned s' := by
  rw [memberCas] at hnext
  split at hnext
  case h_1 retry hpc =>
    rw [hpc, MemberPc.lastAttempt, beq_iff_eq] at hlast
    rw [← some.inj hnext]
    refine h.attempt true retry ?_ ?_ hlast
    · split
      · exact fun _ => rfl
      · nofun
    · split
      case isTrue hends => exact fun _ => hends
      case isFalse => nofun
  case h_2 retry hpc =>
    rw [hpc, MemberPc.lastAttempt, beq_iff_eq] at hlast
    rw [← some.inj hnext]
    refine h.attempt false retry ?_ ?_ hlast
    · split
      · split <;> exact fun _ => rfl
      · nofun
    · split
      case isTrue hends => exact fun _ => hends
      case isFalse => nofun
  case h_3 => cases hnext

theorem EventOwned.giveBack (hold : (s.rank i).pc.inSection = true)
    (hr : r.pc.inSection = false) : EventOwned (s.move i r store) := by
  refine forall_move (p := fun j (q : Member) => q.pc.inSection = true →
      store listenEventKey = some (q.pc.eventText j)) (fun hin => ?_) fun j hj hin => ?_
  · rw [hr] at hin
    cases hin
  · exact absurd (h.exclusive.one j i hin hold) hj

theorem EventOwned.remove (hnext : memberRemove s i = some s') : EventOwned s' := by
  rw [memberRemove] at hnext
  split at hnext
  case h_1 ok hpc =>
    rw [← some.inj hnext]
    exact h.giveBack (by rw [hpc]; rfl) rfl
  case h_2 ok hpc =>
    rw [← some.inj hnext]
    exact h.giveBack (by rw [hpc]; rfl) rfl
  case h_3 => cases hnext

end

theorem add_dynamicSizeKey_event {outcome : Outcome} {z : ℤ}
    (h : s.store.add dynamicSizeKey z = (store, outcome)) :
    store listenEventKey = s.store listenEventKey := by
  have hkey : (s.store.add dynamicSizeKey z).1 listenEventKey = s.store listenEventKey :=
    SeqMap.apply_of_ne s.store (.add dynamicSizeKey z) listenEventKey_ne
  rw [h] at hkey
  exact hkey

theorem EventOwned.read (h : EventOwned s) {cbOk : Bool} (hnext : memberRead s i cbOk = some s') :
    EventOwned s' := by
  simp only [memberRead] at hnext
  split at hnext
  case isTrue hpc =>
    have hold : (s.rank i).pc.inSection = true := by rw [hpc]; rfl
    split at hnext
    case h_1 store tmp hadd =>
      rw [← some.inj hnext]
      refine h.goOn (add_dynamicSizeKey_event hadd) hold ?_
      rw [hpc]
      split <;> rfl
    case h_2 store outcome _ hadd =>
      rw [← some.inj hnext]
      exact h.goOn (add_dynamicSizeKey_event hadd) hold (by rw [hpc]; rfl)
  case isFalse => cases hnext

theorem EventOwned.update (h : EventOwned s) (hnext : memberUpdate s i = some s') :
    EventOwned s' := by
  simp only [memberUpdate] at hnext
  split at hnext
  case h_1 hpc =>
    have hold : (s.rank i).pc.inSection = true := by rw [hpc]; rfl
    split at hnext
    case h_1 store z hadd =>
      rw [← some.inj hnext]
      exact h.goOn (add_dynamicSizeKey_event hadd) hold (by rw [hpc]; rfl)
    case h_2 store outcome _ hadd =>
      rw [← some.inj hnext]
      exact h.goOn (add_dynamicSizeKey_event hadd) hold (by rw [hpc]; rfl)
  case h_2 hpc =>
    have hold : (s.rank i).pc.inSection = true := by rw [hpc]; rfl
    split at hnext
    case h_1 store tmpVal hadd =>
      rw [← some.inj hnext]
      exact h.goOn (add_dynamicSizeKey_event hadd) hold (by rw [hpc]; rfl)
    case h_2 => cases hnext
  case h_3 => cases hnext

/-- `JoinLeaveEventProcess` leaves the event key and the calls of the rank alone. -/
theorem exists_move_of_memberProcess (hnext : memberProcess s i = some s') :
    ∃ r store, s' = s.move i r store ∧ r.pc = (s.rank i).pc ∧
      store listenEventKey = s.store listenEventKey := by
  simp only [memberProcess] at hnext
  split at hnext
  case h_1 value hlis =>
    split at hnext
    case h_1 => exact ⟨_, _, (some.inj hnext).symm, rfl, rfl⟩
    case h_2 e hparse =>
      split at hnext
      case isTrue => exact ⟨_, _, (some.inj hnext).symm, rfl, rfl⟩
      case isFalse =>
        split at hnext
        case h_1 store tmpVal hadd =>
          exact ⟨_, _, (some.inj hnext).symm, rfl, add_dynamicSizeKey_event hadd⟩
        case h_2 store outcome _ hadd =>
          exact ⟨_, _, (some.inj hnext).symm, rfl, add_dynamicSizeKey_event hadd⟩
  case h_2 => cases hnext

theorem eventOwned_next {a : MemberStep n} (h : EventOwned s) (hok : NoLostAttempt s a)
    (hnext : (memberSystem n).next s a = some s') : EventOwned s' := by
  cases a with
  | join i | leave i =>
    obtain ⟨-, rfl⟩ := of_guard hnext
    exact h.move rfl nofun
  | cas i cbOk => exact h.cas hok hnext
  | read i cbOk => exact h.read hnext
  | update i => exact h.update hnext
  | remove i => exact h.remove hnext
  | watch i =>
    obtain ⟨-, rfl⟩ := of_guard hnext
    exact h.stay rfl rfl
  | deliver i | take i =>
    simp only [memberSystem, memberNext] at hnext
    split at hnext
    · rw [← some.inj hnext]
      exact h.stay rfl rfl
    · cases hnext
  | enter i =>
    simp only [memberSystem, memberNext] at hnext
    split at hnext
    · obtain ⟨-, rfl⟩ := of_guard hnext
      exact h.stay rfl rfl
    · cases hnext
  | process i =>
    obtain ⟨r, store, rfl, hpc, hstore⟩ := exists_move_of_memberProcess hnext
    exact h.stay hstore hpc

end Owner

/-! ### Link-down events -/

/-- The value that a listener is about to replace is one of the rank that is down. -/
def DownListener.Asked (l : DownListener n) : Prop :=
  ∀ rankId value, l.pc = .casEvent rankId value → ∃ join, value = rankText join rankId

/-- The ranks own the event key as they should, and a listener that has taken it over is the
only one and finds `unlinkedText` in it. -/
structure EventLocked (s : EventState n) : Prop where
  owned : EventOwned s.group
  asked : ∀ i, (s.listener i).Asked
  taken : ∀ i, (s.listener i).pc.swapped = true →
    s.group.store listenEventKey = some unlinkedText
  one : ∀ i j, (s.listener i).pc.swapped = true → (s.listener j).pc.swapped = true → i = j

theorem unlinkedText_ne_rankText (join : Bool) (i : Fin n) : unlinkedText ≠ rankText join i := by
  have hhead : unlinkedText.head? = some 117 := by decide
  intro h
  rw [h] at hhead
  cases join <;> exact absurd hhead (by simp [rankText, JoinLeaveEvent.toText])

theorem EventOwned.notInSection_of_unlinked {s : MemberState n} (h : EventOwned s)
    (hevent : s.store listenEventKey = some unlinkedText) (i : Fin n) :
    (s.rank i).pc.inSection = false := by
  refine eq_false_of_ne_true fun hin => ?_
  obtain ⟨join, htext⟩ := h.exists_rankText hin
  exact unlinkedText_ne_rankText join i (some.inj (hevent.symm.trans htext))

/-- The calls leave a key alone that a listener has taken over. -/
theorem EventOwned.unlinked_next {s s' : MemberState n} {a : MemberStep n} (h : EventOwned s)
    (hevent : s.store listenEventKey = some unlinkedText) (hnext : memberNext s a = some s') :
    s'.store listenEventKey = some unlinkedText := by
  have hout := h.notInSection_of_unlinked hevent
  have hcas : ∀ value, (s.casEvent value).store listenEventKey = some unlinkedText := by
    intro value
    rw [MemberState.casEvent, SeqMap.cas, hevent, getD_some, if_neg (by decide)]
    exact hevent
  cases a with
  | join i | leave i | watch i =>
    obtain ⟨-, rfl⟩ := of_guard hnext
    exact hevent
  | cas i cbOk =>
    rw [memberNext, memberCas] at hnext
    split at hnext
    case h_1 | h_2 =>
      rw [← some.inj hnext]
      exact hcas _
    case h_3 => cases hnext
  | read i cbOk =>
    simp only [memberNext, memberRead] at hnext
    split at hnext
    case isTrue hpc =>
      have := hout i
      rw [hpc] at this
      cases this
    case isFalse => cases hnext
  | update i | remove i =>
    simp only [memberNext, memberUpdate, memberRemove] at hnext
    split at hnext
    case h_1 hpc | h_2 hpc =>
      have := hout i
      rw [hpc] at this
      cases this
    case h_3 => cases hnext
  | deliver i | take i =>
    simp only [memberNext] at hnext
    split at hnext
    · rw [← some.inj hnext]
      exact hevent
    · cases hnext
  | enter i =>
    simp only [memberNext] at hnext
    split at hnext
    · obtain ⟨-, rfl⟩ := of_guard hnext
      exact hevent
    · cases hnext
  | process i =>
    obtain ⟨r, store, rfl, -, hstore⟩ := exists_move_of_memberProcess hnext
    exact hstore.trans hevent

section Listener

variable {s s' : EventState n} {i rankId : Fin n} {r : Member} {store : SeqMap}
  {l : DownListener n} {swapped : Bool}

theorem EventState.moveOn_listener_self : (s.moveOn i r store l).listener i = l :=
  Function.update_self ..

theorem EventState.moveOn_listener_of_ne {j : Fin n} (h : j ≠ i) :
    (s.moveOn i r store l).listener j = s.listener j :=
  Function.update_of_ne h ..

theorem EventState.withListener_eq :
    s.withListener i l = s.moveOn i (s.group.rank i) s.group.store l := by
  rw [withListener, moveOn, move_self]

section

variable (h : EventLocked s)
include h

theorem EventLocked.moveOn (howned : EventOwned (s.group.move i r store))
    (hstore : store listenEventKey = s.group.store listenEventKey) (hasked : l.Asked)
    (hl : l.pc.swapped = true → (s.listener i).pc.swapped = true) :
    EventLocked (s.moveOn i r store l) := by
  have hswapped : ∀ j, ((s.moveOn i r store l).listener j).pc.swapped = true →
      (s.listener j).pc.swapped = true :=
    (Function.forall_update_iff s.listener fun j l => l.pc.swapped = true →
      (s.listener j).pc.swapped = true).mpr ⟨hl, fun _ _ h => h⟩
  refine ⟨howned, ?_, fun j hj => ?_, fun j k hj hk => ?_⟩
  · exact (Function.forall_update_iff s.listener fun _ l => l.Asked).mpr
      ⟨hasked, fun j _ => h.asked j⟩
  · exact hstore.trans (h.taken j (hswapped j hj))
  · exact h.one j k (hswapped j hj) (hswapped k hk)

theorem EventLocked.withListener (hasked : l.Asked)
    (hl : l.pc.swapped = true → (s.listener i).pc.swapped = true) :
    EventLocked (s.withListener i l) := by
  rw [EventState.withListener_eq]
  exact h.moveOn (h.owned.stay rfl rfl) rfl hasked hl

theorem EventLocked.member {a : MemberStep n} {group : MemberState n}
    (hok : NoLostAttempt s.group a) (hnext : memberNext s.group a = some group) :
    EventLocked { s with group := group } :=
  ⟨eventOwned_next h.owned hok hnext, h.asked,
    fun i hi => h.owned.unlinked_next (h.taken i hi) hnext, h.one⟩

theorem EventLocked.takeEvents (hnext : s.takeEvents i = some s') : EventLocked s' := by
  obtain ⟨-, rfl⟩ := of_guard hnext
  exact h.withListener (h.asked i) id

theorem EventLocked.beginEvent (hnext : s.beginEvent i = some s') : EventLocked s' := by
  obtain ⟨-, hnext⟩ := ite_none_right_eq_some.mp hnext
  split at hnext
  · cases hnext
  · -- an event that was put off
    obtain ⟨group, hprocess, rfl⟩ := map_eq_some_iff.mp hnext
    obtain ⟨r, store, rfl, hpc, hstore⟩ := exists_move_of_memberProcess hprocess
    rw [move_move]
    rw [move_rank_self] at hpc
    exact h.moveOn (h.owned.stay hstore hpc) hstore (h.asked i) id
  · obtain rfl := some.inj hnext
    exact h.moveOn (h.owned.stay rfl rfl) rfl (fun _ _ hpc => by cases hpc)
      fun hpc => by cases hpc

theorem EventLocked.die :
    EventLocked (s.moveOn i ((memberSystem n).start.rank i) s.group.store .start) :=
  h.moveOn (h.owned.move rfl nofun) rfl (fun _ _ hpc => by cases hpc) fun hpc => by cases hpc

end

theorem toText_of_parse {value : Bytes} {e : JoinLeaveEvent}
    (h : JoinLeaveEvent.parse value = some e) : e.toText = value := by
  cases value with
  | nil => cases h
  | cons evt digits =>
    obtain ⟨⟨htext, -⟩, rfl⟩ := of_guard h
    exact htext

theorem swapped_afterGet {value : Bytes} : (s.afterGet i rankId value).pc.swapped = false := by
  simp only [EventState.afterGet]
  split
  · rfl
  split
  · rfl
  split
  · rfl
  · split <;> rfl

theorem asked_afterGet {value : Bytes} : (s.afterGet i rankId value).Asked := by
  intro rankId' value' h
  simp only [EventState.afterGet] at h
  split at h
  · cases h
  split at h
  · cases h
  split at h
  · cases h
  next e hparse =>
  split at h
  · cases h
  next hrank =>
  rw [not_not] at hrank
  obtain ⟨rfl, rfl⟩ := DownPc.casEvent.inj h
  refine ⟨e.join, ?_⟩
  rw [rankText, hrank]
  exact (toText_of_parse hparse).symm

section

variable (h : EventLocked s)
include h

/-- Nobody has the key, and the listener of rank `i` leaves it with this store. -/
theorem EventLocked.seize (hout : ∀ j, (s.group.rank j).pc.inSection = false)
    (hnone : ∀ j ≠ i, (s.listener j).pc.swapped ≠ true)
    (hstore : l.pc.swapped = true → store listenEventKey = some unlinkedText)
    (hasked : l.Asked) :
    EventLocked (s.moveOn i (s.group.rank i) store l) := by
  have hswapped : ∀ j, ((s.moveOn i (s.group.rank i) store l).listener j).pc.swapped = true →
      j = i ∧ l.pc.swapped = true := by
    intro j hj
    by_cases hji : j = i
    · subst hji
      rw [EventState.moveOn_listener_self] at hj
      exact ⟨rfl, hj⟩
    · rw [EventState.moveOn_listener_of_ne hji] at hj
      exact absurd hj (hnone j hji)
  refine ⟨fun j hj => ?_, ?_, fun j hj => hstore (hswapped j hj).2, fun j k hj hk => ?_⟩
  · have hpc : ((s.group.move i (s.group.rank i) store).rank j).pc = (s.group.rank j).pc :=
      map_move Member.pc rfl j
    exact absurd ((congrArg MemberPc.inSection hpc).symm.trans hj) (by simp [hout j])
  · exact (Function.forall_update_iff s.listener fun _ l => l.Asked).mpr
      ⟨hasked, fun j _ => h.asked j⟩
  · exact (hswapped j hj).1.trans (hswapped k hk).1.symm

/-- The listener takes the key over from a rank that is not past its `Cas`. -/
theorem EventLocked.casEvent {value : Bytes} (hpc : (s.listener i).pc = .casEvent rankId value)
    (hok : NoTakeover s i) :
    EventLocked (s.moveOn i (s.group.rank i)
      (s.group.store.cas listenEventKey value unlinkedText).1
      { s.listener i with
        pc := .add rankId ((s.group.store listenEventKey).getD [] == value) }) := by
  obtain ⟨join, rfl⟩ := h.asked i rankId value hpc
  by_cases hvalue : (s.group.store listenEventKey).getD [] = rankText join rankId
  · have hevent : s.group.store listenEventKey = some (rankText join rankId) := by
      cases hkey : s.group.store listenEventKey with
      | none => exact absurd (by rw [← hvalue, hkey]; rfl) (rankText_ne_nil join rankId)
      | some value => rw [← hvalue, hkey]; rfl
    have hfree : (s.group.rank rankId).pc.inSection = false := by
      rw [NoTakeover, hpc] at hok
      exact hok hevent
    have hnone : ∀ j, (s.listener j).pc.swapped ≠ true := by
      intro j hj
      exact unlinkedText_ne_rankText join rankId (some.inj ((h.taken j hj).symm.trans hevent))
    have hout : ∀ j, (s.group.rank j).pc.inSection = false := by
      refine fun j => eq_false_of_ne_true fun hin => ?_
      obtain rfl := h.owned.eq_of_inSection hevent hin
      exact Bool.false_ne_true (hfree.symm.trans hin)
    refine h.seize hout (fun j _ => hnone j) (fun _ => ?_) fun _ _ hcas => by cases hcas
    rw [SeqMap.cas, if_pos hvalue]
    exact Function.update_self listenEventKey (some unlinkedText) s.group.store
  · rw [SeqMap.cas, if_neg hvalue, beq_eq_false_iff_ne.mpr hvalue]
    exact h.moveOn (h.owned.stay rfl rfl) rfl (fun _ _ hcas => by cases hcas)
      fun hswapped => by cases hswapped

theorem EventLocked.afterMeta {r : Member} (hpc : r.pc = (s.group.rank i).pc)
    (hswapped : (s.listener i).pc.swapped = swapped)
    (hevent : store listenEventKey = s.group.store listenEventKey) :
    EventLocked (s.moveOn i r store ((s.listener i).afterMeta rankId swapped)) := by
  refine h.moveOn (h.owned.stay hevent hpc) hevent ?_ fun hafter => ?_
  · cases swapped <;> exact fun _ _ hpc => by cases hpc
  · cases swapped with
    | true => exact hswapped
    | false => cases hafter

theorem EventLocked.linkDownAdd (hpc : (s.listener i).pc = .add rankId swapped)
    (hnext : s.linkDownAdd i rankId swapped = some s') : EventLocked s' := by
  have hswapped : (s.listener i).pc.swapped = swapped := by rw [hpc]; rfl
  simp only [EventState.linkDownAdd] at hnext
  split at hnext
  · next store tmpVal hadd =>
    have hevent := add_dynamicSizeKey_event hadd
    obtain ⟨survivor, -, rfl⟩ := map_eq_some_iff.mp hnext
    split
    · exact h.afterMeta rfl hswapped hevent
    · exact h.moveOn (h.owned.stay hevent rfl) hevent (fun _ _ hcas => by cases hcas)
        fun hafter => hswapped.trans hafter
  · next store outcome _ hadd =>
    have hevent := add_dynamicSizeKey_event hadd
    obtain rfl := some.inj hnext
    exact h.afterMeta rfl hswapped hevent

theorem EventLocked.remove (hpc : (s.listener i).pc = .remove rankId) :
    EventLocked (s.moveOn i (s.group.rank i) (s.group.store.remove listenEventKey).1
      ((s.listener i).finish rankId)) := by
  have hi : (s.listener i).pc.swapped = true := by rw [hpc]; rfl
  refine h.seize (h.owned.notInSection_of_unlinked (h.taken i hi)) (fun j hji hj => ?_)
    (fun hswapped => by cases hswapped) fun _ _ hcas => by cases hcas
  exact hji (h.one j i hj hi)

theorem EventLocked.linkDown (hok : NoTakeover s i) (hnext : s.linkDown i = some s') :
    EventLocked s' := by
  simp only [EventState.linkDown] at hnext
  split at hnext
  · cases hnext
  · obtain rfl := some.inj hnext
    refine h.withListener asked_afterGet fun hswapped => ?_
    rw [swapped_afterGet] at hswapped
    cases hswapped
  · next rankId value hpc =>
    obtain rfl := some.inj hnext
    exact h.casEvent hpc hok
  · next rankId swapped hpc => exact h.linkDownAdd hpc hnext
  · next rankId oldVal newVal swapped hpc =>
    obtain rfl := some.inj hnext
    have hevent : (s.group.store.cas dynamicSizeKey (Decimal.ofInt oldVal)
        (Decimal.ofInt newVal)).1 listenEventKey = s.group.store listenEventKey :=
      SeqMap.apply_of_ne s.group.store (.cas dynamicSizeKey _ _) listenEventKey_ne
    exact h.afterMeta rfl (by rw [hpc]; rfl) hevent
  · next rankId hpc =>
    obtain rfl := some.inj hnext
    exact h.remove hpc

end

end Listener

theorem eventLocked_of_noBreakIn {s : EventState n}
    (h : (eventSystem n).ReachableBy NoBreakIn s) : EventLocked s := by
  refine h.invariant ⟨fun _ => nofun, nofun, nofun, nofun⟩ ?_
  intro s s' a hinv hok hnext
  cases a with
  | member a =>
    obtain ⟨-, hnext⟩ := ite_none_right_eq_some.mp hnext
    obtain ⟨group, hgroup, rfl⟩ := map_eq_some_iff.mp hnext
    exact hinv.member hok hgroup
  | setBitmapFromRanks i ranks =>
    obtain rfl := some.inj hnext
    exact hinv.withListener (hinv.asked i) id
  | remoteRankLinkDownCb i rankId =>
    obtain rfl := some.inj hnext
    exact hinv.withListener (hinv.asked i) id
  | takeEvents i => exact hinv.takeEvents hnext
  | beginEvent i => exact hinv.beginEvent hnext
  | linkDown i => exact hinv.linkDown hok hnext
  | die i =>
    obtain rfl := some.inj hnext
    exact hinv.die

/-- The call of `GroupJoin` of rank `i`, without a failed attempt. -/
def joinSteps (i : Fin n) : List (EventStep n) :=
  [.member (.join i), .member (.cas i true), .member (.read i true), .member (.update i),
    .member (.remove i)]

def groupOfTwo : List (EventStep 3) :=
  joinSteps 0 ++ joinSteps 1 ++ [.setBitmapFromRanks 1 {0, 1}]

def deathDuringLeave : List (EventStep 3) :=
  [.member (.leave 0), .member (.cas 0 true), .die 0, .remoteRankLinkDownCb 1 0, .takeEvents 1,
    .beginEvent 1, .linkDown 1, .linkDown 1, .member (.join 2), .member (.cas 2 true)]

/-- Rank 1 handles a link-down of rank 0, which is in `GroupLeave`; rank 2 begins to join. -/
def linkDownDuringLeave : List (EventStep 3) :=
  [.member (.leave 0), .member (.cas 0 true), .remoteRankLinkDownCb 1 0, .takeEvents 1,
    .beginEvent 1, .linkDown 1, .linkDown 1, .linkDown 1, .linkDown 1, .linkDown 1,
    .member (.join 2), .member (.cas 2 true)]

section Failed

variable {s : MemberState n} {i : Fin n} {value : Bytes}

theorem memberCas_of_taken {retry : ℕ} (hpc : (s.rank i).pc = .joinCas retry)
    (hevent : s.store listenEventKey = some value) (hne : value ≠ [])
    (hother : value ≠ rankText true i) :
    memberCas s i true = some (s.move i { s.rank i with
      pc := if retry + 1 = maxRetry then .joinRead else .joinCas (retry + 1) } s.store) := by
  have hcas : s.casEvent (rankText true i) = s := by
    simp only [MemberState.casEvent, SeqMap.cas, hevent, getD_some, if_neg hne,
      reduceCtorEq, if_false]
  have hends : casLoopEnds value (rankText true i) retry = decide (retry + 1 = maxRetry) := by
    rw [casLoopEnds, beq_eq_false_iff_ne.mpr hne, beq_eq_false_iff_ne.mpr hother]
    rfl
  simp only [memberCas, hpc, hevent, getD_some]
  rw [show JoinLeaveEvent.toText ⟨true, i⟩ = rankText true i from rfl, hcas, hends]
  simp only [decide_eq_true_eq]

theorem reachable_after_attempts {k : ℕ} (hreach : (memberSystem n).Reachable s)
    (hpc : (s.rank i).pc = .joinCas 0) (hevent : s.store listenEventKey = some value)
    (hne : value ≠ []) (hother : value ≠ rankText true i) (hk : k ≤ maxRetry) :
    (memberSystem n).Reachable (s.move i { s.rank i with
      pc := if k = maxRetry then .joinRead else .joinCas k } s.store) := by
  induction k with
  | zero =>
    rw [if_neg (by decide), ← hpc]
    exact move_self.symm ▸ hreach
  | succ k ih =>
    have ih := ih (by omega)
    rw [if_neg (by omega)] at ih
    have hnext := memberCas_of_taken (s := s.move i { s.rank i with pc := .joinCas k } s.store)
      (i := i) (by rw [move_rank_self]) hevent hne hother
    rw [move_rank_self, move_store, move_move] at hnext
    exact ih.next (a := .cas i true) trivial hnext

end Failed

end GroupEngine
