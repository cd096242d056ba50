/-
What holds of a dynamic group in runs of safe steps.

At most one rank is between its `Cas` of the event key and its removal, and `Current` says who
it is and how far: its addition to the dynamic-size key is still to come (`pre`), has been made
(`post`), or will not come (`aborted`).  `MemberInv` says what each member holds in each of
these phases.

* `MemberInv.move` — one rank moves, and the phase stays.
* `MemberInv.listeners` — the listeners move.
* `MemberInv.change` — one rank goes to another phase; `announce`, `addition`, `finish`,
  `abort` and `giveUp` are the five ways to do so.
-/
import MemFabric.GroupMembership

namespace GroupEngine

open Function JoinLeaveEvent Member

open ConfigStore SharedState

variable {n : ℕ}

/-! ### Phases -/

/-- How far a rank is with its event; `join` tells the two calls apart. -/
inductive Phase
  | outside
  | pre (join : Bool)
  | post (join : Bool)
  | aborted
  deriving DecidableEq

def MemberPc.phase : MemberPc → Phase
  | .idle | .joinCas _ | .leaveCas _ => .outside
  | .joinRead | .joinAdd => .pre true
  | .leaveAdd => .pre false
  | .joinRemove ok => if ok then .post true else .aborted
  | .leaveRemove ok => if ok then .post false else .aborted

/-- The rank that has announced an event, if there is one. -/
inductive Current (n : ℕ)
  | free
  | pre (i : Fin n) (join : Bool)
  | post (i : Fin n) (join : Bool)
  | aborted (i : Fin n)

def Current.phaseOf (j : Fin n) : Current n → Phase
  | .free => .outside
  | .pre i join => if j = i then .pre join else .outside
  | .post i join => if j = i then .post join else .outside
  | .aborted i => if j = i then .aborted else .outside

/-- Rank `i` is in this phase, and all others are outside. -/
def Phase.current (i : Fin n) : Phase → Current n
  | .outside => .free
  | .pre join => .pre i join
  | .post join => .post i join
  | .aborted => .aborted i

/-- The text of the event that rank `i` joins, or that it leaves. -/
def rankText (join : Bool) (i : Fin n) : Bytes := JoinLeaveEvent.toText ⟨join, i⟩

def Current.text : Current n → Option Bytes
  | .free => none
  | .pre i join | .post i join => some (rankText join i)
  | .aborted i => some (rankText true i)

/-- Rank `i` has announced this event, and it is not aborted. -/
def Current.Announces (cur : Current n) (join : Bool) (i : Fin n) : Prop :=
  cur = .pre i join ∨ cur = .post i join

/-! ### The invariant -/

/-- The dynamic-size key holds version `V` and size `S`. -/
def HasSize (store : SeqMap) (V S : ℕ) : Prop :=
  store dynamicSizeKey = some (Decimal.ofInt (V * 2 ^ 30 + S)) ∨
    (store dynamicSizeKey = none ∧ V = 0 ∧ S = 0)

def sizeAfter (join : Bool) (S : ℕ) : ℕ := if join then S + 1 else S - 1

/-- The rank is part of the size: it is a member, or will be when it has removed the event
key; a member that has made its addition to leave is not. -/
def Member.counted (r : Member) : Bool :=
  match r.pc.phase with
  | .post join => join
  | .aborted => false
  | _ => r.joined

def Member.Holds (r : Member) (version : ℤ) (size : ℕ) : Prop :=
  r.groupVersion = version ∧ r.rankSize = size

def Listener.Carries (l : Listener) (value : Bytes) : Prop :=
  l = .sent value ∨ l = .queued value ∨ l = .taken value ∨ l = .entered value

def MemberPc.joining : MemberPc → Bool
  | .joinCas _ | .joinRead | .joinAdd | .joinRemove _ => true
  | _ => false

def MemberPc.leaving : MemberPc → Bool
  | .leaveCas _ | .leaveAdd | .leaveRemove _ => true
  | _ => false

/-- What holds of each rank by itself. -/
structure Member.Ok (V S : ℕ) (r : Member) : Prop where
  joining : r.pc.joining = true → r.joined = false
  leaving : r.pc.leaving = true → r.joined = true ∧ r.groupStoped = true
  fresh : r.joined = false → r.groupStoped = false → r.listener = .unwatched ∧ r.prevEvent = []
  notTaken : r.pc.joining = true ∨ (r.joined = true ∧ r.groupStoped = true ∧ r.pc = .idle) →
    r.listener.isTaken = false
  noFailedLeave : r.pc ≠ .leaveRemove false
  joinAdd : r.pc = .joinAdd → r.Holds (wrap32 (V + 1)) (S + 1)
  joinRemove : r.pc = .joinRemove true → r.Holds V S

/-- What a member outside a call holds.  Members whose listener is stopped have joined
again, and no event is safe for them. -/
def Member.Follows (V S : ℕ) (r : Member) : Current n → Prop
  | .free =>
    r.Holds V S ∧ (r.groupStoped = false → ∀ v, r.listener.Carries v → v = r.prevEvent)
  | .pre i join =>
    (r.HasProcessed (rankText join i) → r.Holds (wrap32 (V + 1)) (sizeAfter join S)) ∧
      (¬ r.HasProcessed (rankText join i) → r.Holds V S) ∧
      (r.groupStoped = false → ∀ v, r.listener.Carries v → v = r.prevEvent ∨ v = rankText join i)
  | .post i join =>
    r.Holds V S ∧ r.HasProcessed (rankText join i) ∧ ∀ v, r.listener.Carries v → v = r.prevEvent
  | .aborted _ => False

/-- What the last event of a member says about the other ranks. -/
def Recalls (s : MemberState n) (cur : Current n) (text : Bytes) : Prop :=
  ∀ i, (text = rankText true i → (s.rank i).joined = true ∨ cur.Announces true i) ∧
    (text = rankText false i → (s.rank i).joined = false ∨ cur.Announces false i)

structure MemberInv (s : MemberState n) (V S : ℕ) (cur : Current n) : Prop where
  version_lt : V < 2 ^ 31
  key : HasSize s.store V S
  event : s.store listenEventKey = cur.text
  phases : ∀ i, (s.rank i).pc.phase = cur.phaseOf i
  size : S = (Finset.univ.filter fun i => (s.rank i).counted = true).card
  ranks : ∀ i, (s.rank i).Ok V S
  members : ∀ j, (s.rank j).joined = true → (s.rank j).pc = .idle → (s.rank j).Follows V S cur
  past : ∀ j, (s.rank j).joined = true → (s.rank j).groupStoped = false →
    Recalls s cur (s.rank j).prevEvent

/-! ### Texts, keys and sizes -/

theorem rankText_injective {join join' : Bool} {i i' : Fin n}
    (h : rankText join i = rankText join' i') : join = join' ∧ i = i' := by
  rw [rankText, rankText, toText, toText, List.cons.injEq] at h
  refine ⟨?_, Fin.ext (Decimal.ofNat_injective h.2)⟩
  cases join <;> cases join' <;> simp at h ⊢

theorem rankText_ne_nil (join : Bool) (i : Fin n) : rankText join i ≠ [] := by
  simp [rankText, toText]

theorem parse_rankText (hn : n < 2 ^ 30) (join : Bool) (i : Fin n) :
    JoinLeaveEvent.parse (rankText join i) = some ⟨join, i⟩ := by
  have hi : (i : ℕ) < 2 ^ 32 := by omega
  have htext : rankText join i = (if join then 74 else 76) :: Decimal.ofNat i := rfl
  have hjoin : ((if join then (74 : UInt8) else 76) == 74) = join := by
    cases join <;> rfl
  rw [htext, parse]
  simp only [hjoin, Decimal.digitsValue_ofNat]
  exact if_pos ⟨rfl, hi⟩

theorem listenEventKey_ne : listenEventKey ≠ dynamicSizeKey := by decide

section Size

variable {store : SeqMap} {V S : ℕ}

theorem packed_eq_merge (hV : V < 2 ^ 31) (hS : S < 2 ^ 30) :
    (V * 2 ^ 30 + S : ℤ) = mergeSizeAndVersion V S := by
  rw [mergeSizeAndVersion_eq (by omega) (by omega), Int.emod_eq_of_lt (by omega) (by omega)]

theorem split_packed (hV : V < 2 ^ 31) (hS : S < 2 ^ 30) :
    splitSizeAndVersion (V * 2 ^ 30 + S) = (↑V, ↑S) := by
  rw [packed_eq_merge hV hS]
  exact split_merge ⟨by omega, by omega⟩ (by omega) (by omega)

theorem inInt64_packed (hV : V < 2 ^ 31) (hS : S < 2 ^ 30) : Decimal.InInt64 (V * 2 ^ 30 + S) := by
  rw [packed_eq_merge hV hS]
  exact inInt64_merge (by omega) (by omega)

theorem HasSize.dynamicSize (h : HasSize store V S) (hV : V < 2 ^ 31) (hS : S < 2 ^ 30) :
    dynamicSize store = V * 2 ^ 30 + S := by
  rcases h with h | ⟨h, rfl, rfl⟩
  · rw [GroupEngine.dynamicSize, h, Option.bind_some, storedNumber_ofInt (inInt64_packed hV hS),
      Option.getD_some]
  · rw [GroupEngine.dynamicSize, h]
    rfl

theorem HasSize.add (h : HasSize store V S) (hV : V < 2 ^ 31) (hS : S < 2 ^ 30) (z : ℤ) :
    store.add dynamicSizeKey z =
      (update store dynamicSizeKey (some (Decimal.ofInt (V * 2 ^ 30 + S + z))),
        .number (V * 2 ^ 30 + S + z)) := by
  rcases h with h | ⟨h, rfl, rfl⟩
  · exact SeqMap.add_of_ofInt h (inInt64_packed hV hS) z
  · rw [SeqMap.add_of_none h]
    simp

theorem hasSize_update (store : SeqMap) (V S : ℕ) :
    HasSize (update store dynamicSizeKey (some (Decimal.ofInt (V * 2 ^ 30 + S)))) V S :=
  .inl (update_self ..)

theorem HasSize.of_eq {store' : SeqMap} (h : HasSize store V S)
    (heq : store' dynamicSizeKey = store dynamicSizeKey) : HasSize store' V S := by
  rwa [HasSize, heq]

theorem update_dynamicSize_event (store : SeqMap) (value : Option Bytes) :
    update store dynamicSizeKey value listenEventKey = store listenEventKey :=
  update_of_ne listenEventKey_ne ..

theorem update_event_dynamicSize (store : SeqMap) (value : Option Bytes) :
    update store listenEventKey value dynamicSizeKey = store dynamicSizeKey :=
  update_of_ne listenEventKey_ne.symm ..

end Size

section Invariant

variable {s : MemberState n} {V S : ℕ} {cur : Current n} {i : Fin n}

theorem MemberInv.size_le (hinv : MemberInv s V S cur) : S ≤ n := by
  rw [hinv.size]
  exact (Finset.card_le_univ _).trans_eq (Fintype.card_fin n)

theorem MemberInv.size_pos (hinv : MemberInv s V S cur) (hi : (s.rank i).counted = true) :
    0 < S := by
  rw [hinv.size]
  exact Finset.card_pos.mpr ⟨i, Finset.mem_filter.mpr ⟨Finset.mem_univ i, hi⟩⟩

theorem MemberInv.current (hinv : MemberInv s V S cur) (ph : Phase)
    (h : (s.rank i).pc.phase = ph) (hne : ph ≠ .outside) : cur = ph.current i := by
  rw [hinv.phases i] at h
  cases cur with
  | free => exact absurd h.symm hne
  | pre j join | post j join | aborted j =>
    simp only [Current.phaseOf] at h
    split at h
    case isTrue hij => rw [← h, hij]; rfl
    case isFalse => exact absurd h.symm hne

/-! ### Moving one rank in the same phase -/

variable {r : Member} {store : SeqMap}

theorem counted_congr {r r' : Member} (hphase : r.pc.phase = r'.pc.phase)
    (hjoined : r.joined = r'.joined) : r.counted = r'.counted := by
  rw [counted, counted, hphase, hjoined]

section

variable (hinv : MemberInv s V S cur)
include hinv

section

variable (hkey : HasSize store V S) (hevent : store listenEventKey = s.store listenEventKey)
  (hphase : r.pc.phase = (s.rank i).pc.phase) (hjoined : r.joined = (s.rank i).joined)
  (hok : r.Ok V S)
include hkey hevent hphase hjoined hok

theorem MemberInv.move (hfollows : r.joined = true → r.pc = .idle → r.Follows V S cur)
    (hpast : r.joined = true → r.groupStoped = false → Recalls s cur r.prevEvent) :
    MemberInv (s.move i r store) V S cur := by
  have hcnt : ∀ j, ((s.move i r store).rank j).counted = (s.rank j).counted :=
    map_move counted (counted_congr hphase hjoined)
  refine
    { version_lt := hinv.version_lt, key := hkey, event := hevent.trans hinv.event
      phases := ?_, size := ?_, ranks := ?_, members := ?_, past := ?_ }
  · exact forall_move (p := fun j (r : Member) => r.pc.phase = cur.phaseOf j)
      (hphase.trans (hinv.phases i)) fun j _ => hinv.phases j
  · simp only [hcnt]
    exact hinv.size
  · exact forall_move (p := fun _ (r : Member) => r.Ok V S) hok fun j _ => hinv.ranks j
  · exact forall_move (p := fun _ (r : Member) => r.joined = true → r.pc = .idle →
      r.Follows V S cur) hfollows fun j _ => hinv.members j
  intro j hj hstoped l
  rw [map_move joined hjoined]
  exact forall_move (p := fun _ (r : Member) => r.joined = true → r.groupStoped = false →
    Recalls s cur r.prevEvent) hpast (fun j _ => hinv.past j) j hj hstoped l

theorem MemberInv.moveCall (hcall : r.pc.joining = true ∨ r.pc.leaving = true) :
    MemberInv (s.move i r store) V S cur := by
  refine hinv.move hkey hevent hphase hjoined hok ?_ ?_
  · intro _ hidle
    rw [hidle] at hcall
    rcases hcall with h | h <;> cases h
  intro hjoin hstoped
  rcases hcall with h | h
  · rw [hok.joining h] at hjoin
    cases hjoin
  · rw [(hok.leaving h).2] at hstoped
    cases hstoped

end

theorem MemberInv.join (hpc : (s.rank i).pc = .idle)
    (hjoined : (s.rank i).joined = false) (hsafe : (s.rank i).listener.isTaken = false) :
    MemberInv (s.move i
      { s.rank i with pc := .joinCas 0 } s.store) V S cur := by
  refine hinv.moveCall hinv.key rfl (by simp only [hpc]; rfl) rfl ?_ (.inl rfl)
  exact ⟨fun _ => hjoined, nofun, (hinv.ranks i).fresh, fun _ => hsafe, nofun, nofun, nofun⟩

theorem MemberInv.leave (hpc : (s.rank i).pc = .idle) (hjoined : (s.rank i).joined = true) :
    MemberInv (s.move i (s.rank i).stop s.store) V S cur := by
  refine hinv.moveCall hinv.key rfl ?_ rfl ?_ (.inr rfl)
  · rw [hpc]
    rfl
  refine ⟨nofun, fun _ => ⟨hjoined, rfl⟩, fun h => ?_, fun h => ?_, nofun, nofun, nofun⟩
  · exact absurd (hjoined.symm.trans h) (by decide)
  rcases h with h | h
  · cases h
  · cases h.2.2

end

/-! ### The listener -/

theorem Member.Ok.idle (hok : r.Ok V S) (hjoin : r.joined = true)
    (hstoped : r.groupStoped = false) : r.pc = .idle := by
  cases hpc : r.pc with
  | idle => rfl
  | joinCas | joinRead | joinAdd | joinRemove =>
    exact absurd ((hok.joining (by rw [hpc]; rfl)).symm.trans hjoin) (by decide)
  | leaveCas | leaveAdd | leaveRemove =>
    exact absurd (hstoped.symm.trans (hok.leaving (by rw [hpc]; rfl)).2) (by decide)

variable {l : Listener} {join : Bool}

theorem Member.Follows.listener (h : r.Follows V S cur)
    (hl : r.groupStoped = false → ∀ v, l.Carries v → r.listener.Carries v ∨ cur.text = some v) :
    Member.Follows V S { r with listener := l } cur := by
  cases cur with
  | free =>
    refine ⟨h.1, fun hstoped v hv => ?_⟩
    rcases hl hstoped v hv with hv | hv
    · exact h.2 hstoped v hv
    · cases hv
  | pre k join =>
    refine ⟨h.1, h.2.1, fun hstoped v hv => ?_⟩
    rcases hl hstoped v hv with hv | hv
    · exact h.2.2 hstoped v hv
    · exact .inr (Option.some_inj.mp hv).symm
  | post k join =>
    refine ⟨h.1, h.2.1, fun v hv => ?_⟩
    rcases hl h.2.1.1 v hv with hv | hv
    · exact h.2.2 v hv
    · exact (Option.some_inj.mp hv).symm.trans h.2.1.2.symm
  | aborted k => exact h

/-- The listener of a rank may become `l`. -/
structure Member.MayTurn (r : Member) (cur : Current n) (l : Listener) : Prop where
  carries : r.groupStoped = false → ∀ v, l.Carries v → r.listener.Carries v ∨ cur.text = some v
  unwatched : r.listener = .unwatched → r.joined = false → l = .unwatched
  taken : l.isTaken = true → r.listener.isTaken = true ∨ (r.joined = true ∧ r.groupStoped = false)

theorem Member.mayTurn_self (r : Member) (cur : Current n) : r.MayTurn cur r.listener :=
  ⟨fun _ _ h => .inl h, fun h _ => h, .inl⟩

theorem Member.Ok.listener (hok : r.Ok V S) (hl : r.MayTurn cur l) :
    Member.Ok V S { r with listener := l } := by
  refine { hok with fresh := fun hjoin hstoped => ?_, notTaken := fun h => ?_ }
  · obtain ⟨hlis, hprev⟩ := hok.fresh hjoin hstoped
    exact ⟨hl.unwatched hlis hjoin, hprev⟩
  by_contra hnot
  rcases hl.taken (by simpa using hnot) with ht | ⟨hjoin, hstoped⟩
  · exact absurd ((hok.notTaken h).symm.trans ht) (by decide)
  rcases h with h | h
  · exact absurd ((hok.joining h).symm.trans hjoin) (by decide)
  · exact absurd (h.2.1.symm.trans hstoped) (by decide)

theorem MemberInv.listeners (hinv : MemberInv s V S cur) {l : Fin n → Listener}
    (hl : ∀ j, (s.rank j).MayTurn cur (l j)) :
    MemberInv ⟨s.store, fun j => { s.rank j with listener := l j }⟩ V S cur :=
  { version_lt := hinv.version_lt
    key := hinv.key
    event := hinv.event
    phases := hinv.phases
    size := hinv.size
    ranks := fun j => (hinv.ranks j).listener (hl j)
    members := fun j hjoin hidle => (hinv.members j hjoin hidle).listener (hl j).carries
    past := hinv.past }

theorem MemberInv.moveListener (hinv : MemberInv s V S cur) (hl : (s.rank i).MayTurn cur l) :
    MemberInv (s.move i { s.rank i with listener := l } s.store) V S cur := by
  have hmove : s.move i { s.rank i with listener := l } s.store = ⟨s.store, fun j =>
      { s.rank j with listener := update (fun j => (s.rank j).listener) i l j }⟩ := by
    refine congrArg (SharedState.mk s.store) (update_eq_iff.mpr ⟨?_, fun j hj => ?_⟩)
    · simp only [update_self]
    · simp only [update_of_ne hj]
  rw [hmove]
  refine hinv.listeners ((forall_update_iff _ fun j l => (s.rank j).MayTurn cur l).mpr ?_)
  exact ⟨hl, fun j _ => (s.rank j).mayTurn_self cur⟩

theorem not_carries_unwatched (v : Bytes) : ¬ Listener.unwatched.Carries v := by
  rintro (h | h | h | h) <;> cases h

theorem not_carries_watching (v : Bytes) : ¬ Listener.watching.Carries v := by
  rintro (h | h | h | h) <;> cases h

theorem Listener.Carries.unique {v w : Bytes} (hv : l.Carries v) (hw : l.Carries w) : w = v := by
  rcases hv with rfl | rfl | rfl | rfl <;> rcases hw with h | h | h | h <;> cases h <;> rfl

theorem Member.mayTurn_unwatched (r : Member) (cur : Current n) : r.MayTurn cur .unwatched :=
  ⟨fun _ v h => absurd h (not_carries_unwatched v), fun _ _ => rfl, nofun⟩

theorem MemberInv.watch (hinv : MemberInv s V S cur) (hjoined : (s.rank i).joined = true)
    (hl : (∃ v, s.store listenEventKey = some v ∧ l = .sent v) ∨ l = .watching) :
    MemberInv (s.move i { s.rank i with listener := l } s.store) V S cur := by
  refine hinv.moveListener ⟨fun _ v hv => ?_, fun _ h => ?_, fun h => ?_⟩
  · rcases hl with ⟨w, hw, rfl⟩ | rfl
    · rw [Listener.Carries.unique (.inl rfl) hv]
      exact .inr (hinv.event.symm.trans hw)
    · exact absurd hv (not_carries_watching v)
  · exact absurd (hjoined.symm.trans h) (by decide)
  · rcases hl with ⟨w, -, rfl⟩ | rfl <;> cases h

theorem MemberInv.pass (hinv : MemberInv s V S cur) {v : Bytes} (hv : (s.rank i).listener.Carries v)
    (hl : l.Carries v) (htaken : l.isTaken = true → (s.rank i).listener.isTaken = true ∨
      ((s.rank i).joined = true ∧ (s.rank i).groupStoped = false)) :
    MemberInv (s.move i { s.rank i with listener := l } s.store) V S cur := by
  refine hinv.moveListener ⟨fun _ w hw => ?_, fun h _ => ?_, htaken⟩
  · rw [hl.unique hw]
    exact .inl hv
  · rw [h] at hv
    exact absurd hv (not_carries_unwatched v)

theorem toUInt32_sizeAfter (join : Bool) (hS : S < 2 ^ 30) (hpos : join = false → 0 < S) :
    toUInt32 (if join then (S : ℤ) + 1 else S - 1) = sizeAfter join S := by
  cases join with
  | true =>
    show toUInt32 ((S : ℤ) + 1) = S + 1
    rw [toUInt32]
    omega
  | false =>
    have hS0 := hpos rfl
    show toUInt32 ((S : ℤ) - 1) = S - 1
    rw [toUInt32]
    omega

theorem MemberInv.joined_of_pre (hinv : MemberInv s V S (.pre i join)) :
    (s.rank i).joined = !join := by
  have hphase : (s.rank i).pc.phase = .pre join := by
    rw [hinv.phases i, Current.phaseOf, if_pos rfl]
  cases hpc : (s.rank i).pc with
  | joinRead | joinAdd =>
    rw [hpc] at hphase
    cases hphase
    exact (hinv.ranks i).joining (by rw [hpc]; rfl)
  | leaveAdd =>
    rw [hpc] at hphase
    cases hphase
    exact ((hinv.ranks i).leaving (by rw [hpc]; rfl)).1
  | joinRemove ok | leaveRemove ok =>
    rw [hpc] at hphase
    cases ok <;> cases hphase
  | _ =>
    rw [hpc] at hphase
    cases hphase

theorem MemberInv.counted_of_pre (hinv : MemberInv s V S (.pre i join)) :
    (s.rank i).counted = !join := by
  rw [counted, hinv.phases i, Current.phaseOf, if_pos rfl]
  exact hinv.joined_of_pre

/-- A listener processes an event it has not processed before.  If the rank is a member
outside a call, it is the current event, and its addition is still to come. -/
theorem MemberInv.process (hinv : MemberInv s V S cur) (hn : n < 2 ^ 30) {value : Bytes}
    (hent : (s.rank i).listener = .entered value)
    {e : JoinLeaveEvent} (hparse : JoinLeaveEvent.parse value = some e)
    (hnew : value ≠ (s.rank i).prevEvent) :
    MemberInv (s.move i { s.rank i with
        listener := .unwatched
        prevEvent := value
        groupVersion := wrap32 (V + 1)
        rankSize := toUInt32 (if e.join then (S : ℤ) + 1 else S - 1) }
      (update s.store dynamicSizeKey (some (Decimal.ofInt (V * 2 ^ 30 + S))))) V S cur := by
  have hok := hinv.ranks i
  have hS := hinv.size_le
  have hcarries : (s.rank i).listener.Carries value := .inr (.inr (.inr hent))
  have htaken : (s.rank i).listener.isTaken ≠ false := by
    rw [hent]
    nofun
  have hcurrent : (s.rank i).joined = true → (s.rank i).pc = .idle →
      (s.rank i).groupStoped = false ∧ ∃ k join, cur = .pre k join ∧ value = rankText join k := by
    intro hjoin hidle
    have hstoped : (s.rank i).groupStoped = false := by
      by_contra hstoped
      exact htaken (hok.notTaken (.inr ⟨hjoin, by simpa using hstoped, hidle⟩))
    have hfollows := hinv.members i hjoin hidle
    cases cur with
    | free => exact absurd (hfollows.2 hstoped value hcarries) hnew
    | pre k join =>
      exact ⟨hstoped, k, join, rfl, (hfollows.2.2 hstoped value hcarries).resolve_left hnew⟩
    | post k join => exact absurd (hfollows.2.2 value hcarries) hnew
    | aborted k => exact absurd hfollows id
  refine hinv.move (hasSize_update _ _ _) (update_dynamicSize_event _ _) rfl rfl ?_ ?_ ?_
  · -- a rank that joins has no event before it
    have hnotJoining : (s.rank i).pc.joining ≠ true := fun h => htaken (hok.notTaken (.inl h))
    refine ⟨hok.joining, hok.leaving, fun hjoin hstoped => ?_, fun _ => rfl, hok.noFailedLeave,
      fun h => ?_, fun h => ?_⟩
    · have hlis := (hok.fresh hjoin hstoped).1
      rw [hent] at hlis
      cases hlis
    · exact absurd (congrArg MemberPc.joining h) hnotJoining
    · exact absurd (congrArg MemberPc.joining h) hnotJoining
  · intro hjoin hidle
    obtain ⟨hstoped, k, join, rfl, rfl⟩ := hcurrent hjoin hidle
    rw [parse_rankText hn, Option.some_inj] at hparse
    rw [← hparse]
    refine ⟨fun _ => ?_, fun hnot => absurd ⟨hstoped, rfl⟩ hnot,
      fun _ v hv => absurd hv (not_carries_unwatched v)⟩
    have hsize := toUInt32_sizeAfter join (S := S) (by omega) fun hleave => by
      refine hinv.size_pos (i := k) ?_
      rw [hinv.counted_of_pre, hleave]
      rfl
    simp only [Member.Holds, hsize, and_self]
  intro hjoin hstoped l
  obtain ⟨-, k, join, rfl, rfl⟩ := hcurrent hjoin (hok.idle hjoin hstoped)
  constructor
  · intro htext
    obtain ⟨rfl, rfl⟩ := rankText_injective htext
    exact .inr (.inl rfl)
  · intro htext
    obtain ⟨rfl, rfl⟩ := rankText_injective htext
    exact .inr (.inl rfl)

/-! ### Changing the phase -/

@[simp] theorem phaseOf_current_self (ph : Phase) (i : Fin n) : (ph.current i).phaseOf i = ph := by
  cases ph <;> simp [Phase.current, Current.phaseOf]

theorem phaseOf_current_of_ne (ph : Phase) {j : Fin n} (h : j ≠ i) :
    (ph.current i).phaseOf j = .outside := by
  cases ph <;> simp [Phase.current, Current.phaseOf, h]

theorem Member.Ok.of_outside (hok : r.Ok V S) (hout : r.pc.phase = .outside) (V' S' : ℕ) :
    r.Ok V' S' := by
  refine { hok with joinAdd := ?_, joinRemove := ?_ }
  · intro hpc
    rw [hpc] at hout
    cases hout
  · intro hpc
    rw [hpc] at hout
    cases hout

theorem MemberInv.change (ph : Phase) (hinv : MemberInv s V S (ph.current i)) {V' S' : ℕ}
    (hver : V' < 2 ^ 31) (hkey : HasSize store V' S')
    (hevent : store listenEventKey = (r.pc.phase.current i).text)
    (hsize : S' + (s.rank i).counted.toNat = S + r.counted.toNat) (hok : r.Ok V' S')
    (hfollows : ∀ j ≠ i, (s.rank j).joined = true → (s.rank j).pc = .idle →
      (s.rank j).Follows V S (ph.current i) → (s.rank j).Follows V' S' (r.pc.phase.current i))
    (hself : r.joined = true → r.pc = .idle → r.Follows V' S' (r.pc.phase.current i))
    (hpast : ∀ j ≠ i, (s.rank j).joined = true → (s.rank j).Follows V S (ph.current i) →
      Recalls s (ph.current i) (s.rank j).prevEvent →
      Recalls (s.move i r store) (r.pc.phase.current i) (s.rank j).prevEvent)
    (hselfPast : r.joined = true → r.groupStoped = false →
      Recalls (s.move i r store) (r.pc.phase.current i) r.prevEvent) :
    MemberInv (s.move i r store) V' S' (r.pc.phase.current i) := by
  refine
    { version_lt := hver, key := hkey, event := hevent
      phases := ?_, size := ?_, ranks := ?_, members := ?_, past := ?_ }
  · refine forall_move
      (p := fun j (r' : Member) => r'.pc.phase = (r.pc.phase.current i).phaseOf j) ?_ fun j hj => ?_
    · rw [phaseOf_current_self]
    · rw [hinv.phases j, phaseOf_current_of_ne _ hj, phaseOf_current_of_ne _ hj]
  · have hcard := card_filter_move s i r store fun _ => counted
    rw [← hinv.size] at hcard
    omega
  · refine forall_move (p := fun _ (r : Member) => r.Ok V' S') hok fun j hj => ?_
    refine (hinv.ranks j).of_outside ?_ V' S'
    rw [hinv.phases j, phaseOf_current_of_ne _ hj]
  · exact forall_move (p := fun _ (r' : Member) => r'.joined = true → r'.pc = .idle →
      r'.Follows V' S' (r.pc.phase.current i)) hself
      fun j hj hjoin hidle => hfollows j hj hjoin hidle (hinv.members j hjoin hidle)
  refine forall_move (p := fun _ (r' : Member) => r'.joined = true → r'.groupStoped = false →
    Recalls (s.move i r store) (r.pc.phase.current i) r'.prevEvent) hselfPast ?_
  intro j hj hjoin hstoped
  have hidle := (hinv.ranks j).idle hjoin hstoped
  exact hpast j hj hjoin (hinv.members j hjoin hidle) (hinv.past j hjoin hstoped)

theorem Recalls.mono {t : MemberState n} {cur' : Current n} {text : Bytes}
    (h : Recalls s cur text) (hjoined : ∀ l, (t.rank l).joined = (s.rank l).joined)
    (hcur : ∀ join l, cur.Announces join l → cur'.Announces join l) : Recalls t cur' text := by
  intro l
  rw [hjoined l]
  exact ⟨fun ht => ((h l).1 ht).imp_right (hcur true l),
    fun ht => ((h l).2 ht).imp_right (hcur false l)⟩

theorem MemberPc.ne_idle {pc : MemberPc} (h : pc.phase ≠ .outside) : pc ≠ .idle := by
  rintro rfl
  exact h rfl

theorem MemberInv.announce (hinv : MemberInv s V S .free) (hi : (s.rank i).joined = !join)
    (hphase : r.pc.phase = .pre join) (hjoined : r.joined = (s.rank i).joined) (hok : r.Ok V S) :
    MemberInv (s.move i r
      (update s.store listenEventKey (some (rankText join i)))) V S (.pre i join) := by
  have hcur : r.pc.phase.current i = .pre i join := by
    rw [hphase]
    rfl
  have hcnt : r.counted = (s.rank i).counted := by
    rw [counted, counted, hinv.phases i, hphase]
    exact hjoined
  have hnotIdle : r.pc ≠ .idle := MemberPc.ne_idle (by rw [hphase]; nofun)
  rw [← hcur]
  refine hinv.change .outside hinv.version_lt
    (hinv.key.of_eq (update_event_dynamicSize _ _)) ?_ (by rw [hcnt]) hok ?_ ?_ ?_ ?_
  · rw [hcur, update_self]
    rfl
  · intro j _ hjoin hidle hfollows
    rw [hcur]
    refine ⟨fun hproc => ?_, fun _ => hfollows.1, fun halive v hv => .inl (hfollows.2 halive v hv)⟩
    -- an event of the past with this text would say the opposite about rank `i`
    have hpast := hinv.past j hjoin hproc.1 i
    rw [hproc.2, hi] at hpast
    cases join with
    | true => rcases hpast.1 rfl with h | h | h <;> cases h
    | false => rcases hpast.2 rfl with h | h | h <;> cases h
  · intro _ hidle
    exact absurd hidle hnotIdle
  · intro j _ _ _ hpast
    refine hpast.mono (map_move joined hjoined) fun _ _ h => ?_
    rcases h with h | h <;> cases h
  · intro hjoin halive
    exact absurd (hok.idle hjoin halive) hnotIdle

theorem MemberInv.addition (hinv : MemberInv s V S (.pre i join)) (hver : V + 1 < 2 ^ 31)
    (hprocessed : ∀ j, j ≠ i → (s.rank j).joined = true → (s.rank j).pc = .idle →
      (s.rank j).HasProcessed (rankText join i)) (hphase : r.pc.phase = .post join)
    (hjoined : r.joined = (s.rank i).joined) (hok : r.Ok (V + 1) (sizeAfter join S)) :
    MemberInv (s.move i r (update s.store dynamicSizeKey
      (some (Decimal.ofInt ((V + 1 : ℕ) * 2 ^ 30 + sizeAfter join S)))))
      (V + 1) (sizeAfter join S) (.post i join) := by
  have hcur : r.pc.phase.current i = .post i join := by
    rw [hphase]
    rfl
  have hwrap : wrap32 (V + 1) = (V + 1 : ℕ) := wrap32_of_inInt32 ⟨by omega, by omega⟩
  have hnotIdle : r.pc ≠ .idle := MemberPc.ne_idle (by rw [hphase]; nofun)
  rw [← hcur]
  refine hinv.change (.pre join) hver (hasSize_update _ _ _) ?_ ?_ hok ?_ ?_ ?_ ?_
  · rw [update_dynamicSize_event, hinv.event, hcur]
    rfl
  · rw [hinv.counted_of_pre, counted, hphase]
    cases join with
    | true => rfl
    | false =>
      have hpos := hinv.size_pos (i := i) (by rw [hinv.counted_of_pre]; rfl)
      show S - 1 + 1 = S + 0
      omega
  · intro j hj hjoin hidle hfollows
    have hproc := hprocessed j hj hjoin hidle
    rw [hcur]
    refine ⟨hwrap ▸ hfollows.1 hproc, hproc, fun v hv => ?_⟩
    rcases hfollows.2.2 hproc.1 v hv with h | h
    · exact h
    · exact h.trans hproc.2.symm
  · intro _ hidle
    exact absurd hidle hnotIdle
  · intro j _ _ _ hpast
    refine hpast.mono (map_move joined hjoined) fun join' l h => ?_
    rw [hcur]
    rcases h with h | h
    · cases h
      exact .inr rfl
    · cases h
  · intro hjoin halive
    exact absurd (hok.idle hjoin halive) hnotIdle

theorem MemberInv.finish (hinv : MemberInv s V S (.post i join)) (hidle : r.pc = .idle)
    (hjoined : r.joined = join) (hok : r.Ok V S) (hself : join = true → r.Holds V S ∧
      (r.groupStoped = false → r.listener = .unwatched ∧ r.prevEvent = [])) :
    MemberInv (s.move i r (update s.store listenEventKey none)) V S .free := by
  have hcur : r.pc.phase.current i = .free := by
    rw [hidle]
    rfl
  have hcnt : (s.rank i).counted = join := by
    rw [counted, hinv.phases i, Current.phaseOf, if_pos rfl]
  have hcnt' : r.counted = join := by
    rw [counted, hidle]
    exact hjoined
  rw [← hcur]
  refine hinv.change (.post join) hinv.version_lt
    (hinv.key.of_eq (update_event_dynamicSize _ _)) ?_ (by rw [hcnt, hcnt']) hok ?_ ?_ ?_ ?_
  · rw [hcur, update_self]
    rfl
  · intro j _ _ _ hfollows
    rw [hcur]
    exact ⟨hfollows.1, fun _ => hfollows.2.2⟩
  · intro hjoin _
    obtain ⟨hholds, hlis⟩ := hself (hjoined.symm.trans hjoin)
    rw [hcur]
    refine ⟨hholds, fun halive v hv => ?_⟩
    rw [(hlis halive).1] at hv
    exact absurd hv (not_carries_unwatched v)
  · intro j _ _ hfollows _ l
    rw [hfollows.2.1.2]
    -- the last event of every member is the one that ends
    refine ⟨fun htext => .inl ?_, fun htext => .inl ?_⟩
    · obtain ⟨rfl, rfl⟩ := rankText_injective htext
      rw [move_rank_self, hjoined]
    · obtain ⟨rfl, rfl⟩ := rankText_injective htext
      rw [move_rank_self, hjoined]
  intro hjoin halive l
  rw [((hself (hjoined.symm.trans hjoin)).2 halive).2]
  exact ⟨fun h => absurd h.symm (rankText_ne_nil true l),
    fun h => absurd h.symm (rankText_ne_nil false l)⟩

theorem MemberInv.abort (hinv : MemberInv s V S (.pre i true)) (hkey : HasSize store V S)
    (hevent : store listenEventKey = s.store listenEventKey)
    (hnone : ∀ j, (s.rank j).joined = false) (hphase : r.pc.phase = .aborted)
    (hjoined : r.joined = (s.rank i).joined) (hok : r.Ok V S) :
    MemberInv (s.move i r store) V S (.aborted i) := by
  have hcur : r.pc.phase.current i = .aborted i := by
    rw [hphase]
    rfl
  have hr : r.joined = false := hjoined.trans (hnone i)
  rw [← hcur]
  refine hinv.change (.pre true) hinv.version_lt hkey ?_ ?_ hok ?_ ?_ ?_ ?_
  · rw [hevent, hinv.event, hcur]
    rfl
  · rw [hinv.counted_of_pre, counted, hphase]
    rfl
  · intro j _ hjoin
    exact absurd ((hnone j).symm.trans hjoin) (by decide)
  · intro hjoin
    exact absurd (hr.symm.trans hjoin) (by decide)
  · intro j _ hjoin
    exact absurd ((hnone j).symm.trans hjoin) (by decide)
  · intro hjoin
    exact absurd (hr.symm.trans hjoin) (by decide)

theorem MemberInv.giveUp (hinv : MemberInv s V S (.aborted i)) (hidle : r.pc = .idle)
    (hjoined : r.joined = false) (hok : r.Ok V S) :
    MemberInv (s.move i r (update s.store listenEventKey none)) V S .free := by
  have hcur : r.pc.phase.current i = .free := by
    rw [hidle]
    rfl
  have hcnt : (s.rank i).counted = false := by
    rw [counted, hinv.phases i, Current.phaseOf, if_pos rfl]
  have hcnt' : r.counted = false := by
    rw [counted, hidle]
    exact hjoined
  rw [← hcur]
  refine hinv.change .aborted hinv.version_lt
    (hinv.key.of_eq (update_event_dynamicSize _ _)) ?_ (by rw [hcnt, hcnt']) hok ?_ ?_ ?_ ?_
  · rw [hcur, update_self]
    rfl
  · intro j _ _ _ hfollows
    exact absurd hfollows id
  · intro hjoin
    exact absurd (hjoined.symm.trans hjoin) (by decide)
  · intro j _ _ hfollows
    exact absurd hfollows id
  · intro hjoin
    exact absurd (hjoined.symm.trans hjoin) (by decide)

end Invariant

end GroupEngine
