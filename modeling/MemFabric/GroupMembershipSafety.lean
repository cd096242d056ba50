/-
Agreement of a dynamic group in runs of safe steps.
-/
import MemFabric.GroupMembershipInv

namespace GroupEngine

open Option

open ConfigStore SharedState

variable {n : ℕ}

section Invariant

variable {s : MemberState n} {V S : ℕ} {cur : Current n} {i : Fin n} {r : Member} {store : SeqMap}

/-! ### The steps -/

theorem MemberInv.wake (hinv : MemberInv s V S cur) {text : Bytes} (htext : cur.text = some text) :
    MemberInv ⟨s.store, wakeListeners text s.rank⟩ V S cur := by
  have hwake : wakeListeners text s.rank = fun j => { s.rank j with
      listener := if (s.rank j).listener = .watching then .sent text else (s.rank j).listener } := by
    funext j
    rw [wakeListeners]
    split <;> rfl
  rw [hwake]
  refine hinv.listeners fun j => ?_
  split
  case isTrue h =>
    refine ⟨fun _ v hv => .inr ?_, fun hl _ => ?_, nofun⟩
    · rw [Listener.Carries.unique (.inl rfl) hv, htext]
    · exact absurd (h.symm.trans hl) (by decide)
  case isFalse => exact (s.rank j).mayTurn_self cur

theorem move_wakeListeners (text : Bytes) (pc : MemberPc) :
    Function.update (wakeListeners text s.rank) i { wakeListeners text s.rank i with pc := pc } =
      wakeListeners text (s.move i { s.rank i with pc := pc } store).rank := by
  refine Function.update_eq_iff.mpr ⟨?_, fun j hj => ?_⟩
  · simp only [wakeListeners, move_rank_self]
    split <;> rfl
  · simp only [wakeListeners, move_rank_of_ne hj]

/-- A `Cas` by a rank without an announced event, not in a lost last attempt: the event key
was free and is now taken, or nothing changes. -/
theorem MemberInv.cas_cases (hinv : MemberInv s V S cur) (hout : (s.rank i).pc.phase = .outside)
    (join : Bool) {retry : ℕ}
    (hlast : (retry + 1 == maxRetry) = true → s.store listenEventKey = none) :
    (cur = .free ∧ casLoopEnds ((s.store listenEventKey).getD []) (rankText join i) retry = true ∧
      s.casEvent (rankText join i) =
        ⟨Function.update s.store listenEventKey (some (rankText join i)),
          wakeListeners (rankText join i) s.rank⟩) ∨
    (casLoopEnds ((s.store listenEventKey).getD []) (rankText join i) retry = false ∧
      s.casEvent (rankText join i) = s) := by
  have hfree : cur = .free ∨ ∃ join' k, k ≠ i ∧ cur.text = some (rankText join' k) := by
    have hphase := hinv.phases i
    rw [hout] at hphase
    cases cur with
    | free => exact .inl rfl
    | pre k join' | post k join' =>
      refine .inr ⟨join', k, ?_, rfl⟩
      rintro rfl
      rw [Current.phaseOf, if_pos rfl] at hphase
      cases hphase
    | aborted k =>
      refine .inr ⟨true, k, ?_, rfl⟩
      rintro rfl
      rw [Current.phaseOf, if_pos rfl] at hphase
      cases hphase
  rcases hfree with rfl | ⟨join', k, hk, htext⟩
  · left
    have hnone : s.store listenEventKey = none := hinv.event
    refine ⟨rfl, ?_, ?_⟩
    · rw [hnone]
      rfl
    · rw [MemberState.casEvent, SeqMap.cas, hnone, if_pos rfl]
      rfl
  right
  have hsome := hinv.event.trans htext
  have hnil := rankText_ne_nil join' k
  rw [hsome] at hlast
  constructor
  · have hne : rankText join' k ≠ rankText join i := fun h => hk (rankText_injective h).2
    rw [hsome, casLoopEnds, getD_some, beq_false_of_ne hnil, beq_false_of_ne hne]
    exact Bool.eq_false_iff.mpr fun h => Option.some_ne_none _ (hlast h)
  · simp only [MemberState.casEvent, SeqMap.cas, hsome, getD_some, if_neg hnil,
      reduceCtorEq, if_false]

theorem MemberPc.not_joining {pc : MemberPc} (h : pc.leaving = true) : ¬ pc.joining = true := by
  cases pc with
  | leaveCas | leaveAdd | leaveRemove => exact Bool.false_ne_true
  | _ => cases h

theorem Member.Ok.joinOn (hok : r.Ok V S) (hold : r.pc.joining = true) (pc : MemberPc)
    (hnew : pc.joining = true) (hadd : pc ≠ .joinAdd) (hremove : pc ≠ .joinRemove true) :
    Member.Ok V S { r with pc := pc } := by
  refine ⟨fun _ => hok.joining hold, fun h => ?_, hok.fresh, fun _ => hok.notTaken (.inl hold),
    ?_, fun h => absurd h hadd, fun h => absurd h hremove⟩
  · exact absurd hnew (MemberPc.not_joining h)
  · rintro rfl
    cases hnew

theorem Member.Ok.leaveOn (hok : r.Ok V S) (hold : r.pc.leaving = true) (r' : Member)
    (hjoined : r'.joined = r.joined) (hstoped : r'.groupStoped = r.groupStoped)
    (hnew : r'.pc.leaving = true) (hfail : r'.pc ≠ .leaveRemove false) (V' S' : ℕ) :
    r'.Ok V' S' := by
  obtain ⟨hjoin, hstop⟩ := hok.leaving hold
  refine ⟨fun h => ?_, fun _ => ⟨hjoined.trans hjoin, hstoped.trans hstop⟩, fun h => ?_, fun h => ?_,
    hfail, fun h => ?_, fun h => ?_⟩
  · exact absurd h (MemberPc.not_joining hnew)
  · exact absurd ((hjoined.trans hjoin).symm.trans h) (by decide)
  · rcases h with h | ⟨-, -, h⟩
    · exact absurd h (MemberPc.not_joining hnew)
    · rw [h] at hnew
      cases hnew
  · rw [h] at hnew
    cases hnew
  · rw [h] at hnew
    cases hnew

theorem MemberInv.casTaken (join : Bool) {pc : MemberPc} (hinv : MemberInv s V S .free)
    (hi : (s.rank i).joined = !join) (hphase : pc.phase = .pre join)
    (hok : Member.Ok V S { s.rank i with pc := pc }) {t : MemberState n}
    (ht : t = ⟨Function.update s.store listenEventKey (some (rankText join i)),
      wakeListeners (rankText join i) s.rank⟩) :
    MemberInv (t.move i { t.rank i with pc := pc } t.store) V S (.pre i join) := by
  subst ht
  have hwake := (hinv.announce (r := { s.rank i with pc := pc }) hi hphase rfl hok).wake rfl
  rw [SharedState.move, move_wakeListeners]
  exact hwake

variable {s' : MemberState n}

section

variable (hinv : MemberInv s V S cur)
include hinv

theorem MemberInv.cas {cbOk : Bool} (hsafe : SafeStep s (.cas i cbOk))
    (hnext : memberCas s i cbOk = some s') : ∃ cur', MemberInv s' V S cur' := by
  obtain ⟨rfl, hlast⟩ := hsafe
  have hok := hinv.ranks i
  cases hpc : (s.rank i).pc with
  | joinCas retry =>
    rw [hpc] at hlast
    have hjoining : (s.rank i).pc.joining = true := by rw [hpc]; rfl
    simp only [memberCas, hpc, some_inj] at hnext
    subst hnext
    rcases hinv.cas_cases (i := i) (by rw [hpc]; rfl) true hlast with
      ⟨rfl, hends, hcas⟩ | ⟨hends, hcas⟩
    · have hok' := hok.joinOn hjoining .joinRead rfl (by simp) (by simp)
      rw [rankText] at hends
      rw [if_pos hends]
      exact ⟨_, hinv.casTaken true (hok.joining hjoining) rfl hok' hcas⟩
    have hok' := hok.joinOn hjoining (.joinCas (retry + 1)) rfl (by simp) (by simp)
    rw [rankText] at hends hcas
    rw [hends, hcas, if_neg Bool.false_ne_true]
    exact ⟨cur, hinv.moveCall hinv.key rfl (by rw [hpc]; rfl) rfl hok' (.inl rfl)⟩
  | leaveCas retry =>
    rw [hpc] at hlast
    have hleave : (s.rank i).pc.leaving = true := by rw [hpc]; rfl
    simp only [memberCas, hpc, some_inj, if_true] at hnext
    subst hnext
    rcases hinv.cas_cases (i := i) (by rw [hpc]; rfl) false hlast with
      ⟨rfl, hends, hcas⟩ | ⟨hends, hcas⟩
    · have hok' := hok.leaveOn hleave { s.rank i with pc := .leaveAdd } rfl rfl rfl (by simp) V S
      rw [rankText] at hends
      rw [if_pos hends]
      exact ⟨_, hinv.casTaken false (hok.leaving hleave).1 rfl hok' hcas⟩
    have hok' := hok.leaveOn hleave { s.rank i with pc := .leaveCas (retry + 1) }
      rfl rfl rfl (by simp) V S
    rw [rankText] at hends hcas
    rw [hends, hcas, if_neg Bool.false_ne_true]
    exact ⟨cur, hinv.moveCall hinv.key rfl (by rw [hpc]; rfl) rfl hok' (.inr rfl)⟩
  | _ =>
    simp only [memberCas, hpc] at hnext
    cases hnext

theorem MemberInv.read (hn : n < 2 ^ 30) {cbOk : Bool}
    (hsafe : SafeStep s (.read i cbOk)) (hnext : memberRead s i cbOk = some s') :
    ∃ cur', MemberInv s' V S cur' := by
  obtain ⟨hpc, hnext⟩ := ite_none_right_eq_some.mp hnext
  have hS : S < 2 ^ 30 := hinv.size_le.trans_lt hn
  have hok := hinv.ranks i
  have hjoining : (s.rank i).pc.joining = true := by rw [hpc]; rfl
  obtain rfl : cur = .pre i true := hinv.current (.pre true) (by rw [hpc]; rfl) (by simp)
  simp only [hinv.key.add hinv.version_lt hS, add_zero, split_packed hinv.version_lt hS,
    some_inj] at hnext
  subst hnext
  have hkey := hasSize_update s.store V S
  have hevent := update_dynamicSize_event s.store (some (Decimal.ofInt (V * 2 ^ 30 + S)))
  cases cbOk with
  | true =>
    refine ⟨_, hinv.moveCall hkey hevent (by rw [hpc]; rfl) rfl ?_ (.inl rfl)⟩
    refine ⟨fun _ => hok.joining hjoining, (fun h => by cases h), hok.fresh,
      fun _ => hok.notTaken (.inl hjoining), by simp, fun _ => ?_, by simp⟩
    have hsize := toUInt32_sizeAfter true hS (by simp)
    simp only [if_true, sizeAfter] at hsize
    simp only [Member.Holds, hsize, and_self]
  | false =>
    rcases hsafe with h | hnone
    · cases h
    refine ⟨_, hinv.abort hkey hevent hnone rfl rfl ?_⟩
    exact ⟨fun _ => hok.joining hjoining, (fun h => by cases h), hok.fresh,
      fun _ => hok.notTaken (.inl hjoining), by simp, by simp, by simp⟩

theorem MemberInv.update (hn : n < 2 ^ 30)
    (hsafe : SafeStep s (.update i)) (hnext : memberUpdate s i = some s') :
    ∃ V' S' cur', MemberInv s' V' S' cur' := by
  have hS : S < 2 ^ 30 := hinv.size_le.trans_lt hn
  have hok := hinv.ranks i
  obtain ⟨hproc, hver⟩ := hsafe
  rw [hinv.key.dynamicSize hinv.version_lt hS, split_packed hinv.version_lt hS] at hver
  have hlt : V + 1 < 2 ^ 31 := by
    omega
  cases hpc : (s.rank i).pc with
  | joinAdd =>
    have hjoining : (s.rank i).pc.joining = true := by rw [hpc]; rfl
    obtain rfl : cur = .pre i true := hinv.current (.pre true) (by rw [hpc]; rfl) nofun
    have hsum : (V : ℤ) * 2 ^ 30 + S + (2 ^ 30 + 1) =
        (V + 1 : ℕ) * 2 ^ 30 + (sizeAfter true S : ℕ) := by
      show _ = ((V + 1 : ℕ) : ℤ) * 2 ^ 30 + ((S + 1 : ℕ) : ℤ)
      omega
    have hwrap : wrap32 (V + 1) = (V + 1 : ℕ) := wrap32_of_inInt32 ⟨by omega, by omega⟩
    simp only [memberUpdate, hpc, hinv.key.add hinv.version_lt hS, hsum, some_inj] at hnext
    subst hnext
    rw [hpc] at hproc
    refine ⟨_, _, _, hinv.addition hlt hproc rfl rfl ?_⟩
    exact ⟨fun _ => hok.joining hjoining, nofun, hok.fresh, fun _ => hok.notTaken (.inl hjoining),
      nofun, nofun, fun _ => hwrap ▸ hok.joinAdd hpc⟩
  | leaveAdd =>
    have hleave : (s.rank i).pc.leaving = true := by rw [hpc]; rfl
    obtain rfl : cur = .pre i false := hinv.current (.pre false) (by rw [hpc]; rfl) nofun
    have hpos := hinv.size_pos (i := i) (by rw [hinv.counted_of_pre]; rfl)
    have hsum : (V : ℤ) * 2 ^ 30 + S + (2 ^ 30 - 1) =
        (V + 1 : ℕ) * 2 ^ 30 + (sizeAfter false S : ℕ) := by
      show _ = ((V + 1 : ℕ) : ℤ) * 2 ^ 30 + ((S - 1 : ℕ) : ℤ)
      omega
    simp only [memberUpdate, hpc, hinv.key.add hinv.version_lt hS, hsum, some_inj] at hnext
    subst hnext
    rw [hpc] at hproc
    refine ⟨_, _, _, hinv.addition hlt hproc rfl rfl ?_⟩
    refine hok.leaveOn hleave _ ?_ ?_ ?_ ?_ _ _
    · rfl
    · rfl
    · rfl
    · nofun
  | _ =>
    simp only [memberUpdate, hpc] at hnext
    cases hnext

theorem MemberInv.remove (hnext : memberRemove s i = some s') : ∃ cur', MemberInv s' V S cur' := by
  have hok := hinv.ranks i
  cases hpc : (s.rank i).pc with
  | joinRemove ok =>
    have hjoining : (s.rank i).pc.joining = true := by rw [hpc]; rfl
    have hjoined := hok.joining hjoining
    cases ok with
    | true =>
      obtain rfl : cur = .post i true := hinv.current (.post true) (by rw [hpc]; rfl) nofun
      have hremove := SeqMap.remove_of_some hinv.event
      simp only [memberRemove, hpc, hremove, some_inj] at hnext
      subst hnext
      refine ⟨_, hinv.finish rfl rfl ?_ fun _ => ⟨hok.joinRemove hpc, hok.fresh hjoined⟩⟩
      exact ⟨nofun, nofun, nofun, fun _ => hok.notTaken (.inl hjoining), nofun, nofun, nofun⟩
    | false =>
      obtain rfl : cur = .aborted i := hinv.current .aborted (by rw [hpc]; rfl) nofun
      simp only [memberRemove, hpc, SeqMap.remove_fst, Bool.false_and, some_inj] at hnext
      subst hnext
      refine ⟨_, hinv.giveUp rfl rfl ?_⟩
      refine ⟨nofun, nofun, fun _ => hok.fresh hjoined, fun h => ?_, nofun, nofun, nofun⟩
      rcases h with h | ⟨h, -⟩ <;> cases h
  | leaveRemove ok =>
    have hleave : (s.rank i).pc.leaving = true := by rw [hpc]; rfl
    have hstoped := (hok.leaving hleave).2
    cases ok with
    | true =>
      obtain rfl : cur = .post i false := hinv.current (.post false) (by rw [hpc]; rfl) nofun
      simp only [memberRemove, hpc, SeqMap.remove_fst, some_inj] at hnext
      subst hnext
      refine ⟨_, hinv.finish rfl rfl ?_ nofun⟩
      refine ⟨nofun, nofun, fun _ h => ?_, fun h => ?_, nofun, nofun, nofun⟩
      · exact absurd (hstoped.symm.trans h) (by decide)
      · rcases h with h | ⟨h, -⟩ <;> cases h
    | false => exact absurd hpc hok.noFailedLeave
  | _ =>
    simp only [memberRemove, hpc] at hnext
    cases hnext

theorem MemberInv.listen (hn : n < 2 ^ 30)
    (hnext : memberProcess s i = some s') : MemberInv s' V S cur := by
  have hS : S < 2 ^ 30 := hinv.size_le.trans_lt hn
  have hdrop := hinv.moveListener ((s.rank i).mayTurn_unwatched cur)
  rw [memberProcess] at hnext
  split at hnext
  case h_2 => cases hnext
  case h_1 value hent =>
    cases hparse : JoinLeaveEvent.parse value with
    | none =>
      simp only [hparse, some_inj] at hnext
      exact hnext ▸ hdrop
    | some e =>
      simp only [hparse] at hnext
      split at hnext
      case isTrue =>
        rw [some_inj] at hnext
        exact hnext ▸ hdrop
      case isFalse hnew =>
        simp only [hinv.key.add hinv.version_lt hS, add_zero, split_packed hinv.version_lt hS,
          some_inj] at hnext
        subst hnext
        exact hinv.process hn hent hparse hnew

end

/-- Every safe step of `memberSystem` keeps `MemberInv`. -/
theorem memberInv_next (hn : n < 2 ^ 30) {a : MemberStep n} (hinv : MemberInv s V S cur)
    (hsafe : SafeStep s a) (hnext : memberNext s a = some s') :
    ∃ V' S' cur', MemberInv s' V' S' cur' := by
  cases a with
  | join i =>
    obtain ⟨⟨hpc, hjoined⟩, rfl⟩ := of_guard hnext
    exact ⟨V, S, cur, hinv.join hpc hjoined hsafe⟩
  | leave i =>
    obtain ⟨⟨hpc, hjoined⟩, rfl⟩ := of_guard hnext
    exact ⟨V, S, cur, hinv.leave hpc hjoined⟩
  | cas i cbOk => exact ⟨V, S, hinv.cas hsafe hnext⟩
  | read i cbOk => exact ⟨V, S, hinv.read hn hsafe hnext⟩
  | update i => exact hinv.update hn hsafe hnext
  | remove i => exact ⟨V, S, hinv.remove hnext⟩
  | watch i =>
    obtain ⟨⟨hjoined, -, -⟩, rfl⟩ := of_guard hnext
    refine ⟨V, S, cur, hinv.watch hjoined ?_⟩
    cases hevent : s.store listenEventKey with
    | none => exact .inr rfl
    | some value => exact .inl ⟨value, rfl, rfl⟩
  | deliver i =>
    rw [memberNext] at hnext
    split at hnext
    case h_2 => cases hnext
    case h_1 value hsent =>
      refine ⟨V, S, cur, some_inj.mp hnext ▸ ?_⟩
      exact hinv.pass (v := value) (.inl hsent) (.inr (.inl rfl)) nofun
  | take i =>
    rw [memberNext] at hnext
    split at hnext
    case h_2 => cases hnext
    case h_1 value hqueued =>
      refine ⟨V, S, cur, some_inj.mp hnext ▸ ?_⟩
      split
      case isTrue hlive =>
        exact hinv.pass (v := value) (.inr (.inl hqueued)) (.inr (.inr (.inl rfl)))
          fun _ => .inr hlive
      case isFalse => exact hinv.moveListener ((s.rank i).mayTurn_unwatched cur)
  | enter i =>
    rw [memberNext] at hnext
    split at hnext
    case h_2 => cases hnext
    case h_1 value htaken =>
      obtain ⟨-, rfl⟩ := of_guard hnext
      refine ⟨V, S, cur, ?_⟩
      exact hinv.pass (v := value) (.inr (.inr (.inl htaken))) (.inr (.inr (.inr rfl)))
        fun _ => .inl (by rw [htaken]; rfl)
  | process i => exact ⟨V, S, cur, hinv.listen hn hnext⟩

end Invariant

/-! ### Whole runs -/

theorem memberInv_start (n : ℕ) : MemberInv (memberSystem n).start 0 0 .free :=
  { version_lt := by decide
    key := .inr ⟨rfl, rfl, rfl⟩
    event := rfl
    phases := fun _ => rfl
    size := by
      refine (Finset.card_eq_zero.mpr (Finset.filter_eq_empty_iff.mpr fun i _ h => ?_)).symm
      cases h
    ranks := fun _ => ⟨nofun, nofun, fun _ _ => ⟨rfl, rfl⟩, fun _ => rfl, nofun, nofun, nofun⟩
    members := nofun
    past := nofun }

/-- In every quiescent state all members agree with the key. -/
theorem agreement_of_safeSteps (hn : n < 2 ^ 30) {s : MemberState n}
    (hs : (memberSystem n).ReachableBy SafeStep s) (hq : Quiescent s) : Agreement s := by
  obtain ⟨V, S, cur, hinv⟩ : ∃ V S cur, MemberInv s V S cur := by
    have hstart : ∃ V S cur, MemberInv (memberSystem n).start V S cur :=
      ⟨0, 0, .free, memberInv_start n⟩
    refine hs.invariant (I := fun s => ∃ V S cur, MemberInv s V S cur) hstart ?_
    rintro s s' a ⟨V, S, cur, hinv⟩ hsafe hnext
    exact memberInv_next hn hinv hsafe hnext
  have hS : S < 2 ^ 30 := hinv.size_le.trans_lt hn
  have houtside : ∀ i, cur.phaseOf i = .outside := by
    intro i
    rw [← hinv.phases i, (hq i).1]
    rfl
  obtain rfl : cur = .free := by
    cases cur with
    | free => rfl
    | pre i join | post i join | aborted i =>
      have h := houtside i
      rw [Current.phaseOf, if_pos rfl] at h
      cases h
  have hcnt : ∀ i, (s.rank i).counted = (s.rank i).joined := by
    intro i
    rw [Member.counted, (hq i).1]
    rfl
  have hsize := hinv.size
  simp only [hcnt] at hsize
  rw [Agreement, hinv.key.dynamicSize hinv.version_lt hS, split_packed hinv.version_lt hS]
  refine ⟨fun i hjoin => ?_, congrArg Nat.cast hsize⟩
  obtain ⟨hver, hrankSize⟩ := (hinv.members i hjoin (hq i).1).1
  rw [hver, hrankSize]

/-- Rank 0 processes the event of rank 1 before its addition. -/
theorem agreement_after_prompt_listener :
    ∃ s, (memberSystem 2).ReachableBy SafeStep s ∧ Quiescent s ∧ (s.rank 0).rankSize = 2 ∧
      Agreement s := by
  refine TransitionSystem.exists_reachableBy [.join 0, .cas 0 true, .read 0 true, .update 0, .remove
    0, .watch 0, .join 1, .cas 1 true, .deliver 0, .take 0, .enter 0, .process 0, .read 1 true,
    .update 1, .remove 1] (fun s => (decide (Quiescent s), (s.rank 0).rankSize)) (true, 2) ?_
    fun s hreach hval => ?_
  · decide +kernel
  rw [Prod.mk.injEq, decide_eq_true_iff] at hval
  exact ⟨hval.1, hval.2, agreement_of_safeSteps (by decide) hreach hval.1⟩

end GroupEngine
