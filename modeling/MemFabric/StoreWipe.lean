/-
When the store is wiped.

A server without a broken handler clears its backend and all waiters when a link breaks and
`aliveRankSet_` is empty afterwards: the last client has left.  But the set only has the ranks
that the server has recorded.
-/
import MemFabric.StoreRanking

namespace ConfigStore

open Function Option Finset

variable {H : Type}

/-! ### Wiping the store -/

/-- The backend and all waiters are cleared. -/
structure Wiped (s s' : Server H) : Prop where
  backend : s'.backend = Backend.clear
  waiters : s'.waiters = Waiters.clear s.waiters.idGen
  rankStateWaiters : s'.rankStateWaiters = []

/-- A broken link takes more with it than the record of its rank and its own watch: an entry, a
waiter, or the watch of another link. -/
def Loses (s s' : Server H) (linkId : ℕ) : Prop :=
  (∃ key ≠ rankingKey autoRankingStr linkId, (s.backend key).isSome ∧ s'.backend key = none) ∨
    s'.waiters ≠ s.waiters ∨
    ∃ p ∈ s.rankStateWaiters, p.1 ≠ linkId ∧ p ∉ s'.rankStateWaiters

def Tracked (s : Server H) : Event → Prop
  | .connect _ rankReq =>
      rankReq % 2 ^ 32 = uint32Max ∨ rankReq % 2 ^ 32 ∉ s.aliveRankSet
  | .broken linkId => ∀ l ∈ s.established, l ≠ linkId → (rankOf s.backend l).isSome
  | .request _ body _ => ∀ m ∈ decoded body, IsAutoRankingGet m ∨
      ∀ key ∈ m.keys, autoRankingStr.isPrefixOf key = false
  | .timer _ _ | .rankState | .checker _ => True

instance (m : SmemMessage) : Decidable (IsAutoRankingGet m) :=
  inferInstanceAs (Decidable (_ ∧ _ ∧ _))

instance (s : Server H) : (e : Event) → Decidable (Tracked s e)
  | .connect _ _ => inferInstanceAs (Decidable (_ ∨ _))
  | .broken _ => inferInstanceAs (Decidable (∀ _ ∈ s.established, _))
  | .request _ body _ => inferInstanceAs (Decidable (∀ _ ∈ decoded body, _))
  | .timer _ _ | .rankState | .checker _ => inferInstanceAs (Decidable True)

/-! ### The record in every run -/

/-- The invariant: the record covers the ranks of the links. -/
structure CoverInv (s : Server H) : Prop where
  cover : RankCover (rankOf s.backend) s.aliveRankSet
  world_le : s.worldSize ≤ uint32Max

namespace CoverInv

variable {reg : Registered H} {s : Server H}

section

variable (hi : CoverInv s)
include hi

theorem of_sameRecords {keys : List Key} {s' : Server H}
    (h : s.SameRecords keys s') (hrank : ∀ key ∈ keys, autoRankingStr.isPrefixOf key = false) :
    CoverInv s' := by
  have hsame : rankOf s'.backend = rankOf s.backend := by
    funext l
    rw [rankOf, rankOf, h.backend]
    intro hl
    have hpre := hrank _ hl
    cases hpre
  refine ⟨?_, ?_⟩
  · rw [hsame, h.alive]
    exact hi.cover
  · rw [h.world]
    exact hi.world_le

theorem connect {linkId rankReq : ℕ}
    (hfree : rankReq % 2 ^ 32 = uint32Max ∨ rankReq % 2 ^ 32 ∉ s.aliveRankSet) :
    CoverInv (linkConnectedHandler { s with established := insert linkId s.established }
      linkId rankReq) := by
  have hws := fixedWorldSize_le hi.world_le rankReq
  have hlt : rankReq % 2 ^ 32 < 2 ^ 32 := Nat.mod_lt _ (by decide)
  simp only [linkConnectedHandler]
  split
  · exact ⟨hi.cover, hws⟩
  have hcover := hi.cover.assign (l := linkId) (hfree.resolve_left (by omega))
  rw [← rankOf_update_some _ _ hlt] at hcover
  exact ⟨hcover, hws⟩

theorem broken (hreg : reg.broken = none) {linkId : ℕ} {s' : Server H}
    (h : linkBrokenHandler reg { s with established := s.established.erase linkId } linkId =
      some s') : CoverInv s' := by
  obtain ⟨rankId, rfl⟩ := linkBrokenHandler_cleanup h
  have hcover : RankCover (rankOf (update s.backend (rankingKey autoRankingStr linkId) none))
      (aliveAfter s linkId) := by
    rw [rankOf_update_none, aliveAfter]
    cases hrank : rankOf s.backend linkId with
    | none =>
      rw [update_eq_self_iff.mpr hrank.symm]
      exact hi.cover
    | some r => exact hi.cover.release hrank
  constructor
  · rw [linkBrokenCleanup_backend hreg, linkBrokenCleanup_frame.2.1]
    split
    · exact RankCover.empty _
    · exact hcover
  · rw [linkBrokenCleanup_frame.2.2]
    exact hi.world_le

theorem request {ctx : ReqCtx} {m : SmemMessage} {now : ℤ} {a : Answer H}
    (hm : IsAutoRankingGet m) (h : requestHandler reg s ctx m now = some a) :
    CoverInv a.server := by
  rcases autoRankingGet_cases hi.world_le hm h with heq | ⟨rank, -, hfree, -, heq, hrank⟩
  · rw [heq]
    exact hi
  rw [heq]
  refine ⟨?_, hi.world_le⟩
  rw [hrank]
  exact hi.cover.assign hfree

theorem handle (hreg : reg.broken = none) {e : Event} {a : Answer H}
    (htracked : Tracked s e) (h : s.handle reg e = some a) : CoverInv a.server := by
  cases handle_cases h with
  | connect linkId rankReq hnew => exact hi.connect htracked
  | broken linkId s' hs' => exact hi.broken hreg hs'
  | undecoded => exact hi
  | request ctx body now m _ hm hreq =>
    rcases htracked m hm with hget | hrank
    · exact hi.request hget hreq
    · exact hi.of_sameRecords ((requestHandler_exit hreq).records hrank) hrank
  | timer now order => exact ⟨hi.cover, hi.world_le⟩
  | rankState =>
    rw [rankStateTask_server]
    exact ⟨hi.cover, hi.world_le⟩
  | checker now =>
    obtain ⟨b, h', beats, heq, hb⟩ := checkerTask_frame reg s now
    rw [heq, hb hreg]
    exact ⟨hi.cover, hi.world_le⟩

theorem aliveAfter_ne {linkId l r : ℕ} (hne : l ≠ linkId) (hl : rankOf s.backend l = some r) :
    aliveAfter s linkId ≠ ∅ := by
  have hmem : r ∈ aliveAfter s linkId := by
    rw [aliveAfter]
    cases hrank : rankOf s.backend linkId with
    | none => exact hi.cover.alive hl
    | some r' =>
      refine mem_erase.mpr ⟨?_, hi.cover.alive hl⟩
      rintro rfl
      exact hne (hi.cover.injective hl hrank)
  exact ne_empty_of_mem hmem

end

end CoverInv

section

variable {reg : Registered H} (hreg : reg.broken = none) {s s' : Server H} {linkId : ℕ}
include hreg

theorem linkBrokenCleanup_watches {rankId : ℕ} :
    (linkBrokenCleanup reg s linkId rankId).rankStateWaiters =
      if s.aliveRankSet = ∅ then [] else s.rankStateWaiters.filter fun p => p.1 ≠ linkId := by
  rw [linkBrokenCleanup]
  simp only [hreg]
  split <;> split <;> rfl

/-- The store is wiped if no rank is left in the record. -/
theorem wiped_of_empty {worldSize : ℕ} {h : H} (hempty : aliveAfter s linkId = ∅)
    (hnext : (storeSystem reg worldSize h).next s (.broken linkId) = some s') : Wiped s s' := by
  obtain ⟨a, ha, rfl⟩ := map_eq_some_iff.mp hnext
  cases handle_cases ha with
  | broken _ s' hs' =>
  obtain ⟨rankId, rfl⟩ := linkBrokenHandler_cleanup hs'
  have hempty : aliveAfter { s with established := s.established.erase linkId } linkId = ∅ := hempty
  refine ⟨?_, ?_, ?_⟩
  · rw [linkBrokenCleanup_backend hreg, if_pos hempty]
  · rw [linkBrokenCleanup_waiters, if_pos ⟨hreg, hempty⟩]
  · rw [linkBrokenCleanup_watches hreg, if_pos hempty]

/-- While a rank is left, a broken link takes nothing with it but its own. -/
theorem kept_of_ne_empty (hne : aliveAfter s linkId ≠ ∅)
    (h : linkBrokenHandler reg { s with established := s.established.erase linkId } linkId =
      some s') :
    s'.backend = update s.backend (rankingKey autoRankingStr linkId) none ∧
      ¬ Loses s s' linkId := by
  obtain ⟨rankId, heq⟩ := linkBrokenHandler_cleanup h
  have hne : aliveAfter { s with established := s.established.erase linkId } linkId ≠ ∅ := hne
  have hbackend : s'.backend = update s.backend (rankingKey autoRankingStr linkId) none := by
    rw [heq, linkBrokenCleanup_backend hreg, if_neg hne]
  refine ⟨hbackend, ?_⟩
  rintro (⟨key, hkey, hsome, hnone⟩ | hwaiters | ⟨p, hp, hother, hgone⟩)
  · rw [hbackend, update_of_ne hkey] at hnone
    rw [hnone] at hsome
    cases hsome
  · rw [heq, linkBrokenCleanup_waiters, if_neg fun hc => hne hc.2] at hwaiters
    exact hwaiters rfl
  · rw [heq, linkBrokenCleanup_watches hreg, if_neg hne] at hgone
    exact hgone (List.mem_filter.mpr ⟨hp, decide_eq_true hother⟩)

end

/-- In every run whose steps are tracked, a link whose break clears the store, or takes anything of
another link with it, is the only one that is connected. -/
theorem wiped_only_unused (reg : Registered H) (hreg : reg.broken = none) {worldSize : ℕ}
    (hws : worldSize ≤ uint32Max) (h : H) {s s' : Server H}
    (hs : (storeSystem reg worldSize h).ReachableBy Tracked s) {linkId : ℕ}
    (htracked : Tracked s (.broken linkId))
    (hnext : (storeSystem reg worldSize h).next s (.broken linkId) = some s')
    (hwiped : Wiped s s' ∨ Loses s s' linkId) : s.established.erase linkId = ∅ := by
  have hi : CoverInv s := by
    refine TransitionSystem.ReachableBy.invariant (I := CoverInv) ?_ ?_ hs
    · exact ⟨RankCover.empty _, hws⟩
    intro s s' e hi hok hn
    obtain ⟨a, ha, rfl⟩ := map_eq_some_iff.mp hn
    exact hi.handle hreg hok ha
  obtain ⟨a, ha, rfl⟩ := map_eq_some_iff.mp hnext
  cases handle_cases ha with
  | broken _ s' hs' =>
    rw [eq_empty_iff_forall_notMem]
    intro l hl
    obtain ⟨hne, hl⟩ := mem_erase.mp hl
    obtain ⟨r, hr⟩ := isSome_iff_exists.mp (htracked l hl hne)
    obtain ⟨hbackend, hkept⟩ := kept_of_ne_empty hreg (hi.aliveAfter_ne hne hr) hs'
    rcases hwiped with hwiped | hlost
    · -- the rank of the other link is still there
      have hstill : s'.backend (rankingKey autoRankingStr l) =
          s.backend (rankingKey autoRankingStr l) := by
        rw [hbackend, update_of_ne ((rankingKey_injective _).ne hne)]
      rw [rankOf, ← hstill, hwiped.backend] at hr
      cases hr
    · exact hkept hlost

/-- Two clients with ranks; one leaves, and then the store is wiped with the other. -/
theorem wiped_only_unused_two_clients : ∃ s s' : Server Unit,
    (storeSystem (noHandlers Unit) 2 ()).Reachable s ∧
      (storeSystem (noHandlers Unit) 2 ()).next s (.broken 1) = some s' ∧ Wiped s s' ∧
      s.established.erase 1 = ∅ := by
  have hrun : (((storeSystem (noHandlers Unit) 2 ()).restrict Tracked).run (Server.init 2 ())
      [.connect 1 (2 * 2 ^ 32), .connect 2 (2 * 2 ^ 32 + 1), requestOf 0 2 (.set [107] [7]) 0,
        .broken 2]).map (fun s => (decide (Tracked s (.broken 1) ∧ aliveAfter s 1 = ∅),
          ((storeSystem (noHandlers Unit) 2 ()).next s (.broken 1)).isSome)) =
      some (true, true) := by
    decide +kernel
  obtain ⟨s, hreach, hval⟩ := TransitionSystem.exists_of_run_restrict hrun
  obtain ⟨hval, hnext⟩ := Prod.mk.inj hval
  obtain ⟨htracked, hempty⟩ := of_decide_eq_true hval
  obtain ⟨s', hnext⟩ := isSome_iff_exists.mp hnext
  have hwiped : Wiped s s' := wiped_of_empty rfl hempty hnext
  exact ⟨s, s', hreach.reachable, hnext, hwiped, wiped_only_unused (noHandlers Unit) rfl (by decide)
    () hreach htracked hnext (.inl hwiped)⟩

/-- A client connects without a rank and stores a value.  When the other client leaves, the
store is wiped. -/
theorem unranked_client_wiped : ∃ s s' : Server Unit,
    (storeSystem (noHandlers Unit) 2 ()).Reachable s ∧ 2 ∈ s.established.erase 1 ∧
      s.backend [107] = some [7] ∧
      (storeSystem (noHandlers Unit) 2 ()).next s (.broken 1) = some s' ∧ Wiped s s' ∧
      s'.backend [107] = none := by
  have hrun : ((storeSystem (noHandlers Unit) 2 ()).run (Server.init 2 ())
      [.connect 1 (2 * 2 ^ 32), .connect 2 (2 * 2 ^ 32 + uint32Max),
        requestOf 0 2 (.set [107] [7]) 0]).map (fun s =>
          (decide (2 ∈ s.established.erase 1 ∧ s.backend [107] = some [7] ∧ aliveAfter s 1 = ∅),
            ((storeSystem (noHandlers Unit) 2 ()).next s (.broken 1)).isSome)) =
      some (true, true) := by
    decide +kernel
  obtain ⟨s, hs, hval⟩ := TransitionSystem.exists_of_run hrun
  obtain ⟨hstored, hnext⟩ := Prod.mk.inj hval
  obtain ⟨hconn, hvalue, hempty⟩ := of_decide_eq_true hstored
  obtain ⟨s', hnext⟩ := isSome_iff_exists.mp hnext
  have hwiped : Wiped s s' := wiped_of_empty rfl hempty hnext
  exact ⟨s, s', hs, hconn, hvalue, hnext, hwiped, by rw [hwiped.backend]; rfl⟩

end ConfigStore
