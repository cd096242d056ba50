/-
Rank assignment.

The server records the rank of each link under a ranking key and keeps the set of ranks in use.
A rank is recorded when a link connects and asks for it, or when a GET of the ranking key has
one assigned, and is given up when the link breaks.  `RanksConsistent` asks that no rank is
given twice, all are inside the world, and the set in use is exactly the ranks of the live
links.  The handlers are instances of the operations of an abstract `RankTable`.
-/
import MemFabric.StoreSystem

namespace ConfigStore

open Function Option Finset

variable {H : Type}

/-! ### A table of ranks -/

theorem update_some_cases {rank : ℕ → Option ℕ} {l r l' r' : ℕ}
    (h : update rank l (some r) l' = some r') :
    (l' = l ∧ r' = r) ∨ (l' ≠ l ∧ rank l' = some r') := by
  by_cases hne : l' = l
  · rw [hne, update_self, some_inj] at h
    exact .inl ⟨hne, h.symm⟩
  · rw [update_of_ne hne] at h
    exact .inr ⟨hne, h⟩

theorem update_none_cases {rank : ℕ → Option ℕ} {l l' r' : ℕ}
    (h : update rank l none l' = some r') : l' ≠ l ∧ rank l' = some r' := by
  by_cases hne : l' = l
  · rw [hne, update_self] at h
    cases h
  · rw [update_of_ne hne] at h
    exact ⟨hne, h⟩

/-- Every recorded rank is in use, and no two links have the same. -/
structure RankCover (rank : ℕ → Option ℕ) (alive : Finset ℕ) : Prop where
  injective : ∀ {l l' r}, rank l = some r → rank l' = some r → l = l'
  alive : ∀ {l r}, rank l = some r → r ∈ alive

namespace RankCover

variable {rank : ℕ → Option ℕ} {alive : Finset ℕ}

theorem empty (alive : Finset ℕ) : RankCover (fun _ => none) alive where
  injective h := nomatch h
  alive h := nomatch h

theorem assign (h : RankCover rank alive) {l r : ℕ} (hfree : r ∉ alive) :
    RankCover (update rank l (some r)) (insert r alive) := by
  constructor
  · intro l' l'' r' h' h''
    rcases update_some_cases h' with ⟨rfl, rfl⟩ | ⟨-, hold'⟩
    · rcases update_some_cases h'' with ⟨rfl, -⟩ | ⟨-, hold''⟩
      · rfl
      · exact absurd (h.alive hold'') hfree
    · rcases update_some_cases h'' with ⟨-, rfl⟩ | ⟨-, hold''⟩
      · exact absurd (h.alive hold') hfree
      · exact h.injective hold' hold''
  intro l' r' h'
  rcases update_some_cases h' with ⟨-, rfl⟩ | ⟨-, hold⟩
  · exact mem_insert_self _ _
  · exact mem_insert_of_mem (h.alive hold)

theorem release (h : RankCover rank alive) {l r : ℕ} (hl : rank l = some r) :
    RankCover (update rank l none) (alive.erase r) := by
  constructor
  · intro l' l'' r' h' h''
    exact h.injective (update_none_cases h').2 (update_none_cases h'').2
  intro l' r' h'
  obtain ⟨hne, hold⟩ := update_none_cases h'
  refine mem_erase.mpr ⟨?_, h.alive hold⟩
  rintro rfl
  exact hne (h.injective hold hl)

end RankCover

/-- A partial assignment of ranks to the links in `live`, below `worldSize`, with
the set `alive` of ranks in use. -/
structure RankTable (rank : ℕ → Option ℕ) (live alive : Finset ℕ) (worldSize : ℕ) : Prop where
  live : ∀ {l r}, rank l = some r → l ∈ live
  injective : ∀ {l l' r}, rank l = some r → rank l' = some r → l = l'
  bounded : ∀ {l r}, rank l = some r → r < worldSize
  alive_iff : ∀ {r}, r ∈ alive ↔ ∃ l, rank l = some r

namespace RankTable

variable {rank : ℕ → Option ℕ} {live alive : Finset ℕ} {worldSize : ℕ}

theorem empty (live : Finset ℕ) (worldSize : ℕ) :
    RankTable (fun _ => none) live ∅ worldSize where
  live h := nomatch h
  injective h := nomatch h
  bounded h := nomatch h
  alive_iff := by simp

section

variable (h : RankTable rank live alive worldSize)
include h

theorem mono {live' : Finset ℕ} {worldSize' : ℕ}
    (hlive : live ⊆ live') (hworld : ∀ r ∈ alive, r < worldSize') :
    RankTable rank live' alive worldSize' where
  live hr := hlive (h.live hr)
  injective := h.injective
  bounded hr := hworld _ (h.alive_iff.mpr ⟨_, hr⟩)
  alive_iff := h.alive_iff

theorem cover : RankCover rank alive := ⟨h.injective, fun hr => h.alive_iff.mpr ⟨_, hr⟩⟩

theorem assign {l r : ℕ} (hl : l ∈ live)
    (hnone : rank l = none) (hr : r < worldSize) (hfree : r ∉ alive) :
    RankTable (update rank l (some r)) live (insert r alive) worldSize := by
  refine ⟨fun h' => ?_, (h.cover.assign hfree).injective, fun h' => ?_, fun {r'} => ?_⟩
  · rcases update_some_cases h' with ⟨rfl, -⟩ | ⟨-, h'⟩
    · exact hl
    · exact h.live h'
  · rcases update_some_cases h' with ⟨-, rfl⟩ | ⟨-, h'⟩
    · exact hr
    · exact h.bounded h'
  rw [mem_insert, h.alive_iff]
  constructor
  · rintro (rfl | ⟨l', h'⟩)
    · exact ⟨l, update_self ..⟩
    have hne : l' ≠ l := by
      rintro rfl
      rw [hnone] at h'
      cases h'
    exact ⟨l', by rw [update_of_ne hne, h']⟩
  rintro ⟨l', h'⟩
  rcases update_some_cases h' with ⟨-, rfl⟩ | ⟨-, h'⟩
  · exact .inl rfl
  · exact .inr ⟨l', h'⟩

theorem release {l r : ℕ} (hl : rank l = some r) :
    RankTable (update rank l none) (live.erase l) (alive.erase r) worldSize := by
  refine ⟨fun h' => ?_, (h.cover.release hl).injective,
    fun h' => h.bounded (update_none_cases h').2, fun {r'} => ?_⟩
  · exact mem_erase.mpr ⟨(update_none_cases h').1, h.live (update_none_cases h').2⟩
  rw [mem_erase, h.alive_iff]
  constructor
  · rintro ⟨hne, l', h'⟩
    have hne' : l' ≠ l := by
      rintro rfl
      rw [hl, some_inj] at h'
      exact hne h'.symm
    exact ⟨l', by rw [update_of_ne hne', h']⟩
  rintro ⟨l', h'⟩
  refine ⟨?_, l', (update_none_cases h').2⟩
  rintro rfl
  exact (update_none_cases h').1 (h.injective (update_none_cases h').2 hl)

theorem leave {l : ℕ} (hl : rank l = none) :
    RankTable rank (live.erase l) alive worldSize where
  live hr := by
    refine mem_erase.mpr ⟨?_, h.live hr⟩
    rintro rfl
    rw [hl] at hr
    cases hr
  injective := h.injective
  bounded := h.bounded
  alive_iff := h.alive_iff

end

end RankTable

/-! ### The ranks of the server -/

/-- The rank recorded for a link, as `LinkBrokenHandler` reads it. -/
def rankOf (b : Backend) (linkId : ℕ) : Option ℕ :=
  (b (rankingKey autoRankingStr linkId)).map Bytes.leValue

/-- No two live links with one rank, every rank inside the world, and the set in
use exactly the ranks of live links. -/
def RanksConsistent (s : Server H) : Prop :=
  (∀ l ∈ s.established, ∀ l' ∈ s.established, ∀ r, rankOf s.backend l = some r →
      rankOf s.backend l' = some r → l = l') ∧
    (∀ l ∈ s.established, ∀ r, rankOf s.backend l = some r → r < s.worldSize) ∧
    ∀ r, r ∈ s.aliveRankSet ↔ ∃ l ∈ s.established, rankOf s.backend l = some r

def IsAutoRankingGet (m : SmemMessage) : Prop :=
  m.mt = .get ∧ m.keys = [autoRankingStr] ∧ m.values = []

def fixedWorldSize (s : Server H) (rankReq : ℕ) : ℕ :=
  if s.worldSize = uint32Max then rankReq / 2 ^ 32 % 2 ^ 32 else s.worldSize

/-- Steps that keep ranks apart: requests are GETs of the ranking key over a live link, a link asks
only for a free rank inside the world, and a world size fixed late holds all ranks given out. -/
def RankSafe (reg : Registered H) (s : Server H) : Event → Prop
  | .connect _ rankReq =>
      (∀ r ∈ s.aliveRankSet, r < fixedWorldSize s rankReq) ∧ (rankReq % 2 ^ 32 = uint32Max ∨
          (rankReq % 2 ^ 32 < fixedWorldSize s rankReq ∧ rankReq % 2 ^ 32 ∉ s.aliveRankSet))
  | .request ctx body _ =>
      ctx.linkId ∈ s.established ∧ ∃ m, decoded body = some m ∧ IsAutoRankingGet m
  | .broken _ | .checker _ => reg.broken = none
  | .timer _ _ | .rankState => True

theorem rankingKey_injective (key : Key) : Function.Injective (rankingKey key) := by
  intro l l' h
  rw [rankingKey, rankingKey, List.append_cancel_left_eq] at h
  exact Decimal.ofNat_injective h

theorem rankOf_update_some (b : Backend) (linkId : ℕ) {r : ℕ} (hr : r < 2 ^ 32) :
    rankOf (update b (rankingKey autoRankingStr linkId) (some (Bytes.le 4 r))) =
      update (rankOf b) linkId (some r) := by
  funext l
  by_cases hne : l = linkId
  · rw [hne, update_self, rankOf, update_self, map_some, Bytes.leValue_le_of_lt hr]
  · rw [update_of_ne hne, rankOf, rankOf, update_of_ne ((rankingKey_injective _).ne hne)]

theorem rankOf_update_none (b : Backend) (linkId : ℕ) :
    rankOf (update b (rankingKey autoRankingStr linkId) none) = update (rankOf b) linkId none := by
  funext l
  by_cases hne : l = linkId
  · rw [hne, update_self, rankOf, update_self, map_none]
  · rw [update_of_ne hne, rankOf, rankOf, update_of_ne ((rankingKey_injective _).ne hne)]

/-- `aliveRankSet_` when `LinkBrokenHandler` asks whether it is empty. -/
def aliveAfter (s : Server H) (linkId : ℕ) : Finset ℕ :=
  match rankOf s.backend linkId with
  | none => s.aliveRankSet
  | some rankId => s.aliveRankSet.erase rankId

theorem linkBrokenHandler_cleanup {reg : Registered H} {s s' : Server H} {linkId : ℕ}
    (h : linkBrokenHandler reg s linkId = some s') :
    ∃ rankId, s' = linkBrokenCleanup reg { s with
      aliveRankSet := aliveAfter s linkId
      backend := update s.backend (rankingKey autoRankingStr linkId) none } linkId rankId := by
  rw [linkBrokenHandler] at h
  split at h
  · rename_i hnone
    have hrank : aliveAfter s linkId = s.aliveRankSet := by
      rw [aliveAfter, rankOf, hnone, map_none]
    have hupdate : update s.backend (rankingKey autoRankingStr linkId) none = s.backend := by
      rw [← hnone, update_eq_self]
    rw [hrank, hupdate]
    exact ⟨uint32Max, (some_inj.mp h).symm⟩
  rename_i value hvalue
  split at h
  · cases h
  have hrank : aliveAfter s linkId = s.aliveRankSet.erase (Bytes.leValue value) := by
    rw [aliveAfter, rankOf, hvalue, map_some]
  rw [hrank]
  exact ⟨Bytes.leValue value, (some_inj.mp h).symm⟩

/-- The state in which `rank` has been recorded for a link. -/
def Server.recordRank (s : Server H) (key : Key) (linkId rank : ℕ) : Server H :=
  { s with
    rankIndex := rank
    aliveRankSet := insert rank s.aliveRankSet
    backend := update s.backend (rankingKey key linkId) (some (Bytes.le 4 rank)) }

section

variable {reg : Registered H} {s : Server H}

theorem fixedWorldSize_le (h : s.worldSize ≤ uint32Max) (rankReq : ℕ) :
    fixedWorldSize s rankReq ≤ uint32Max := by
  rw [fixedWorldSize]
  split
  · have : rankReq / 2 ^ 32 % 2 ^ 32 < 2 ^ 32 := Nat.mod_lt _ (by decide)
    rw [uint32Max]
    omega
  · exact h

theorem autoRankingGet_cases {ctx : ReqCtx} {m : SmemMessage} {now : ℤ} {a : Answer H}
    (hworld : s.worldSize ≤ uint32Max) (hm : IsAutoRankingGet m)
    (h : requestHandler reg s ctx m now = some a) :
    a.server = s ∨ ∃ rank, rank < s.worldSize ∧ rank ∉ s.aliveRankSet ∧
      rankOf s.backend ctx.linkId = none ∧
      a.server = s.recordRank autoRankingStr ctx.linkId rank ∧
      rankOf (s.recordRank autoRankingStr ctx.linkId rank).backend =
        update (rankOf s.backend) ctx.linkId (some rank) := by
  obtain ⟨hmt, hkeys, hvalues⟩ := hm
  have hlen : ¬ autoRankingStr.length > maxKeyLenServer := by decide
  have hpre : autoRankingStr.isPrefixOf autoRankingStr = true := by decide
  simp only [requestHandler, hmt, getHandler, hkeys, hvalues, if_neg hlen, if_pos hpre,
    findOrInsertRank] at h
  split at h
  · exact .inl (some_inj.mp h ▸ rfl)
  rename_i hnone
  split at h
  · exact .inl (some_inj.mp h ▸ rfl)
  obtain ⟨rank, hrank, rfl⟩ := map_eq_some_iff.mp h
  obtain ⟨hbound, hfree⟩ := findRank_spec (by omega) hrank
  have hlt : rank < 2 ^ 32 := by
    rw [uint32Max] at hworld
    omega
  exact .inr ⟨rank, hbound, hfree, by rw [rankOf, hnone, map_none], rfl, rankOf_update_some _ _ hlt⟩

end

/-- The invariant: the ranks of the server are a `RankTable`. -/
structure RankInv (s : Server H) : Prop where
  table : RankTable (rankOf s.backend) s.established s.aliveRankSet s.worldSize
  world_le : s.worldSize ≤ uint32Max

namespace RankInv

variable {reg : Registered H} {s : Server H}

theorem consistent (hi : RankInv s) : RanksConsistent s := by
  refine ⟨fun l _ l' _ r h h' => hi.table.injective h h', fun l _ r h => hi.table.bounded h,
    fun r => ?_⟩
  rw [hi.table.alive_iff]
  constructor
  · rintro ⟨l, h⟩
    exact ⟨l, hi.table.live h, h⟩
  · rintro ⟨l, -, h⟩
    exact ⟨l, h⟩

theorem connect (hi : RankInv s) {linkId rankReq : ℕ} (hnew : linkId ∉ s.established)
    (hsafe : RankSafe reg s (.connect linkId rankReq)) :
    RankInv (linkConnectedHandler { s with established := insert linkId s.established }
      linkId rankReq) := by
  obtain ⟨hworld, hrank⟩ := hsafe
  have hws := fixedWorldSize_le hi.world_le rankReq
  have hjoined := hi.table.mono (subset_insert linkId s.established) hworld
  have hnone : rankOf s.backend linkId = none := by
    rw [eq_none_iff_forall_ne_some]
    exact fun r hr => hnew (hi.table.live hr)
  have hlt : rankReq % 2 ^ 32 < 2 ^ 32 := Nat.mod_lt _ (by decide)
  simp only [linkConnectedHandler]
  split
  · exact ⟨hjoined, hws⟩
  rename_i hrequest
  have hne : rankReq % 2 ^ 32 ≠ uint32Max := by omega
  obtain ⟨hbound, hfree⟩ := hrank.resolve_left hne
  refine ⟨?_, hws⟩
  have htable := hjoined.assign (mem_insert_self _ _) hnone hbound hfree
  rw [← rankOf_update_some _ _ hlt] at htable
  exact htable

theorem broken (hi : RankInv s) (hreg : reg.broken = none) {linkId : ℕ} {s' : Server H}
    (h : linkBrokenHandler reg { s with established := s.established.erase linkId } linkId =
      some s') : RankInv s' := by
  obtain ⟨rankId, rfl⟩ := linkBrokenHandler_cleanup h
  have htable : RankTable (rankOf (update s.backend (rankingKey autoRankingStr linkId) none))
      (s.established.erase linkId) (aliveAfter s linkId) s.worldSize := by
    rw [rankOf_update_none, aliveAfter]
    cases hrank : rankOf s.backend linkId with
    | none =>
      rw [update_eq_self_iff.mpr hrank.symm]
      exact hi.table.leave hrank
    | some r => exact hi.table.release hrank
  -- the cleanup keeps the table or empties it
  constructor
  · rw [linkBrokenCleanup_backend hreg, linkBrokenCleanup_frame.1,
      linkBrokenCleanup_frame.2.1, linkBrokenCleanup_frame.2.2]
    split
    · rename_i hempty
      rw [hempty]
      exact RankTable.empty _ _
    · exact htable
  · rw [linkBrokenCleanup_frame.2.2]
    exact hi.world_le

theorem request (hi : RankInv s) {ctx : ReqCtx} {m : SmemMessage} {now : ℤ} {a : Answer H}
    (hlink : ctx.linkId ∈ s.established) (hm : IsAutoRankingGet m)
    (h : requestHandler reg s ctx m now = some a) : RankInv a.server := by
  rcases autoRankingGet_cases hi.world_le hm h with
    heq | ⟨rank, hbound, hfree, hnone, heq, hrank⟩
  · rw [heq]
    exact hi
  rw [heq]
  refine ⟨?_, hi.world_le⟩
  rw [hrank]
  exact hi.table.assign hlink hnone hbound hfree

theorem handle (hi : RankInv s) {e : Event} {a : Answer H} (hsafe : RankSafe reg s e)
    (h : s.handle reg e = some a) : RankInv a.server := by
  cases handle_cases h with
  | connect linkId rankReq hnew => exact hi.connect hnew hsafe
  | broken linkId s' hs' => exact hi.broken hsafe hs'
  | undecoded => exact hi
  | request ctx body now m' _ hm' hreq =>
    obtain ⟨hlink, m, hm, hget⟩ := hsafe
    rw [hm, some_inj] at hm'
    exact hi.request hlink hget (hm' ▸ hreq)
  | timer now order => exact ⟨hi.table, hi.world_le⟩
  | rankState =>
    rw [rankStateTask_server]
    exact ⟨hi.table, hi.world_le⟩
  | checker now =>
    obtain ⟨b, h', beats, heq, hb⟩ := checkerTask_frame reg s now
    rw [heq, hb hsafe]
    exact ⟨hi.table, hi.world_le⟩

end RankInv

/-- The ranks are consistent in every run in which a link only asks for a rank that is free and
inside the world. -/
theorem ranksConsistent_of_rankSafe (reg : Registered H) {worldSize : ℕ}
    (hws : worldSize ≤ uint32Max) (h : H) {s : Server H}
    (hs : (storeSystem reg worldSize h).ReachableBy (RankSafe reg) s) : RanksConsistent s := by
  refine (TransitionSystem.ReachableBy.invariant (I := RankInv) ?_ ?_ hs).consistent
  · exact ⟨RankTable.empty _ _, hws⟩
  intro s s' e hi hsafe hn
  obtain ⟨a, ha, rfl⟩ := map_eq_some_iff.mp hn
  exact hi.handle hsafe ha

/-- Two links that ask for ranks 1 and 0 of a world of two. -/
theorem ranksConsistent_after_two_connects :
    ∃ s, (storeSystem (noHandlers Unit) 2 ()).run (Server.init 2 ())
        [.connect 1 (2 * 2 ^ 32 + 1), .connect 2 (2 * 2 ^ 32)] = some s ∧
      s.aliveRankSet = {0, 1} ∧ RanksConsistent s := by
  have hnext : ((storeSystem (noHandlers Unit) 2 ()).next (Server.init 2 ())
      (.connect 1 (2 * 2 ^ 32 + 1))).map (fun s => (s.worldSize, s.aliveRankSet)) =
      some (2, {1}) := by
    decide +kernel
  have hrun : ((storeSystem (noHandlers Unit) 2 ()).run (Server.init 2 ())
      [.connect 1 (2 * 2 ^ 32 + 1), .connect 2 (2 * 2 ^ 32)]).map Server.aliveRankSet =
      some {0, 1} := by
    decide +kernel
  obtain ⟨s₁, hs₁, hval⟩ := map_eq_some_iff.mp hnext
  obtain ⟨s, hs, halive⟩ := map_eq_some_iff.mp hrun
  rw [Prod.mk.injEq] at hval
  have hs₂ : (storeSystem (noHandlers Unit) 2 ()).next s₁ (.connect 2 (2 * 2 ^ 32)) = some s := by
    have hs' := hs
    rw [TransitionSystem.run_cons hs₁, TransitionSystem.run] at hs'
    simpa using hs'
  have hfirst : RankSafe (noHandlers Unit) (Server.init 2 ()) (.connect 1 (2 * 2 ^ 32 + 1)) :=
    ⟨fun r hr => absurd hr (notMem_empty r), .inr (by decide)⟩
  have hsecond : RankSafe (noHandlers Unit) s₁ (.connect 2 (2 * 2 ^ 32)) := by
    have hws : fixedWorldSize s₁ (2 * 2 ^ 32) = 2 := by
      rw [fixedWorldSize, hval.1]
      decide
    rw [RankSafe, hws, hval.2]
    decide
  exact ⟨s, hs, halive, ranksConsistent_of_rankSafe (noHandlers Unit) (by decide) ()
    ((TransitionSystem.ReachableBy.start.next hfirst hs₁).next hsecond hs₂)⟩

/-- A client reconnects with its rank before its old link is found broken. -/
theorem reconnect_shares_rank :
    ∃ s, (storeSystem (noHandlers Unit) 2 ()).run (Server.init 2 ())
        [.connect 1 (2 * 2 ^ 32), .connect 2 (2 * 2 ^ 32)] = some s ∧
      ¬ RanksConsistent s := by
  refine TransitionSystem.exists_run (fun s => (decide (1 ∈ s.established), decide (2 ∈
    s.established), rankOf s.backend 1, rankOf s.backend 2)) (true, true, some 0, some 0) ?_
    fun s _ hval => ?_
  · decide +kernel
  simp only [Prod.mk.injEq, decide_eq_true_iff] at hval
  obtain ⟨h1, h2, hr1, hr2⟩ := hval
  exact fun hc => absurd (hc.1 1 h1 2 h2 0 hr1 hr2) (by decide)

/-! ### The search for a free rank -/

/-- A GET that `GetHandler` hands to `FindOrInsertRank`; any key that starts with
the ranking key will do. -/
structure IsRankingGet (m : SmemMessage) (key : Key) : Prop where
  mt : m.mt = .get
  keys : m.keys = [key]
  values : m.values = []
  ranking : autoRankingStr.isPrefixOf key = true
  length : key.length ≤ maxKeyLenServer

def rankReply (value : Bytes) : Bytes := pack { mt := .get, values := [value] }

section Search

variable {reg : Registered H} {s : Server H} {ctx : ReqCtx} {m : SmemMessage} {key : Key}

theorem IsRankingGet.requestHandler (hm : IsRankingGet m key) (now : ℤ) :
    requestHandler reg s ctx m now = findOrInsertRank s ctx .get key := by
  have hlen : ¬ key.length > maxKeyLenServer := Nat.not_lt.mpr hm.length
  simp only [ConfigStore.requestHandler, hm.mt, getHandler, hm.keys, hm.values, if_neg hlen,
    if_pos hm.ranking]

theorem IsRankingGet.handler_recorded (hm : IsRankingGet m key) {now : ℤ} {value : Bytes}
    (h : s.backend (rankingKey key ctx.linkId) = some value) :
    ConfigStore.requestHandler reg s ctx m now =
      some (answer s ctx smOk .success (rankReply value)) := by
  rw [hm.requestHandler]
  simp only [findOrInsertRank, h, rankReply]

theorem findOrInsertRank_unrecorded (h : s.backend (rankingKey key ctx.linkId) = none)
    (hcard : s.aliveRankSet.card < s.worldSize) {rank : ℕ}
    (hrank : findRank s.worldSize s.aliveRankSet s.worldSize s.rankIndex = some rank) :
    findOrInsertRank s ctx .get key =
      some (answer (s.recordRank key ctx.linkId rank) ctx smOk .success
        (rankReply (Bytes.le 4 rank))) := by
  have hroom : ¬ s.aliveRankSet.card ≥ s.worldSize := Nat.not_le.mpr hcard
  simp only [findOrInsertRank, h, if_neg hroom, hrank, map_some]
  rfl

/-- With fewer ranks in use than the world has, wherever the search starts, the loop leaves
within `worldSize` iterations with a rank of the world that was free.  A GET that finds no record
answers this rank and records it; as long as the record of the link stands, every GET of the key
over the link has the same answer and changes nothing. -/
theorem autoRanking_fresh (reg : Registered H) (s : Server H) (ctx : ReqCtx) (m : SmemMessage)
    (key : Key) (now : ℤ) (hm : IsRankingGet m key)
    (hcard : s.aliveRankSet.card < s.worldSize) :
    ∃ rank, rank < s.worldSize ∧ rank ∉ s.aliveRankSet ∧ (∀ fuel ≥ s.worldSize,
        findRank s.worldSize s.aliveRankSet fuel s.rankIndex = some rank) ∧
      ∃ s' value,
        requestHandler reg s ctx m now = some (answer s' ctx smOk .success (rankReply value)) ∧
        (s.backend (rankingKey key ctx.linkId) = none →
          s' = s.recordRank key ctx.linkId rank ∧ value = Bytes.le 4 rank) ∧
        s'.backend (rankingKey key ctx.linkId) = some value ∧
        ∀ (t : Server H) (later : ReqCtx) (m' : SmemMessage) (now' : ℤ),
          t.backend (rankingKey key ctx.linkId) = s'.backend (rankingKey key ctx.linkId) →
          later.linkId = ctx.linkId → IsRankingGet m' key →
          requestHandler reg t later m' now' =
            some (answer t later smOk .success (rankReply value)) := by
  obtain ⟨rank, hrank⟩ :=
    isSome_iff_exists.mp (findRank_isSome_of_card_lt s.rankIndex hcard)
  obtain ⟨hlt, hfree⟩ := findRank_spec (Nat.zero_lt_of_lt hcard) hrank
  refine ⟨rank, hlt, hfree, fun fuel hfuel => findRank_mono hfuel hrank, ?_⟩
  cases hrec : s.backend (rankingKey key ctx.linkId) with
  | some value =>
    refine ⟨s, value, hm.handler_recorded hrec, nofun, hrec, ?_⟩
    intro t later m' now' ht hlink hm'
    refine hm'.handler_recorded ?_
    rw [hlink, ht, hrec]
  | none =>
    have hrec' : (s.recordRank key ctx.linkId rank).backend (rankingKey key ctx.linkId) =
        some (Bytes.le 4 rank) := update_self ..
    refine ⟨s.recordRank key ctx.linkId rank, Bytes.le 4 rank, ?_, fun _ => ⟨rfl, rfl⟩, hrec', ?_⟩
    · rw [hm.requestHandler, findOrInsertRank_unrecorded hrec hcard hrank]
    intro t later m' now' ht hlink hm'
    refine hm'.handler_recorded ?_
    rw [hlink, ht, hrec']

end Search

/-- A server of a world of three whose ranks in use are 2 and, from outside the
world, 7, and whose search starts at 5: the link gets rank 0, and again. -/
theorem autoRanking_fresh_zero :
    let s : Server Unit := { Server.init 3 () with aliveRankSet := {2, 7}, rankIndex := 5 }
    let m : SmemMessage := { mt := .get, keys := [autoRankingStr] }
    (∀ fuel ≥ 3, findRank 3 s.aliveRankSet fuel 5 = some 0) ∧
      ∃ s' : Server Unit, s'.aliveRankSet = {0, 2, 7} ∧
        requestHandler (noHandlers Unit) s ⟨0, 1, 0⟩ m 0 =
          some (answer s' ⟨0, 1, 0⟩ smOk .success (rankReply [0, 0, 0, 0])) ∧
        requestHandler (noHandlers Unit) s' ⟨0, 1, 1⟩ m 0 =
          some (answer s' ⟨0, 1, 1⟩ smOk .success (rankReply [0, 0, 0, 0])) := by
  intro s m
  have hm : IsRankingGet m autoRankingStr := ⟨rfl, rfl, rfl, by decide, by decide⟩
  obtain ⟨rank, -, -, hfind, s', value, hget, hnew, -, hagain⟩ :=
    autoRanking_fresh (noHandlers Unit) s ⟨0, 1, 0⟩ m autoRankingStr 0 hm (by decide)
  have hzero : findRank 3 s.aliveRankSet 3 5 = some 0 := by decide
  have hrank : rank = 0 := some_inj.mp ((hfind 3 le_rfl).symm.trans hzero)
  subst hrank
  obtain ⟨rfl, rfl⟩ := hnew rfl
  exact ⟨hfind, _, by decide, hget, hagain _ _ m 0 rfl rfl hm⟩

end ConfigStore
