/-
The memory type of an address.

`GetMemType` looks for an address among the live regions by their global addresses, then by
their local addresses, and at last among the reserved ranges.
-/
import MemFabric.VmmImport

open List OrderedMap

namespace Hybm

namespace AllocatedGvaInfo

variable (va : ℕ) (r : AllocatedGvaInfo)

def AtGva : Prop := r.base.gva ≤ va ∧ va < r.base.gva + r.base.size deriving Decidable

/-- The address is in the range of local addresses, if there is one. -/
def AtLva : Prop := r.base.lva ≠ 0 ∧ r.base.lva ≤ va ∧ va < r.base.lva + r.base.size
  deriving Decidable

end AllocatedGvaInfo

open AllocatedGvaInfo Hybm.OrderedMap

variable {s : VaState} {reserved : ReservedMap} {va : ℕ} {pastEnd : PastEnd}

def reservedTypeOf (reserved : ReservedMap) (va : ℕ) : MemType :=
  (((reserved.entries.map Prod.snd).find? fun info =>
    info.start ≤ va ∧ va < info.start + info.size).map (·.memType)).getD .butt

def memTypeOf (live : List AllocatedGvaInfo) (reserved : ReservedMap) (va : ℕ) : MemType :=
  ((live.find? (AtGva va ·)).map (·.base.memType)).getD <|
    ((live.find? (AtLva va ·)).map (·.base.memType)).getD <| reservedTypeOf reserved va

/-- The region with the nearest global address at or before `va`, or the first one. -/
def VaState.nearest (s : VaState) (va : ℕ) : AllocatedGvaInfo :=
  atOrBefore s.manager.allocatedLookupMapByGva va .unset

/-- The ranges of local addresses end below `2 ^ 64` and have nothing in common. -/
def LvaApart (live : List AllocatedGvaInfo) : Prop :=
  (∀ r ∈ live, r.base.lva + r.base.size < 2 ^ 64) ∧ ∀ r ∈ live, ∀ r' ∈ live,
    r.base.lva ≠ 0 → r.base.lva < r'.base.lva → r.base.lva + r.base.size ≤ r'.base.lva
  deriving Decidable

/-- The address is not null, and it is the last one, which no range has, or a live region has it
among its global addresses; or else the maps that are read have entries, and the region with the
nearest global address has the type that is looked for wherever its type is returned. -/
def VaState.Regular (s : VaState) (reserved : ReservedMap) (va : ℕ) : Prop :=
  va ≠ 0 ∧ (2 ^ 64 ≤ va + 1 ∨ (∃ r ∈ s.live, AtGva va r) ∨
    (s.live ≠ [] ∧ ((∃ r ∈ s.live, AtLva va r) ∨ reserved.entries ≠ []) ∧
      ((s.manager.allocatedLookupMapByLva.entries ≠ [] ∧ ∀ r ∈ s.live, ¬ AtLva va r) ∨
        (s.nearest va).base.memType = memTypeOf s.live reserved va)))
  deriving Decidable

namespace OrderedMap

variable {ν : Type} {m : OrderedMap ℕ ν}

theorem lookup_atOrBefore (h : m.entries ≠ []) (va : ℕ) (pastEnd : ν) :
    ∃ k, m.lookup k = some (atOrBefore m va pastEnd) := by
  rw [atOrBefore]
  split
  · next k _ hup => exact ⟨k, (upTo_eq_some hup).1⟩
  split
  · next k _ hhead => exact ⟨k, mem_entries_iff.mp (mem_of_mem_head? hhead)⟩
  · next hhead => exact absurd (head?_eq_none_iff.mp hhead) h

theorem atOrBefore_pastEnd (h : m.entries ≠ []) (pastEnd pastEnd' : ν) :
    atOrBefore m va pastEnd = atOrBefore m va pastEnd' := by
  rw [atOrBefore, atOrBefore]
  split
  · rfl
  split
  · rfl
  · next hhead => exact absurd (head?_eq_none_iff.mp hhead) h

theorem atOrBefore_empty (h : m.entries = []) (pastEnd : ν) :
    atOrBefore m va pastEnd = pastEnd := by
  have hup : m.upTo va = none := by rw [upTo, h]; rfl
  rw [atOrBefore, hup, h]
  rfl

/-- If what holds is at or before the address and nothing follows it up to there, then it is
enough to look at one entry. -/
theorem find?_eq_of_atOrBefore {l : List ν} {p : ν → Bool} {pastEnd : ν}
    (hl : atOrBefore m va pastEnd ∈ l)
    (hp : ∀ w ∈ l, p w = true → ∃ k, m.lookup k = some w ∧ k ≤ va ∧
      ∀ {k' w'}, m.lookup k' = some w' → k < k' → va < k') :
    l.find? p =
      if p (atOrBefore m va pastEnd) then some (atOrBefore m va pastEnd) else none := by
  have hunique : ∀ w ∈ l, p w = true → atOrBefore m va pastEnd = w := by
    intro w hw hpw
    obtain ⟨k, hk, hle, hfree⟩ := hp w hw hpw
    exact atOrBefore_eq hk hle hfree pastEnd
  cases hfind : l.find? p with
  | none => rw [if_neg (find?_eq_none.mp hfind _ hl)]
  | some w =>
    have hpw := List.find?_some hfind
    rw [hunique w (mem_of_find?_eq_some hfind) hpw, if_pos hpw]

end OrderedMap

namespace VaState.Indexed

variable (h : s.Indexed)
include h

variable {r : AllocatedGvaInfo}

theorem contains_eq (hr : r ∈ s.live) : r.contains va = decide (AtGva va r) := by
  rw [AllocatedGvaInfo.contains, Nat.mod_eq_of_lt (h.bound r hr).2]
  rfl

theorem entries_ne_nil (hlive : s.live ≠ []) : s.manager.allocatedLookupMapByGva.entries ≠ [] := by
  obtain ⟨r, hr⟩ := exists_mem_of_ne_nil _ hlive
  exact ne_nil_of_mem (mem_entries_iff.mpr ((h.byGva _ r).mpr ⟨hr, rfl⟩))

theorem find?_atGva (hlive : s.live ≠ []) : s.live.find? (AtGva va ·) =
    if (s.nearest va).contains va then some (s.nearest va) else none := by
  obtain ⟨k, hk⟩ := lookup_atOrBefore (h.entries_ne_nil hlive) va .unset
  have hmem := ((h.byGva k _).mp hk).1
  rw [VaState.nearest, h.contains_eq hmem]
  refine find?_eq_of_atOrBefore hmem fun w hw hat => ?_
  obtain ⟨hlo, hhi⟩ := of_decide_eq_true hat
  exact ⟨w.base.gva, (h.byGva _ w).mpr ⟨hw, rfl⟩, hlo, h.lt_of_lt_gva hw hhi⟩

omit h in
theorem containsByLva_eq (hapart : LvaApart s.live) {r : AllocatedGvaInfo} (hr : r ∈ s.live) :
    r.containsByLva va = decide (AtLva va r) := by
  rw [containsByLva, Nat.mod_eq_of_lt (hapart.1 r hr)]
  by_cases hzero : r.base.lva = 0
  · simp [AtLva, hzero]
  · simp [AtLva, hzero]

theorem lt_of_lt_lva (hapart : LvaApart s.live) (hr : r ∈ s.live) (hat : AtLva va r) {k : ℕ}
    {r' : AllocatedGvaInfo} (hk : s.manager.allocatedLookupMapByLva.lookup k = some r')
    (hlt : r.base.lva < k) : va < k := by
  obtain ⟨hr', rfl⟩ := h.ofLva _ _ hk
  exact hat.2.2.trans_le (hapart.2 r hr _ hr' hat.1 hlt)

theorem containsByLva_of_atLva (hapart : LvaApart s.live) (hr : r ∈ s.live) (hat : AtLva va r)
    (pastEnd : AllocatedGvaInfo) :
    (atOrBefore s.manager.allocatedLookupMapByLva va pastEnd).containsByLva va = true := by
  rw [atOrBefore_eq (h.byLva r hr hat.1) hat.2.1 (h.lt_of_lt_lva hapart hr hat) pastEnd,
    containsByLva_eq hapart hr]
  exact decide_eq_true hat

theorem not_containsByLva (hapart : LvaApart s.live) (hnone : ∀ r ∈ s.live, ¬ AtLva va r)
    (hmap : s.manager.allocatedLookupMapByLva.entries ≠ []) (pastEnd : AllocatedGvaInfo) :
    (atOrBefore s.manager.allocatedLookupMapByLva va pastEnd).containsByLva va = false := by
  obtain ⟨k, hk⟩ := lookup_atOrBefore hmap va pastEnd
  have hr := (h.ofLva k _ hk).1
  rw [containsByLva_eq hapart hr]
  exact decide_eq_false (hnone _ hr)

end VaState.Indexed

theorem ReservedMap.Apart.reservedTypeOf_eq (h : reserved.Apart) (hne : reserved.entries ≠ [])
    (pastEnd : ReservedGvaInfo) {info : ReservedGvaInfo}
    (hinfo : atOrBefore reserved va pastEnd = info) :
    reservedTypeOf reserved va = if info.contains va then info.memType else .butt := by
  obtain ⟨k, hk⟩ := lookup_atOrBefore hne va pastEnd
  rw [hinfo] at hk
  have hend : info.start + info.size < 2 ^ 64 := by
    rw [h.start hk]
    exact (h.within hk).2.2.trans_lt (by decide)
  have hmem : info ∈ reserved.entries.map Prod.snd :=
    mem_map_of_mem (f := Prod.snd) (mem_entries_iff.mpr hk)
  rw [ReservedGvaInfo.contains, ReservedGvaInfo.endAddress, Nat.mod_eq_of_lt hend,
    reservedTypeOf, ← hinfo, find?_eq_of_atOrBefore (hinfo ▸ hmem) fun w hw hat => ?_]
  · split <;> rfl
  obtain ⟨⟨j, w⟩, hj, rfl⟩ := mem_map.mp hw
  have hj := mem_entries_iff.mp hj
  obtain ⟨hle, hlast⟩ := of_decide_eq_true hat
  rw [h.start hj] at hle hlast
  exact ⟨j, hj, hle, fun hj' hlt => hlast.trans_le (h.apart hj hj' hlt)⟩

theorem memTypeOf_eq_butt {live : List AllocatedGvaInfo} (hgva : ∀ r ∈ live, ¬ AtGva va r)
    (hlva : ∀ r ∈ live, ¬ AtLva va r)
    (hres : ∀ {k info}, reserved.lookup k = some info →
      ¬ (info.start ≤ va ∧ va < info.start + info.size)) : memTypeOf live reserved va = .butt := by
  have hgva' : live.find? (AtGva va ·) = none := find?_eq_none.mpr (by simpa using hgva)
  have hlva' : live.find? (AtLva va ·) = none := find?_eq_none.mpr (by simpa using hlva)
  have hres' : ((reserved.entries.map Prod.snd).find? fun info =>
      info.start ≤ va ∧ va < info.start + info.size) = none := by
    refine find?_eq_none.mpr fun info hinfo => ?_
    obtain ⟨⟨k, info⟩, hk, rfl⟩ := mem_map.mp hinfo
    simpa using hres (mem_entries_iff.mp hk)
  rw [memTypeOf, reservedTypeOf, hgva', hlva', hres']
  rfl

theorem VaManager.getMemType_last (m : VaManager) (hva : va ≠ 0) (hlast : 2 ^ 64 ≤ va + 1) :
    m.getMemType reserved pastEnd va = .butt := by
  have hnot : ∀ n : ℕ, ¬ va < n % 2 ^ 64 := fun n hlt => by
    have := Nat.mod_lt n (show 0 < 2 ^ 64 by norm_num)
    omega
  have hgva : ∀ r : AllocatedGvaInfo, r.contains va = false :=
    fun r => decide_eq_false fun h => hnot _ h.2
  have hlva : ∀ r : AllocatedGvaInfo, r.containsByLva va = false := by
    intro r
    rw [containsByLva]
    split
    · rfl
    · exact decide_eq_false fun h => hnot _ h.2
  have hres : ∀ info : ReservedGvaInfo, info.contains va = false :=
    fun info => decide_eq_false fun h => hnot _ h.2
  simp [getMemType, hva, hgva, hlva, hres]

/-- The last of the three lookups does not depend on what is read behind an empty map, and gives the
type of the range, exactly if there is a range. -/
theorem ReservedMap.Apart.forall_memType_iff (h : reserved.Apart) (hlast : ¬ 2 ^ 64 ≤ va + 1) :
    (∀ pastEnd, (if (atOrBefore reserved va pastEnd).contains va
        then (atOrBefore reserved va pastEnd).memType else .butt) = reservedTypeOf reserved va) ↔
      reserved.entries ≠ [] := by
  constructor
  · intro hall hempty
    have hhost := hall ⟨va, 1, .host, 0⟩
    have hin : (ReservedGvaInfo.mk va 1 .host 0).contains va = true := by
      refine decide_eq_true ⟨le_rfl, ?_⟩
      rw [ReservedGvaInfo.endAddress, Nat.mod_eq_of_lt (by dsimp only; omega)]
      exact Nat.lt_succ_self va
    rw [atOrBefore_empty hempty, if_pos hin, reservedTypeOf, hempty] at hhost
    cases hhost
  · intro hne pastEnd
    exact (h.reservedTypeOf_eq hne pastEnd rfl).symm

namespace VaState.Indexed

variable (h : s.Indexed)
include h

/-- Where the nearest region has the address, its type is found. -/
theorem getMemType_of_contains (hva : va ≠ 0) (hlive : s.live ≠ [])
    (hin : (s.nearest va).contains va = true) :
    s.manager.getMemType reserved pastEnd va = memTypeOf s.live reserved va := by
  rw [VaManager.getMemType, if_neg hva, memTypeOf, h.find?_atGva hlive, if_pos hin,
    atOrBefore_pastEnd (h.entries_ne_nil hlive) _ .unset]
  exact if_pos hin

/-- Without a region the end of the map is read, which may have the address with any type. -/
theorem exists_getMemType_ne (hva : va ≠ 0) (hlast : ¬ 2 ^ 64 ≤ va + 1) (hlive : s.live = [])
    (t : MemType) : ∃ pastEnd, s.manager.getMemType reserved pastEnd va ≠ t := by
  have hempty : s.manager.allocatedLookupMapByGva.entries = [] := by
    refine eq_nil_iff_forall_not_mem.mpr fun e he => ?_
    have hmem := ((h.byGva _ _).mp (mem_entries_iff.mp he)).1
    rw [hlive] at hmem
    cases hmem
  have hread : ∀ t',
      s.manager.getMemType reserved ⟨⟨⟨va, 1, t', 0⟩, false, 0, 0⟩, .unset⟩ va = t' := by
    intro t'
    have hin : (AllocatedGvaInfo.mk ⟨va, 1, t', 0⟩ false 0 0).contains va = true := by
      refine decide_eq_true ⟨le_rfl, ?_⟩
      rw [Nat.mod_eq_of_lt (by dsimp only; omega)]
      exact Nat.lt_succ_self va
    rw [VaManager.getMemType, if_neg hva, atOrBefore_empty hempty]
    exact if_pos hin
  by_cases ht : t = .host
  · exact ⟨_, (hread .device).trans_ne (by simp [ht])⟩
  · exact ⟨_, (hread .host).trans_ne (Ne.symm ht)⟩

/-- Where no region has the address among its global ones, the other two lookups decide. -/
theorem getMemType_of_not_contains (hva : va ≠ 0) (hlive : s.live ≠ [])
    (hout : (s.nearest va).contains va = false) :
    s.manager.getMemType reserved pastEnd va =
      if (atOrBefore s.manager.allocatedLookupMapByLva va pastEnd.allocated).containsByLva va
      then (s.nearest va).base.memType
      else if (atOrBefore reserved va pastEnd.reserved).contains va
        then (atOrBefore reserved va pastEnd.reserved).memType else .butt := by
  rw [VaState.nearest] at hout ⊢
  rw [VaManager.getMemType, if_neg hva, atOrBefore_pastEnd (h.entries_ne_nil hlive) _ .unset]
  dsimp only
  rw [hout]
  rfl

end VaState.Indexed

/-- The address is null or the last one. -/
theorem getMemType_at_ends (h : s.Indexed) (hreserved : reserved.Apart) (hapart : LvaApart s.live)
    (hends : va = 0 ∨ 2 ^ 64 ≤ va + 1) :
    s.manager.getMemType reserved pastEnd va = memTypeOf s.live reserved va ↔ va ≠ 0 := by
  have hbutt : memTypeOf s.live reserved va = .butt := by
    refine memTypeOf_eq_butt (fun r hr hat => ?_) (fun r hr hat => ?_) fun hk hat => ?_
    · have := h.gva r hr
      have := (h.bound r hr).2
      obtain ⟨hlo, hhi⟩ := hat
      omega
    · have := hapart.1 r hr
      obtain ⟨hne, hlo, hhi⟩ := hat
      omega
    · have hlo := (hreserved.within hk).1
      have hhi := (hreserved.within hk).2.2
      have hpos : 0 < gvmStartAddr ∧ gvmEndAddr < 2 ^ 63 := by decide
      rw [hreserved.start hk] at hat
      omega
  rw [hbutt]
  by_cases hva : va = 0
  · simp [VaManager.getMemType, hva]
  · exact iff_of_true (VaManager.getMemType_last _ hva (hends.resolve_left hva)) hva

/-- In every run whose calls meet `exclusive`, with local addresses that are apart: whatever is read
behind the end of an empty map, the type is right exactly if the address is regular. -/
theorem getMemType_iff_regular (hs : vaSystem.ReachableBy exclusive s)
    (hreserved : reserveSystem.Reachable reserved) (hapart : LvaApart s.live) :
    (∀ pastEnd, s.manager.getMemType reserved pastEnd va = memTypeOf s.live reserved va) ↔
      s.Regular reserved va := by
  have hidx := VaState.Indexed.of_exclusive hs
  have hresapart := reserved_apart hreserved
  unfold VaState.Regular
  by_cases hends : va = 0 ∨ 2 ^ 64 ≤ va + 1
  · simp only [getMemType_at_ends hidx hresapart hapart hends]
    refine ⟨fun h => ⟨h ⟨.unset, .unset⟩, .inl (hends.resolve_left (h ⟨.unset, .unset⟩))⟩, ?_⟩
    exact fun h _ => h.1
  obtain ⟨hva, hlast⟩ := not_or.mp hends
  rw [and_iff_right hva, or_iff_right hlast]
  by_cases hlive : s.live = []
  · refine iff_of_false (fun hall => ?_) (by simp [hlive])
    obtain ⟨pastEnd, hne⟩ := hidx.exists_getMemType_ne hva hlast hlive _
    exact hne (hall pastEnd)
  have hfind : s.live.find? (AtGva va ·) = _ := hidx.find?_atGva hlive
  by_cases hin : (s.nearest va).contains va
  · rw [if_pos hin] at hfind
    have hat := List.find?_some hfind
    refine iff_of_true (fun pastEnd => hidx.getMemType_of_contains hva hlive hin) (.inl ?_)
    exact ⟨_, mem_of_find?_eq_some hfind, of_decide_eq_true hat⟩
  rw [if_neg hin] at hfind
  have hnone : ¬ ∃ r ∈ s.live, AtGva va r :=
    fun ⟨r, hr, hat⟩ => find?_eq_none.mp hfind r hr (decide_eq_true hat)
  simp only [hidx.getMemType_of_not_contains hva hlive (Bool.eq_false_iff.mpr hin)]
  rw [or_iff_right hnone, and_iff_right hlive]
  by_cases hlva : ∃ r ∈ s.live, AtLva va r
  · -- a local address: the type of the nearest region is returned
    obtain ⟨r, hr, hat⟩ := hlva
    have hsome : ∃ r ∈ s.live, AtLva va r := ⟨r, hr, hat⟩
    have hnot : ¬ ∀ r ∈ s.live, ¬ AtLva va r := fun hall => hall r hr hat
    simp only [hidx.containsByLva_of_atLva hapart hr hat, if_true, hsome, hnot, true_or, true_and,
      and_false, false_or]
    exact ⟨fun hall => hall ⟨.unset, .unset⟩, fun heq _ => heq⟩
  have hnoL : ∀ r ∈ s.live, ¬ AtLva va r := fun r hr hat => hlva ⟨r, hr, hat⟩
  have htype : memTypeOf s.live reserved va = reservedTypeOf reserved va := by
    have hfindL : s.live.find? (AtLva va ·) = none := find?_eq_none.mpr (by simpa using hnoL)
    rw [memTypeOf, hfind, hfindL]
    rfl
  have hres := hresapart.forall_memType_iff hlast
  rw [← htype] at hres
  rw [or_iff_right hlva, and_iff_left hnoL, ← hres]
  by_cases hmapL : s.manager.allocatedLookupMapByLva.entries = []
  · -- what is read behind the end may have the address, or not
    have hempty := @atOrBefore_empty va _ _ hmapL
    simp only [hempty, hmapL, ne_eq, not_true_eq_false, false_or]
    constructor
    · intro hall
      refine ⟨fun pastEnd => ?_, ?_⟩
      · exact hall ⟨.unset, pastEnd⟩
      have hinL : (AllocatedGvaInfo.mk ⟨0, 1, .host, va⟩ false 0 0).containsByLva va = true := by
        rw [containsByLva, if_neg hva]
        refine decide_eq_true ⟨le_rfl, ?_⟩
        rw [Nat.mod_eq_of_lt (by dsimp only; omega)]
        exact Nat.lt_succ_self va
      have hnear := hall ⟨⟨⟨0, 1, .host, va⟩, false, 0, 0⟩, .unset⟩
      rwa [if_pos hinL] at hnear
    · rintro ⟨hrest, hnear⟩ pastEnd
      split
      · exact hnear
      · exact hrest pastEnd.reserved
  simp only [hidx.not_containsByLva hapart hnoL hmapL, Bool.false_eq_true, if_false, ne_eq, hmapL,
    not_false_eq_true, true_or, and_true]
  exact ⟨fun hall pastEnd => hall ⟨.unset, pastEnd⟩, fun hall pastEnd => hall pastEnd.reserved⟩

/-- Two device regions, and an address in the local range of the first one. -/
theorem getMemType_two_device_regions :
    ∃ s : VaState, vaSystem.ReachableBy exclusive s ∧ LvaApart s.live ∧ ∃ reserved,
      (∀ pastEnd, s.manager.getMemType reserved pastEnd 65537 = memTypeOf s.live reserved 65537) ∧
      memTypeOf s.live reserved 65537 = .device := by
  let reserved := (ReservedMap.allocReserveGva .empty 0 4096 .host).2
  refine TransitionSystem.exists_reachableBy [.add (.addVaInfoBase ⟨4096, 4096, .device, 65536⟩ 0),
      .add (.addVaInfoBase ⟨8192, 4096, .device, 131072⟩ 0)]
    (fun s => (decide (LvaApart s.live ∧ s.Regular reserved 65537),
      memTypeOf s.live reserved 65537)) (true, .device) ?_ fun s hreach heq => ?_
  · decide +kernel
  obtain ⟨hreg, htype⟩ := Prod.mk.inj heq
  obtain ⟨hapart, hreg⟩ := of_decide_eq_true hreg
  have hreserved : reserveSystem.Reachable reserved := TransitionSystem.reachable_of_run
    (show reserveSystem.run _ [.allocReserveGva 0 4096 .host] = some reserved from rfl)
  exact ⟨hapart, reserved, (getMemType_iff_regular hreach hreserved hapart).mpr hreg, htype⟩

/-- For a local address the type of the region whose global address is nearest is returned. -/
theorem getMemType_of_local_address :
    ∃ s : VaState, vaSystem.ReachableBy exclusive s ∧ LvaApart s.live ∧ ∃ reserved pastEnd,
      s.manager.getMemType reserved pastEnd 65537 = .host ∧
      memTypeOf s.live reserved 65537 = .device := by
  let reserved := (ReservedMap.allocReserveGva .empty 0 4096 .host).2
  refine TransitionSystem.exists_reachableBy [.add (.addVaInfoBase ⟨4096, 4096, .device, 65536⟩ 0),
      .add (.addVaInfoBase ⟨8192, 4096, .host, 131072⟩ 0)]
    (fun s => (decide (LvaApart s.live), s.manager.getMemType reserved ⟨.unset, .unset⟩ 65537,
      memTypeOf s.live reserved 65537)) (true, .host, .device) ?_ fun s _ heq => ?_
  · decide +kernel
  obtain ⟨hapart, htypes⟩ := Prod.mk.inj heq
  exact ⟨of_decide_eq_true hapart, reserved, _, Prod.mk.inj htypes⟩

end Hybm
