/-
Lookups of the manager of virtual addresses.

Every lookup goes to the last region that begins at or before the address, by its global address
or by its local one.  Imported regions have no local address, and all of them stand in the map of
the local addresses under the key 0.
-/
import MemFabric.MemTypeLookup

open OrderedMap

namespace Hybm

open AllocatedGvaInfo Hybm.OrderedMap VaManager

namespace VaManager

variable (m : VaManager)

def getLvaByGva (gva : ℕ) : ℕ :=
  if gva = 0 then 0
  else
    match m.allocatedLookupMapByGva.upTo gva with
    | some (_, info) =>
      if info.contains gva then (info.base.lva + (gva - info.base.gva)) % 2 ^ 64 else 0
    | none => 0

def getRank (pastEnd : AllocatedGvaInfo) (gva : ℕ) : ℕ × Bool :=
  if gva = 0 then (0, false)
  else
    let it := atOrBefore m.allocatedLookupMapByGva gva pastEnd
    if it.contains gva then (it.rankId, true) else (0, false)

def findAllocByGva (pastEnd : AllocatedGvaInfo) (gva : ℕ) : AllocatedGvaInfo × Bool :=
  let it := atOrBefore m.allocatedLookupMapByGva gva pastEnd
  if it.contains gva then (it, true) else (.unset, false)

def findAllocByLva (pastEnd : AllocatedGvaInfo) (lva : ℕ) : AllocatedGvaInfo × Bool :=
  let it := atOrBefore m.allocatedLookupMapByLva lva pastEnd
  if it.containsByLva lva then (it, true) else (.unset, false)

end VaManager

variable {s : VaState} {va : ℕ} {r : AllocatedGvaInfo}

/-! ### Translations -/

/-- The address is translated within the region that holds it, and to 0 if there is none that has
addresses of both kinds. -/
structure VaState.Translates (s : VaState) (va : ℕ) : Prop where
  toGva : ∀ r ∈ s.live, AtLva va r → s.manager.getGvaByLva va = r.base.gva + (va - r.base.lva)
  toLva : ∀ r ∈ s.live, r.base.lva ≠ 0 → AtGva va r →
    s.manager.getLvaByGva va = r.base.lva + (va - r.base.gva)
  noGva : (∀ r ∈ s.live, ¬ AtLva va r) → s.manager.getGvaByLva va = 0
  noLva : (∀ r ∈ s.live, AtGva va r → r.base.lva = 0) → s.manager.getLvaByGva va = 0

namespace VaState.Indexed

variable (h : s.Indexed) (hapart : LvaApart s.live)
include h hapart

theorem getGvaByLva (hr : r ∈ s.live) (hat : AtLva va r) :
    s.manager.getGvaByLva va = r.base.gva + (va - r.base.lva) := by
  obtain ⟨hzero, hle, hlast⟩ := hat
  rw [VaManager.getGvaByLva, if_neg (by omega),
    upTo_eq (h.byLva r hr hzero) hle (h.lt_of_lt_lva hapart hr ⟨hzero, hle, hlast⟩)]
  dsimp only
  rw [if_pos (by simpa [containsByLva_eq hapart hr] using ⟨hzero, hle, hlast⟩)]
  have hbound := (h.bound r hr).2
  exact Nat.mod_eq_of_lt (by omega)

theorem getGvaByLva_of_none (hnone : ∀ r ∈ s.live, ¬ AtLva va r) :
    s.manager.getGvaByLva va = 0 := by
  rw [VaManager.getGvaByLva]
  split
  · rfl
  split
  · next info hup =>
    have hlive := (h.ofLva _ _ (upTo_eq_some hup).1).1
    rw [if_neg (by simpa [containsByLva_eq hapart hlive] using hnone info hlive)]
  · rfl

/-- An imported region has the local address 0, to which the offset is added all the same. -/
theorem getLvaByGva (hr : r ∈ s.live) (hpos : va ≠ 0) (hat : AtGva va r) :
    s.manager.getLvaByGva va = r.base.lva + (va - r.base.gva) := by
  rw [VaManager.getLvaByGva, if_neg hpos,
    upTo_eq ((h.byGva _ r).mpr ⟨hr, rfl⟩) hat.1 (h.lt_of_lt_gva hr hat.2)]
  dsimp only
  rw [if_pos (by simpa [h.contains_eq hr] using hat)]
  have hbound := hapart.1 r hr
  obtain ⟨hle, hlast⟩ := hat
  exact Nat.mod_eq_of_lt (by omega)

omit hapart in
theorem getLvaByGva_of_none (hnone : ∀ r ∈ s.live, ¬ AtGva va r) :
    s.manager.getLvaByGva va = 0 := by
  rw [VaManager.getLvaByGva]
  split
  · rfl
  split
  · next info hup =>
    have hlive := ((h.byGva _ _).mp (upTo_eq_some hup).1).1
    rw [if_neg (by simpa [h.contains_eq hlive] using hnone info hlive)]
  · rfl

end VaState.Indexed

/-- The translations between the two kinds of addresses are inverse to each other and give 0 where
there is none, but for imported regions behind their first address. -/
theorem translates_iff (hs : vaSystem.ReachableBy exclusive s) (hapart : LvaApart s.live)
    (hva : va ≠ 0) : s.Translates va ↔
      ∀ r ∈ s.live, r.base.lva = 0 → AtGva va r → va = r.base.gva := by
  have h := VaState.Indexed.of_exclusive hs
  constructor
  · intro htrans r hr hzero hat
    have hlva := h.getLvaByGva hapart hr hva hat
    -- the other regions are apart from this one, so that there is nothing to translate to
    have hnone : ∀ r' ∈ s.live, AtGva va r' → r'.base.lva = 0 := by
      intro r' hr' hat'
      have hsame : some (r.base.gva, r) = some (r'.base.gva, r') :=
        (upTo_eq ((h.byGva _ r).mpr ⟨hr, rfl⟩) hat.1 (h.lt_of_lt_gva hr hat.2)).symm.trans
          (upTo_eq ((h.byGva _ r').mpr ⟨hr', rfl⟩) hat'.1 (h.lt_of_lt_gva hr' hat'.2))
      rwa [← (Prod.mk.inj (Option.some.inj hsame)).2]
    rw [htrans.noLva hnone, hzero] at hlva
    have hle := hat.1
    omega
  intro hfirst
  refine ⟨fun r hr => h.getGvaByLva hapart hr, fun r hr _ => h.getLvaByGva hapart hr hva,
    h.getGvaByLva_of_none hapart, fun hnone => ?_⟩
  by_cases hat : ∃ r ∈ s.live, AtGva va r
  · obtain ⟨r, hr, hat⟩ := hat
    have hzero := hnone r hr hat
    rw [h.getLvaByGva hapart hr hva hat, hzero, ← hfirst r hr hzero hat, Nat.sub_self]
  · exact h.getLvaByGva_of_none fun r hr hat' => hat ⟨r, hr, hat'⟩

/-- A local region and one imported from rank 1. -/
def localAndImported : List VaEvent :=
  [.add (.addVaInfoBase ⟨4096, 4096, .device, 65536⟩ 0),
    .add (.addVaInfoFromExternal ⟨8192, 4096, .host, 0⟩ 0 1)]

theorem translates_local_address : ∃ s, vaSystem.ReachableBy exclusive s ∧
    s.manager.getLvaByGva 4100 = 65540 ∧ s.manager.getGvaByLva 65540 = 4100 ∧
    s.Translates 4100 := by
  refine TransitionSystem.exists_reachableBy localAndImported (fun s => (decide (LvaApart s.live ∧ ∀
    r ∈ s.live, r.base.lva = 0 → AtGva 4100 r → 4100 = r.base.gva), s.manager.getLvaByGva 4100,
    s.manager.getGvaByLva 65540)) (true, 65540, 4100) ?_ fun s hs heq => ?_
  · decide +kernel
  obtain ⟨hreg, hlva, hgva⟩ := (Prod.mk.inj heq).imp_right Prod.mk.inj
  obtain ⟨hapart, hfirst⟩ := of_decide_eq_true hreg
  exact ⟨hlva, hgva, (translates_iff hs hapart (by decide)).mpr hfirst⟩

/-- For an imported region an offset is returned as if it were a local address. -/
theorem offset_for_address : ∃ s, vaSystem.ReachableBy exclusive s ∧ LvaApart s.live ∧
    s.manager.getLvaByGva 8196 = 4 ∧ ¬ s.Translates 8196 := by
  refine TransitionSystem.exists_reachableBy localAndImported (fun s => (decide (LvaApart s.live ∧ ∀
    r ∈ s.live, AtGva 8196 r → r.base.lva = 0), s.manager.getLvaByGva 8196)) (true, 4) ?_
    fun s _ heq => ?_
  · decide +kernel
  obtain ⟨hreg, hlva⟩ := Prod.mk.inj heq
  obtain ⟨hapart, hnone⟩ := of_decide_eq_true hreg
  refine ⟨hapart, hlva, fun htrans => ?_⟩
  rw [htrans.noLva hnone] at hlva
  cases hlva

/-! ### What the lookups read -/

/-- What is read past the end of a map makes no difference. -/
def Reads {α β : Type} (lookup : α → β) : Prop :=
  ∀ pastEnd pastEnd', lookup pastEnd = lookup pastEnd'

theorem VaManager.isGva_eq {m : VaManager} (h : m.allocatedLookupMapByGva.entries ≠ [])
    (hva : va ≠ 0) (pastEnd : Bool) (pastEnd' : AllocatedGvaInfo) :
    m.isGva pastEnd va = (atOrBefore m.allocatedLookupMapByGva va pastEnd').contains va := by
  rw [isGva, if_neg hva, atOrBefore]
  cases m.allocatedLookupMapByGva.upTo va with
  | some entry => rfl
  | none =>
    cases hhead : m.allocatedLookupMapByGva.entries.head? with
    | some entry => rfl
    | none => exact absurd (List.head?_eq_none_iff.mp hhead) h

/-- A lookup of an address that is not null finds the region that holds it, and nothing is read past
the end, if the maps it goes to are not empty. -/
theorem lookups_of_nonempty (hs : vaSystem.ReachableBy exclusive s) (hva : va ≠ 0)
    (reserved : ReservedMap) (pastEnd : Bool) (pastEnd' : AllocatedGvaInfo) :
    (s.manager.allocatedLookupMapByGva.entries ≠ [] →
      s.manager.isGva pastEnd va = (s.live.find? (AtGva va ·)).isSome ∧
      s.manager.getRank pastEnd' va =
        ((s.live.find? (AtGva va ·)).map fun r => (r.rankId, true)).getD (0, false) ∧
      s.manager.findAllocByGva pastEnd' va =
        ((s.live.find? (AtGva va ·)).map fun r => (r, true)).getD (.unset, false) ∧
      Reads fun pastEnd => s.manager.removeOneVaInfo pastEnd va) ∧
    (s.manager.allocatedLookupMapByLva.entries ≠ [] →
      Reads fun pastEnd => s.manager.findAllocByLva pastEnd va) ∧
    (s.manager.allocatedLookupMapByGva.entries ≠ [] →
      s.manager.allocatedLookupMapByLva.entries ≠ [] → reserved.entries ≠ [] →
      Reads fun pastEnd => s.manager.getMemType reserved pastEnd va) := by
  refine ⟨fun hgva => ?_, fun hlva p p' => ?_, fun hgva hlva hreserved p p' => ?_⟩
  · have hidx := VaState.Indexed.of_exclusive hs
    obtain ⟨k, hk⟩ := lookup_atOrBefore hgva va .unset
    have hfind : s.live.find? (AtGva va ·) = _ :=
      hidx.find?_atGva (List.ne_nil_of_mem ((hidx.byGva k _).mp hk).1)
    rw [VaState.nearest] at hfind
    have hisGva := fun pastEnd => isGva_eq hgva hva pastEnd .unset
    have hremove : Reads fun pastEnd => s.manager.removeOneVaInfo pastEnd va := by
      intro p p'
      dsimp only [removeOneVaInfo, findOneVaInfo]
      rw [hisGva p, hisGva p']
    rw [hisGva, getRank, if_neg hva, findAllocByGva, atOrBefore_pastEnd hgva pastEnd' .unset, hfind]
    dsimp only
    split
    · next hin => exact ⟨hin, rfl, rfl, hremove⟩
    · next hout => exact ⟨Bool.eq_false_iff.mpr hout, rfl, rfl, hremove⟩
  · dsimp only [findAllocByLva]
    rw [atOrBefore_pastEnd hlva p p']
  · dsimp only [getMemType]
    rw [atOrBefore_pastEnd hgva p.allocated p'.allocated,
      atOrBefore_pastEnd hlva p.allocated p'.allocated,
      atOrBefore_pastEnd hreserved p.reserved p'.reserved]

theorem lookups_two_regions : ∃ s, vaSystem.ReachableBy exclusive s ∧
    s.manager.getRank .unset 8196 = (1, true) ∧ ∃ r ∈ s.live, AtGva 8196 r := by
  refine TransitionSystem.exists_reachableBy localAndImported (fun s =>
    (s.manager.allocatedLookupMapByGva.entries.isEmpty, s.manager.getRank .unset 8196))
    (false, 1, true) ?_ fun s hs heq => ?_
  · decide +kernel
  obtain ⟨hgva, hrank⟩ := Prod.mk.inj heq
  obtain ⟨-, hfound, -⟩ := (@lookups_of_nonempty s 8196 hs (by decide) .empty false .unset).1
    (by simpa using hgva)
  refine ⟨hrank, ?_⟩
  cases hfind : s.live.find? (AtGva 8196 ·) with
  | none =>
    rw [hrank, hfind] at hfound
    cases hfound
  | some r => exact ⟨r, List.mem_of_find?_eq_some hfind, by simpa using List.find?_some hfind⟩

/-- In an empty map the end is read. -/
theorem end_read_when_empty : ∃ s, vaSystem.Reachable s ∧ s.live = [] ∧
    s.manager.isGva true 4096 = true ∧ s.manager.isGva false 4096 = false ∧
    (s.manager.getRank ⟨⟨4096, 1, .host, 0⟩, false, 7, 7⟩ 4096).2 = true :=
  ⟨_, .start, rfl, by decide +kernel, by decide +kernel, by decide +kernel⟩

end Hybm
